import LempelZiv.Proofs.CommonPrefix
import Mathlib.Order.Bounds.Basic

namespace LempelZiv

/-- The byte that the lowest set bit of `w` is in. -/
theorem zeroBytes_of_testBit {k i : Nat} {w : UInt64} (hi : i < 8 * k) (hset : w.toNat.testBit i = true)
    (hclear : ∀ j < i, w.toNat.testBit j = false) : zeroBytes k w = i / 8 := by
  induction k generalizing i w with
  | zero => exact absurd hi (Nat.not_lt_zero i)
  | succ k ih =>
    rw [zeroBytes]
    -- the set bit is in the lowest byte, or this byte is zero and the bit is eight lower in the rest
    by_cases h : i < 8
    · rw [if_neg, Nat.div_eq_of_lt h]
      intro hzero
      have hbit := Nat.testBit_mod_two_pow w.toNat 8 i
      rw [← toNat_and_255, hzero, hset, decide_eq_true h] at hbit
      exact absurd hbit (by simp)
    · have hzero : w &&& 255 = 0 := by
        rw [← UInt64.toNat_inj, toNat_and_255]
        refine Nat.eq_of_testBit_eq fun j => ?_
        rw [Nat.testBit_mod_two_pow, UInt64.toNat_zero, Nat.zero_testBit, Bool.and_eq_false_imp, decide_eq_true_iff]
        exact fun hj => hclear j (by omega)
      have hshift : ∀ j, (w >>> 8).toNat.testBit j = w.toNat.testBit (8 + j) := by
        intro j
        rw [UInt64.toNat_shiftRight, Nat.testBit_shiftRight]
        rfl
      have hrest : zeroBytes k (w >>> 8) = (i - 8) / 8 := by
        refine ih (by omega) ?_ ?_
        · rw [hshift, Nat.add_sub_cancel' (by omega)]
          exact hset
        · intro j hj
          rw [hshift]
          exact hclear (8 + j) (by omega)
      rw [if_pos hzero, hrest]
      omega

/-- The zero bytes at the low end of a word are its trailing zero bits by eights. -/
theorem zeroBytes_eq_ctz {w : UInt64} (hw : w ≠ 0) : zeroBytes 8 w = w.toBitVec.ctz.toNat / 8 := by
  have hne : w.toBitVec ≠ 0#64 := fun h => hw (UInt64.toBitVec_inj.mp h)
  have hset := BitVec.getLsbD_true_ctz_of_ne_zero hne
  refine zeroBytes_of_testBit (BitVec.lt_of_getLsbD hset) hset ?_
  intro j hj
  exact BitVec.getLsbD_false_of_lt_ctz hj

/-- A byte of the data, and a fault where there is none. -/
def loadByte (data : ByteArray) (pos : Nat) : Except Fault UInt8 :=
  if h : pos < data.size then .ok data[pos] else .error .outOfRange

/-- Eight bytes of the data as one word, and a fault where there are fewer. -/
def loadLong (data : ByteArray) (pos : Nat) : Except Fault UInt64 :=
  if h : pos + 7 < data.size then .ok (longAt data pos h) else .error .outOfRange

/-- Goes on from `n` equal bytes, one byte at a time, and checks every position that it reads. -/
def scanBytes (data : ByteArray) (earlier later limit n : Nat) : Except Fault Nat :=
  if n < limit then do
    let a ← loadByte data (earlier + n)
    let b ← loadByte data (later + n)
    if a = b then scanBytes data earlier later limit (n + 1) else return n
  else return n
  termination_by limit - n

/-- Goes on from `n` equal bytes, eight at a time while eight are left, and checks every position that it reads. The
first difference is where the trailing zero bits of two words that differ end. -/
def scanWords (data : ByteArray) (earlier later limit n : Nat) : Except Fault Nat :=
  if n + 8 ≤ limit then do
    let a ← loadLong data (earlier + n)
    let b ← loadLong data (later + n)
    let diff := a ^^^ b
    if diff = 0 then scanWords data earlier later limit (n + 8) else return n + diff.toBitVec.ctz.toNat / 8
  else scanBytes data earlier later limit n
  termination_by limit - n

section

variable {data : ByteArray} {earlier later limit n : Nat}

theorem scanBytes_eq (h : Stretches data earlier later limit) :
    scanBytes data earlier later limit n = .ok (prefixByBytes data earlier later limit n h) := by
  fun_induction prefixByBytes data earlier later limit n h with
  | case1 n hlt hl he heq ih =>
    rw [scanBytes, if_pos hlt, loadByte, loadByte, dif_pos he, dif_pos hl]
    change (if data[earlier + n] = data[later + n] then _ else _) = _
    rw [if_pos heq, ih]
  | case2 n hlt hl he hne =>
    rw [scanBytes, if_pos hlt, loadByte, loadByte, dif_pos he, dif_pos hl]
    change (if data[earlier + n] = data[later + n] then _ else _) = _
    rw [if_neg hne]
    rfl
  | case3 n hge =>
    rw [scanBytes, if_neg hge]
    rfl

theorem scanWords_eq (h : Stretches data earlier later limit) :
    scanWords data earlier later limit n = .ok (prefixByWords data earlier later limit n h) := by
  fun_induction prefixByWords data earlier later limit n h with
  | case1 n hle hl he diff hzero ih =>
    rw [scanWords, if_pos hle, loadLong, loadLong, dif_pos he, dif_pos hl]
    change (if diff = 0 then _ else _) = _
    rw [if_pos hzero, ih]
  | case2 n hle hl he diff hne =>
    rw [scanWords, if_pos hle, loadLong, loadLong, dif_pos he, dif_pos hl]
    change (if diff = 0 then _ else _) = _
    rw [if_neg hne, zeroBytes_eq_ctz hne]
    rfl
  | case3 n hgt =>
    rw [scanWords, if_neg hgt]
    exact scanBytes_eq h

theorem AgreeFor.isGreatest {i j : Nat} (h : AgreeFor data i j limit n) :
    IsGreatest {m | m ≤ limit ∧ ∀ k < m, byteAt data (i + k) = byteAt data (j + k)} n := by
  refine ⟨⟨h.le, h.equal⟩, ?_⟩
  rintro m ⟨hm, hequal⟩
  by_contra hlt
  exact h.differ (by omega) (hequal n (by omega))

/-- Word by word or byte by byte, and also where the two stretches overlap, the comparison reads inside the data only
and finds how far they are equal. -/
theorem commonPrefix_isGreatest (he : earlier < later) (hl : later + limit ≤ data.size) :
    ∃ n, commonPrefix data earlier later limit = .ok n ∧ scanWords data earlier later limit 0 = .ok n ∧
      scanBytes data earlier later limit 0 = .ok n ∧
      IsGreatest {m | m ≤ limit ∧ ∀ i < m, byteAt data (earlier + i) = byteAt data (later + i)} n := by
  have h : Stretches data earlier later limit := ⟨he, hl⟩
  have hnone : ∀ k < 0, byteAt data (earlier + k) = byteAt data (later + k) :=
    fun _ hk => absurd hk (Nat.not_lt_zero _)
  have hwords := prefixByWords_agreeFor (h := h) (Nat.zero_le _) hnone
  have hbytes := prefixByBytes_agreeFor (h := h) (Nat.zero_le _) hnone
  refine ⟨prefixByWords data earlier later limit 0 h, ?_, scanWords_eq h, ?_, hwords.isGreatest⟩
  · rw [commonPrefix, dif_pos ⟨he, hl⟩]
  · rw [scanBytes_eq h, hbytes.unique hwords]

/-- Twelve equal bytes, compared with themselves one position on. -/
theorem commonPrefix_overlapping :
    1 + 16 ≤ (⟨#[7, 7, 7, 7, 7, 7, 7, 7, 7, 7, 7, 7, 8, 7, 7, 7, 7]⟩ : ByteArray).size ∧
      commonPrefix ⟨#[7, 7, 7, 7, 7, 7, 7, 7, 7, 7, 7, 7, 8, 7, 7, 7, 7]⟩ 0 1 16 = .ok 11 ∧
      scanWords ⟨#[7, 7, 7, 7, 7, 7, 7, 7, 7, 7, 7, 7, 8, 7, 7, 7, 7]⟩ 0 1 16 0 = .ok 11 := by
  have hinside : 1 + 16 ≤ (⟨#[7, 7, 7, 7, 7, 7, 7, 7, 7, 7, 7, 7, 8, 7, 7, 7, 7]⟩ : ByteArray).size := by decide
  obtain ⟨n, hprefix, hscan, _, ⟨_, hequal⟩, hmost⟩ := commonPrefix_isGreatest (by decide : 0 < 1) hinside
  have heleven : 11 ≤ n := hmost ⟨by decide, by decide⟩
  have hn : n = 11 := by
    by_contra hne
    exact absurd (hequal 11 (by omega)) (by decide)
  exact ⟨hinside, hn ▸ hprefix, hn ▸ hscan⟩

end

end LempelZiv
