import LempelZiv.Search.CommonPrefix
import LempelZiv.Proofs.Bytes
import Mathlib.Data.LawfulXor.Basic

namespace LempelZiv

/-- Of the `limit` bytes at `i` and at `j` the first `n` are equal, and no more. -/
structure AgreeFor (data : ByteArray) (i j limit n : Nat) : Prop where
  le : n ≤ limit
  equal : ∀ k < n, byteAt data (i + k) = byteAt data (j + k)
  differ : n < limit → byteAt data (i + n) ≠ byteAt data (j + n)

theorem AgreeFor.unique {data : ByteArray} {i j limit n m : Nat} (hn : AgreeFor data i j limit n)
    (hm : AgreeFor data i j limit m) : n = m := by
  have hle := hn.le
  have hle' := hm.le
  rcases Nat.lt_trichotomy n m with h | h | h
  · exact absurd (hm.equal n h) (hn.differ (by omega))
  · exact h
  · exact absurd (hn.equal m h) (hm.differ (by omega))

theorem agreeFor_zero {data : ByteArray} {i j limit : Nat} (h : byteAt data i ≠ byteAt data j) :
    AgreeFor data i j limit 0 := ⟨Nat.zero_le _, fun _ hk => absurd hk (Nat.not_lt_zero _), fun _ => h⟩

theorem AgreeFor.add {data : ByteArray} {i j limit n m : Nat} (hn : n ≤ limit)
    (equal : ∀ k < n, byteAt data (i + k) = byteAt data (j + k))
    (h : AgreeFor data (i + n) (j + n) (limit - n) m) : AgreeFor data i j limit (n + m) := by
  have hle := h.le
  refine ⟨by omega, ?_, ?_⟩
  · intro k hk
    by_cases hlt : k < n
    · exact equal k hlt
    · have hm := h.equal (k - n) (by omega)
      rwa [Nat.add_assoc, Nat.add_assoc, Nat.add_sub_cancel' (by omega)] at hm
  · intro hlt
    rw [← Nat.add_assoc, ← Nat.add_assoc]
    exact h.differ (by omega)

theorem AgreeFor.extend {data : ByteArray} {i j k limit n : Nat} (h : AgreeFor data i j k n) (hlt : n < k)
    (hk : k ≤ limit) : AgreeFor data i j limit n :=
  ⟨by omega, h.equal, fun _ => h.differ hlt⟩

theorem readLE_congr {data : ByteArray} {i j k : Nat}
    (h : ∀ m < k, byteAt data (i + m) = byteAt data (j + m)) :
    readLE data i k = readLE data j k := by
  induction k generalizing i j with
  | zero => rfl
  | succ k ih =>
    have h0 := h 0 (Nat.zero_lt_succ k)
    rw [Nat.add_zero, Nat.add_zero] at h0
    rw [readLE, readLE, h0, @ih (i + 1) (j + 1)]
    intro m hm
    have hs := h (m + 1) (by omega)
    rwa [Nat.add_right_comm i 1 m, Nat.add_right_comm j 1 m]

theorem readLE_succ (src : ByteArray) (i k : Nat) :
    readLE src i (k + 1) = readLE src i k ||| (byteAt src (i + k)).toNat <<< (8 * k) := by
  have sum : readLE src i (k + 1) = readLE src i k + 256 ^ k * (byteAt src (i + k)).toNat := by
    induction k generalizing i with
    | zero => simp [readLE]
    | succ k ih =>
      rw [readLE, ih (i + 1), readLE, Nat.pow_succ, Nat.add_right_comm i 1 k, Nat.mul_add, Nat.add_assoc,
        ← Nat.mul_assoc, Nat.mul_comm 256 (256 ^ k), Nat.add_assoc]
  have hlt : readLE src i k < 2 ^ (8 * k) := by
    have h := readLE_lt src i k
    rwa [Nat.pow_mul]
  rw [sum, Nat.or_comm, ← Nat.shiftLeft_add_eq_or_of_lt hlt, Nat.shiftLeft_eq, Nat.pow_mul,
    Nat.mul_comm, Nat.add_comm]

theorem toNat_longAt {data : ByteArray} {pos : Nat} (h : pos + 7 < data.size) :
    (longAt data pos h).toNat = readLE data pos 8 := by
  have shifted : ∀ (b : UInt8) (k : Nat), k < 57 → b.toNat <<< k % 2 ^ 64 = b.toNat <<< k := by
    intro b k hk
    have hb := b.toNat_lt
    have hp : 2 ^ k ≤ 2 ^ 56 := Nat.pow_le_pow_right (by decide) (by omega)
    rw [Nat.shiftLeft_eq]
    exact Nat.mod_eq_of_lt (Nat.lt_of_le_of_lt (Nat.mul_le_mul (Nat.le_of_lt_succ hb) hp) (by decide))
  simp only [longAt, UInt64.toNat_or, UInt64.toNat_shiftLeft, UInt8.toNat_toUInt64, UInt64.reduceToNat,
    Nat.reduceMod]
  rw [shifted _ 8 (by decide), shifted _ 16 (by decide), shifted _ 24 (by decide), shifted _ 32 (by decide),
    shifted _ 40 (by decide), shifted _ 48 (by decide), shifted _ 56 (by decide)]
  rw [readLE_succ, readLE_succ, readLE_succ, readLE_succ, readLE_succ, readLE_succ, readLE_succ,
    readLE_succ, readLE,
    Nat.zero_or, Nat.mul_zero, Nat.shiftLeft_zero]
  rw [byteAt_of_lt (by omega), byteAt_of_lt (by omega), byteAt_of_lt (by omega), byteAt_of_lt (by omega),
    byteAt_of_lt (by omega), byteAt_of_lt (by omega), byteAt_of_lt (by omega), byteAt_of_lt (by omega)]
  rfl

theorem toNat_and_255 (w : UInt64) : (w &&& 255).toNat = w.toNat % 2 ^ 8 := by
  rw [UInt64.toNat_and]
  exact Nat.and_two_pow_sub_one_eq_mod w.toNat 8

theorem and_255_eq_zero_iff {a b : UInt64} : (a ^^^ b) &&& 255 = 0 ↔ a.toNat % 256 = b.toNat % 256 := by
  rw [← UInt64.toNat_inj, toNat_and_255, UInt64.toNat_xor, Nat.xor_mod_two_pow]
  exact xor_eq_zero_iff

theorem toNat_shiftRight_eight (w : UInt64) : (w >>> 8).toNat = w.toNat / 256 := by
  rw [UInt64.toNat_shiftRight, Nat.shiftRight_eq_div_pow]
  rfl

/-- The zero bytes at the low end of the difference of two words are equal bytes at their start. -/
theorem zeroBytes_agreeFor {data : ByteArray} {i j k : Nat} {a b : UInt64} (ha : a.toNat = readLE data i k)
    (hb : b.toNat = readLE data j k) : AgreeFor data i j k (zeroBytes k (a ^^^ b)) := by
  induction k generalizing i j a b with
  | zero => exact ⟨Nat.le_refl _, fun _ hk => absurd hk (Nat.not_lt_zero _), fun h =>
      absurd h (Nat.lt_irrefl _)⟩
  | succ k ih =>
    rw [readLE] at ha hb
    have hi := (byteAt data i).toNat_lt
    have hj := (byteAt data j).toNat_lt
    have hlow : (a ^^^ b) &&& 255 = 0 ↔ byteAt data i = byteAt data j := by
      rw [and_255_eq_zero_iff, ← UInt8.toNat_inj]
      omega
    rw [zeroBytes]
    by_cases h : byteAt data i = byteAt data j
    · rw [if_pos (hlow.mpr h), UInt64.shiftRight_xor, Nat.add_comm (zeroBytes k _)]
      have ha' : (a >>> 8).toNat = readLE data (i + 1) k := by rw [toNat_shiftRight_eight]; omega
      have hb' : (b >>> 8).toNat = readLE data (j + 1) k := by rw [toNat_shiftRight_eight]; omega
      refine AgreeFor.add (Nat.le_add_left 1 k) ?_ (ih ha' hb')
      intro m hm
      rwa [Nat.lt_one_iff.mp hm]
    · rw [if_neg (hlow.not.mpr h)]
      exact agreeFor_zero h

theorem prefixByBytes_agreeFor {data : ByteArray} {earlier later limit n : Nat}
    {h : Stretches data earlier later limit}
    (hn : n ≤ limit) (equal : ∀ k < n, byteAt data (earlier + k) = byteAt data (later + k)) :
    AgreeFor data earlier later limit (prefixByBytes data earlier later limit n h) := by
  fun_induction prefixByBytes data earlier later limit n h with
  | case1 n hlt hl he heq ih =>
    refine ih hlt ?_
    intro k hk
    rcases Nat.lt_succ_iff_lt_or_eq.mp hk with hk | rfl
    · exact equal k hk
    · rw [byteAt_of_lt he, byteAt_of_lt hl, heq]
  | case2 n hlt hl he hne =>
    refine ⟨hn, equal, fun _ => ?_⟩
    rwa [byteAt_of_lt he, byteAt_of_lt hl]
  | case3 n hlt => exact ⟨hn, equal, fun h => absurd h hlt⟩

theorem prefixByWords_agreeFor {data : ByteArray} {earlier later limit n : Nat}
    {h : Stretches data earlier later limit}
    (hn : n ≤ limit) (equal : ∀ k < n, byteAt data (earlier + k) = byteAt data (later + k)) :
    AgreeFor data earlier later limit (prefixByWords data earlier later limit n h) := by
  fun_induction prefixByWords data earlier later limit n h with
  | case1 n hn8 hl he diff hzero ih =>
    have hword : AgreeFor data (earlier + n) (later + n) 8 (zeroBytes 8 diff) :=
      zeroBytes_agreeFor (toNat_longAt he) (toNat_longAt hl)
    rw [hzero] at hword
    have hequal : ∀ k < 8, byteAt data (earlier + n + k) = byteAt data (later + n + k) := hword.equal
    refine ih hn8 ?_
    intro k hk
    by_cases hlt : k < n
    · exact equal k hlt
    · have h8 := hequal (k - n) (by omega)
      rwa [Nat.add_assoc, Nat.add_assoc, Nat.add_sub_cancel' (by omega)] at h8
  | case2 n hn8 hl he diff hne =>
    have hword : AgreeFor data (earlier + n) (later + n) 8 (zeroBytes 8 diff) :=
      zeroBytes_agreeFor (toNat_longAt he) (toNat_longAt hl)
    have hlt : zeroBytes 8 diff < 8 := by
      rcases Nat.lt_or_eq_of_le hword.le with hlt | h8
      · exact hlt
      · rw [h8] at hword
        have hread := readLE_congr hword.equal
        rw [← toNat_longAt he, ← toNat_longAt hl, UInt64.toNat_inj] at hread
        exact absurd (UInt64.xor_eq_zero_iff.mpr hread) hne
    exact AgreeFor.add hn equal (hword.extend hlt (by omega))
  | case3 n hn8 => exact prefixByBytes_agreeFor hn equal

/-- A comparison that stays inside the data gives the number of equal bytes at the start. -/
theorem commonPrefix_agreeFor {data : ByteArray} {earlier later limit : Nat} (he : earlier < later)
    (hl : later + limit ≤ data.size) :
    ∃ n, commonPrefix data earlier later limit = .ok n ∧ AgreeFor data earlier later limit n := by
  rw [commonPrefix, dif_pos ⟨he, hl⟩]
  exact ⟨_, rfl, prefixByWords_agreeFor (Nat.zero_le _) fun _ hk => absurd hk (Nat.not_lt_zero _)⟩

end LempelZiv
