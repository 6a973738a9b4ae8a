import LempelZiv.Sequence
import LempelZiv.Proofs.Bytes

namespace LempelZiv

/-- Behind `before` stand `length` more bytes, each the one `offset` bytes before it; where the match
is longer than its offset, the last `offset` bytes repeat. -/
structure Repeats (before : ByteArray) (offset length : Nat) (after : ByteArray) : Prop where
  size_eq : after.size = before.size + length
  before_eq : after.extract 0 before.size = before
  periodic : ∀ i < length, byteAt after (before.size + i) =
    byteAt before (before.size - offset + i % offset)

theorem copyBack_append (out : ByteArray) (offset n : Nat) :
    ∃ more, copyBack out offset n = out ++ more ∧ more.size = n := by
  induction n generalizing out with
  | zero => exact ⟨ByteArray.empty, by simp [copyBack]⟩
  | succ n ih =>
    obtain ⟨more, hm, hs⟩ := ih (out.push (byteAt out (out.size - offset)))
    refine ⟨[byteAt out (out.size - offset)].toByteArray ++ more, ?_, ?_⟩
    · rw [copyBack, hm, ← ByteArray.append_assoc, ByteArray.append_toByteArray_singleton]
    · rw [ByteArray.size_append, List.size_toByteArray, hs, List.length_singleton, Nat.add_comm]

theorem byteAt_copyBack_of_lt {out : ByteArray} {i : Nat} (offset n : Nat) (h : i < out.size) :
    byteAt (copyBack out offset n) i = byteAt out i := by
  obtain ⟨more, hm, _⟩ := copyBack_append out offset n
  rw [hm, byteAt_append_left more h]

theorem byteAt_push_size (out : ByteArray) (b : UInt8) : byteAt (out.push b) out.size = b := by
  have h := byteAt_append_right out [b].toByteArray 0
  rw [ByteArray.append_toByteArray_singleton, Nat.add_zero] at h
  rw [h, byteAt_of_lt (by simp)]
  simp

theorem byteAt_copyBack {out : ByteArray} {offset n i : Nat} (hpos : 0 < offset) (ho : offset ≤ out.size)
    (hi : i < n) : byteAt (copyBack out offset n) (out.size + i) =
      byteAt (copyBack out offset n) (out.size + i - offset) := by
  induction n generalizing out i with
  | zero => omega
  | succ n ih =>
    have hs : (out.push (byteAt out (out.size - offset))).size = out.size + 1 := ByteArray.size_push
    rw [copyBack]
    cases i with
    | zero =>
      have hb := byteAt_append_left [byteAt out (out.size - offset)].toByteArray
        (by omega : out.size - offset < out.size)
      rw [ByteArray.append_toByteArray_singleton] at hb
      rw [byteAt_copyBack_of_lt _ _ (by omega), byteAt_copyBack_of_lt _ _ (by omega), Nat.add_zero,
        byteAt_push_size, hb]
    | succ i =>
      have h := @ih (out.push (byteAt out (out.size - offset))) i (by omega) (by omega)
      rwa [hs, show out.size + 1 + i = out.size + (i + 1) by omega] at h

theorem copyBack_repeats {out : ByteArray} {offset : Nat} (n : Nat) (hpos : 0 < offset)
    (ho : offset ≤ out.size) :
    Repeats out offset n (copyBack out offset n) := by
  refine ⟨size_copyBack out offset n, ?_, ?_⟩
  · obtain ⟨more, hm, _⟩ := copyBack_append out offset n
    rw [hm, ByteArray.extract_append_eq_left rfl]
  · intro i hi
    induction i using Nat.strongRecOn with
    | ind i ih =>
      rw [byteAt_copyBack hpos ho hi]
      by_cases hlt : i < offset
      · rw [byteAt_copyBack_of_lt _ _ (by omega), Nat.mod_eq_of_lt hlt,
          show out.size + i - offset = out.size - offset + i by omega]
      · rw [show out.size + i - offset = out.size + (i - offset) by omega,
          ih (i - offset) (by omega) (by omega),
          Nat.mod_eq_sub_mod (by omega : offset ≤ i)]

/-- A match whose bytes agree with the bytes at `pos` leads from the first `pos` bytes to more of them. -/
theorem copyBack_extract {src : ByteArray} {offset pos n : Nat} (ho : offset ≤ pos)
    (hn : pos + n ≤ src.size)
    (agree : ∀ i < n, byteAt src (pos - offset + i) = byteAt src (pos + i)) (hpos : 0 < offset) :
    copyBack (src.extract 0 pos) offset n = src.extract 0 (pos + n) := by
  induction n generalizing pos with
  | zero => rfl
  | succ n ih =>
    have hs : (src.extract 0 pos).size = pos := by rw [ByteArray.size_extract]; omega
    have hb : byteAt (src.extract 0 pos) (pos - offset) = byteAt src pos := by
      have h0 := agree 0 (by omega)
      rw [Nat.add_zero, Nat.add_zero] at h0
      rw [byteAt_extract (by omega), Nat.zero_add, h0]
    rw [copyBack, hs, hb, ← extract_succ (by omega) (by omega), ih (by omega) (by omega),
      Nat.add_assoc, Nat.add_comm 1 n]
    intro i hi
    have h := agree (i + 1) (by omega)
    rwa [show pos - offset + (i + 1) = pos + 1 - offset + i by omega,
      show pos + (i + 1) = pos + 1 + i by omega] at h

end LempelZiv
