import LempelZiv.Proofs.Decoding

namespace LempelZiv

theorem push_append (far near : ByteArray) (b : UInt8) : (far ++ near).push b = far ++ near.push b := by
  simp only [← ByteArray.append_toByteArray_singleton, ByteArray.append_assoc]

theorem copyBack_behind (far : ByteArray) {near : ByteArray} {offset : Nat} (n : Nat)
    (ho : offset ≤ near.size) : copyBack (far ++ near) offset n = far ++ copyBack near offset n := by
  induction n generalizing near with
  | zero => rfl
  | succ n ih =>
    have hsize : (far ++ near).size - offset = far.size + (near.size - offset) := by
      rw [ByteArray.size_append]
      omega
    have hpush : offset ≤ (near.push (byteAt near (near.size - offset))).size := by
      rw [ByteArray.size_push]
      omega
    unfold copyBack
    rw [hsize, byteAt_append_right, push_append]
    exact ih hpush

namespace Decoding

variable {src far out : ByteArray} {start limit ip token : Nat}

theorem reserve_behind (n : Nat) :
    reserve ⟨src, far.size + start, limit⟩ (far ++ out) n = reserve ⟨src, start, limit⟩ out n := by
  have hadded : (far ++ out).size - (far.size + start) = out.size - start := by
    rw [ByteArray.size_append]
    omega
  simp only [reserve, hadded]

theorem literals_behind : literals ⟨src, far.size + start, limit⟩ (far ++ out) ip token =
    literals ⟨src, start, limit⟩ out ip token := by
  simp only [literals, reserve_behind]

/-- No match reaches further back than the largest offset. -/
theorem backReference_behind (hreach : maxDistance ≤ out.size) :
    backReference ⟨src, far.size + start, limit⟩ (far ++ out) ip token =
      backReference ⟨src, start, limit⟩ out ip token := by
  have hoffset : readLE src ip 2 ≤ maxDistance := by
    have hlt := readLE_lt src ip 2
    rw [maxDistance]
    omega
  have hnear : ¬out.size < readLE src ip 2 := by omega
  have hfar : ¬(far ++ out).size < readLE src ip 2 := by
    rw [ByteArray.size_append]
    omega
  have hadded : (far ++ out).size - (far.size + start) = out.size - start := by
    rw [ByteArray.size_append]
    omega
  simp only [backReference, hnear, hfar, hadded, reserve_behind]

theorem run_behind (hreach : maxDistance ≤ out.size) :
    run ⟨src, far.size + start, limit⟩ ip (far ++ out) =
      ((run ⟨src, start, limit⟩ ip out).1, far ++ (run ⟨src, start, limit⟩ ip out).2) := by
  induction hn : src.size - ip using Nat.strongRecOn generalizing ip out with
  | ind n ih =>
    rw [run, run.eq_1 ⟨src, start, limit⟩]
    by_cases hip : ip < src.size
    case neg => simp only [dif_neg hip]
    simp only [dif_pos hip, literals_behind]
    rcases literals ⟨src, start, limit⟩ out (ip + 1) src[ip].toNat with e | ⟨n, used⟩
    · rfl
    dsimp only
    have hmore : maxDistance ≤ (out ++ src.extract (ip + 1 + used) (ip + 1 + used + n)).size := by
      rw [ByteArray.size_append]
      omega
    rw [ByteArray.append_assoc]
    by_cases hlast : ip + 1 + used + n = src.size
    · simp only [if_pos hlast]
    simp only [if_neg hlast, backReference_behind hmore]
    rcases hback : backReference ⟨src, start, limit⟩
      (out ++ src.extract (ip + 1 + used) (ip + 1 + used + n)) (ip + 1 + used + n) src[ip].toNat with
      e | ⟨offset, length, more⟩
    · rfl
    dsimp only
    have hoffset := (backReference_eq_ok_iff.mp hback).1.2.2.2
    have hcopied : maxDistance ≤ (copyBack (out ++ src.extract (ip + 1 + used) (ip + 1 + used + n))
        offset length).size := by
      rw [size_copyBack]
      omega
    rw [copyBack_behind far length hoffset]
    exact ih (src.size - (ip + 1 + used + n + 2 + more)) (by omega) hcopied rfl

end Decoding

/-- A history of the largest offset's size is as good as any longer one: a block behind it decodes to the
same bytes, or fails with the same error. -/
theorem decompressInto_behind {src near : ByteArray} {limit : Nat} (far : ByteArray)
    (hreach : maxDistance ≤ near.size) : decompressInto src (far ++ near) limit =
      ((decompressInto src near limit).1, far ++ (decompressInto src near limit).2) := by
  by_cases hsrc : src.isEmpty
  case pos => simp only [decompressInto, if_pos hsrc]
  have hrun : Decoding.run ⟨src, (far ++ near).size, limit⟩ 0 (far ++ near) =
      ((Decoding.run ⟨src, near.size, limit⟩ 0 near).1,
        far ++ (Decoding.run ⟨src, near.size, limit⟩ 0 near).2) := by
    rw [ByteArray.size_append]
    exact Decoding.run_behind hreach
  simp only [decompressInto, if_neg hsrc, hrun]
  rcases Decoding.run ⟨src, near.size, limit⟩ 0 near with ⟨e | u, out⟩
  · have hcut : (far ++ out).extract 0 (far ++ near).size = far ++ out.extract 0 near.size := by
      rw [ByteArray.size_append, ← extract_append_extract_of_le (Nat.zero_le far.size) (Nat.le_add_right _ _),
        ByteArray.extract_append_eq_left rfl]
      exact congrArg (far ++ ·) (ByteArray.extract_append_size_add (i := 0))
    simp only [hcut]
  · have hadded : (far ++ out).size - (far ++ near).size = out.size - near.size := by
      simp only [ByteArray.size_append]
      omega
    simp only [hadded]

end LempelZiv
