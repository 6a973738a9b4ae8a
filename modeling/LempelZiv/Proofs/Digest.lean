import LempelZiv.Checksum
import LempelZiv.Proofs.Bytes

namespace LempelZiv.XXH32

theorem updateFrom_append_right (s : XXH32) (a b : ByteArray) (i : Nat) :
    s.updateFrom (a ++ b) (a.size + i) = s.updateFrom b i := by
  induction hn : b.size - i generalizing s i with
  | zero => rw [updateFrom, dif_neg (by rw [ByteArray.size_append]; omega), updateFrom, dif_neg (by omega)]
  | succ n ih =>
    have hi : i < b.size := by omega
    have hsum : a.size + i < (a ++ b).size := by
      rw [ByteArray.size_append]
      omega
    have hbyte := byteAt_append_right a b i
    rw [byteAt_of_lt hsum, byteAt_of_lt hi] at hbyte
    rw [updateFrom, dif_pos hsum, hbyte, Nat.add_assoc, ih (s.push b[i]) (i + 1) (by omega),
      updateFrom.eq_1 s b i,
      dif_pos hi]

theorem updateFrom_append_left (s : XXH32) {a : ByteArray} (b : ByteArray) {i : Nat} (hi : i ≤ a.size) :
    s.updateFrom (a ++ b) i = (s.updateFrom a i).updateFrom (a ++ b) a.size := by
  induction hn : a.size - i generalizing s i with
  | zero =>
    have he : i = a.size := by omega
    rw [he, updateFrom.eq_1 s a, dif_neg (Nat.lt_irrefl _)]
  | succ n ih =>
    have hlt : i < a.size := by omega
    have hsum : i < (a ++ b).size := by
      rw [ByteArray.size_append]
      omega
    rw [updateFrom, dif_pos hsum, ByteArray.getElem_append_left hlt, ih (s.push a[i]) hlt (by omega),
      updateFrom.eq_1 s a, dif_pos hlt]

/-- A digest does not depend on the pieces that its bytes come in. -/
theorem update_append (s : XXH32) (a b : ByteArray) : s.update (a ++ b) = (s.update a).update b := by
  rw [update, updateFrom_append_left s b (Nat.zero_le _), update, update]
  exact updateFrom_append_right _ a b 0

theorem update_empty (s : XXH32) : s.update ByteArray.empty = s := by
  rw [update, updateFrom]
  exact dif_neg (Nat.lt_irrefl 0)

end LempelZiv.XXH32
