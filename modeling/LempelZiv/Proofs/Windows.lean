import LempelZiv.Proofs.BlockRoundTrip
import LempelZiv.Proofs.SinkViews

namespace LempelZiv

theorem set_eq_append {src : ByteArray} {i : Nat} (b : UInt8) (h : i < src.size) :
    src.set i b h = src.extract 0 i ++ [b].toByteArray ++ dropBytes src (i + 1) := by
  have hlist : i < src.data.toList.length := h
  have hrest : (src.data.toList.drop (i + 1)).take (src.size - (i + 1)) = src.data.toList.drop (i + 1) :=
    List.take_of_length_le (by rw [List.length_drop, Array.length_toList]; exact Nat.le_refl _)
  apply ByteArray.ext
  apply Array.ext'
  simp only [ByteArray.set, dropBytes, ByteArray.data_append, ByteArray.data_extract, Array.toList_append,
    Array.toList_set, Array.toList_extract]
  rw [List.set_eq_take_append_cons_drop, if_pos hlist]
  simp [List.extract_eq_take_drop, hrest]

namespace Window

variable {buffer written : ByteArray}

/-- The window over `buffer` with `written` at its front, if there is room for it. -/
def onto (buffer written : ByteArray) : Except Fault Window :=
  if written.size ≤ buffer.size then .ok ⟨written ++ dropBytes buffer written.size, written.size⟩
  else .error .outOfRange

theorem onto_empty (buffer : ByteArray) : onto buffer ByteArray.empty = .ok ⟨buffer, 0⟩ := by
  rw [onto, ByteArray.size_empty, if_pos (Nat.zero_le _), dropBytes_zero, ByteArray.empty_append]

theorem size_written_append (h : written.size ≤ buffer.size) :
    (written ++ dropBytes buffer written.size).size = buffer.size := by
  rw [ByteArray.size_append, size_dropBytes, Nat.add_sub_cancel' h]

/-- What stands behind the next `n` bytes of the window has not been touched. -/
theorem dropBytes_behind (n : Nat) (h : written.size ≤ buffer.size) :
    dropBytes (written ++ dropBytes buffer written.size) (written.size + n) =
      dropBytes buffer (written.size + n) := by
  rw [dropBytes_append_add, dropBytes_dropBytes _ h]

theorem onto_push (b : UInt8) : onto buffer (written.push b) = onto buffer written >>= (LempelZiv.put · b) := by
  have hsize : (written.push b).size = written.size + 1 := ByteArray.size_push
  by_cases hle : written.size ≤ buffer.size
  case neg =>
    rw [onto, onto, if_neg (by omega), if_neg hle]
    rfl
  rw [onto, onto, if_pos hle, hsize]
  change _ = Window.put ⟨written ++ dropBytes buffer written.size, written.size⟩ b
  rw [Window.put]
  by_cases hlt : written.size < buffer.size
  · have hset : written.size < (written ++ dropBytes buffer written.size).size := by rwa [size_written_append hle]
    rw [if_pos (Nat.succ_le_of_lt hlt), dif_pos hset, set_eq_append, ByteArray.extract_append_eq_left rfl,
      dropBytes_behind 1 hle, ByteArray.append_toByteArray_singleton]
  · rw [if_neg (Nat.not_le.mpr (Nat.lt_succ_of_le (Nat.le_of_not_lt hlt))),
      dif_neg (by rwa [size_written_append hle])]

theorem onto_append (bytes : ByteArray) :
    onto buffer (written ++ bytes) = onto buffer written >>= (LempelZiv.putAll · bytes) := by
  have hsize : (written ++ bytes).size = written.size + bytes.size := ByteArray.size_append
  by_cases hle : written.size ≤ buffer.size
  case neg =>
    rw [onto, onto, if_neg (by omega), if_neg hle]
    rfl
  rw [onto, onto, if_pos hle, hsize]
  change _ = Window.putAll ⟨written ++ dropBytes buffer written.size, written.size⟩ bytes
  rw [Window.putAll, size_written_append hle]
  by_cases hfits : written.size + bytes.size ≤ buffer.size
  · have hall : bytes.extract 0 (0 + bytes.size) = bytes := by rw [Nat.zero_add, ByteArray.extract_zero_size]
    have hcount : min bytes.size (bytes.data.size - 0) = bytes.size := Nat.min_self _
    have hcopy : bytes.copySlice 0 (written ++ dropBytes buffer written.size) written.size bytes.size =
        written ++ bytes ++ dropBytes buffer (written.size + bytes.size) := by
      rw [← dropBytes_behind bytes.size hle, ByteArray.copySlice_eq_append, ByteArray.extract_append_eq_left rfl,
        hall, hcount]
      rfl
    rw [if_pos hfits, if_pos hfits, hcopy]
  · rw [if_neg hfits, if_neg hfits]

/-- Bytes that grow without end, seen as a window over `buffer`. -/
def view (buffer : ByteArray) : SinkView ByteArray Window where
  see := onto buffer
  put_see _ b := ⟨_, rfl, onto_push b⟩
  putAll_see _ bytes := ⟨_, rfl, onto_append bytes⟩

/-- A whole block goes into a window just where there is room for it. -/
theorem writeClosed_eq (f : Factorization) (buffer : ByteArray) :
    f.writeClosed (⟨buffer, 0⟩ : Window) = onto buffer (Parse.bytes ⟨f.sequences.toList, f.tail, 0, by decide⟩) := by
  obtain ⟨packed, hpacked, hsee⟩ := (view buffer).shows_writeClosed f ByteArray.empty
  rw [Factorization.writeClosed_eq, ByteArray.empty_append] at hpacked
  cases hpacked
  change onto buffer _ = onto buffer ByteArray.empty >>= f.writeClosed at hsee
  rw [hsee, onto_empty]
  rfl

end Window

end LempelZiv
