import LempelZiv.Proofs.BlockLimits
import LempelZiv.Proofs.Requests

namespace LempelZiv

theorem size_resize (src : ByteArray) (n : Nat) : (resize src n).size = n := by
  have hzeros : (⟨Array.replicate (n - src.size) 0⟩ : ByteArray).size = n - src.size := Array.size_replicate
  rw [resize, ByteArray.size_append, ByteArray.size_extract, hzeros]
  omega

namespace Descriptor

theorem ofCode_error {code : Nat} {e : Error} (h : BlockSize.ofCode code = .error e) : e.isFault = false := by
  unfold BlockSize.ofCode at h
  split at h <;> cases h
  rfl

theorem restLength_error {start : ByteArray} {e : Error} (h : restLength start = .error e) : e.isFault = false := by
  unfold restLength at h
  simp only [bind_eq_error_iff, check_eq_error_iff] at h
  rcases h with ⟨_, rfl⟩ | ⟨_, ⟨_, rfl⟩ | ⟨_, ⟨_, rfl⟩ | ⟨_, ⟨_, rfl⟩ | ⟨_, h | ⟨_, _, h⟩⟩⟩⟩⟩
  · rfl
  · rfl
  · rfl
  · rfl
  · exact ofCode_error h
  · cases h

theorem ofHeader_error {start rest : ByteArray} {e : Error} (h : ofHeader start rest = .error e) :
    e.isFault = false := by
  unfold ofHeader at h
  simp only [bind_eq_error_iff, check_eq_error_iff] at h
  rcases h with h | ⟨_, _, ⟨_, rfl⟩ | ⟨_, h | ⟨_, _, h⟩⟩⟩
  · exact restLength_error h
  · rfl
  · exact ofCode_error h
  · cases h

end Descriptor

namespace Reader

variable {φ : Type}

variable {r next : Reader φ} {e : Error}

theorem checkSize_failed {r₁ : Reader φ} {hle : r₁.source.left ≤ r.source.left}
    {h : next.source.left ≤ r.source.left} (hfailed : checkContent.checkSize r r₁ hle = .failed e next h) :
    e.isFault = false ∧ next = r₁ := by
  unfold checkContent.checkSize at hfailed
  split at hfailed
  next => cases hfailed
  next =>
    split at hfailed
    next => cases hfailed
    next =>
      cases hfailed
      exact ⟨rfl, rfl⟩

variable [Feed φ]

theorem take_error {n : Nat} {h : next.source.left ≤ r.source.left} (hfailed : r.take n = .failed e next h) :
    e.isFault = false := by
  unfold take at hfailed
  split at hfailed
  next => cases hfailed
  next e' _ _ _ =>
    cases hfailed
    unfold streamError
    split <;> rfl

theorem readHeader_error {h : next.source.left ≤ r.source.left} (hfailed : r.readHeader = .failed e next h) :
    e.isFault = false := by
  unfold readHeader at hfailed
  split at hfailed
  next htake =>
    cases hfailed
    exact take_error htake
  next =>
    split at hfailed
    next hrest =>
      cases hfailed
      exact Descriptor.restLength_error hrest
    next =>
      split at hfailed
      next htake =>
        cases hfailed
        exact take_error htake
      next =>
        split at hfailed
        next hheader =>
          cases hfailed
          exact Descriptor.ofHeader_error hheader
        next => cases hfailed

theorem takeWord_failed {h : next.source.left ≤ r.source.left} (hfailed : r.takeWord = .failed e next h) :
    e.isFault = false ∧ ∃ s, next = { r with source := s } := by
  unfold takeWord at hfailed
  split at hfailed
  next => cases hfailed
  next htake =>
    cases hfailed
    exact ⟨take_error htake, take_failed htake⟩

theorem takePayload_failed {n : Nat} {h : next.source.left ≤ r.source.left}
    (hfailed : r.takePayload n = .failed e next h) :
    e.isFault = false ∧ ∃ s block, block.size = n ∧ next = { r with source := s, block := block } := by
  unfold takePayload at hfailed
  split at hfailed
  next htake =>
    cases hfailed
    obtain ⟨s, rfl⟩ := take_failed htake
    exact ⟨take_error htake, s, _, size_resize _ _, rfl⟩
  next payload _ _ htake =>
    obtain ⟨s, rfl, hsize, _⟩ := take_done htake
    split at hfailed
    next =>
      split at hfailed
      next hword =>
        cases hfailed
        obtain ⟨hfault, s', rfl⟩ := takeWord_failed hword
        exact ⟨hfault, s', payload, hsize, rfl⟩
      next hword =>
        obtain ⟨s', rfl, _⟩ := takeWord_done hword
        simp only at hfailed
        split at hfailed
        next => cases hfailed
        next =>
          cases hfailed
          exact ⟨rfl, s', payload, hsize, rfl⟩
    next => cases hfailed

theorem checkContent_failed {h : next.source.left ≤ r.source.left} (hfailed : r.checkContent = .failed e next h) :
    e.isFault = false ∧ ∃ s digest, next = { r with source := s, digest := digest } := by
  unfold checkContent at hfailed
  split at hfailed
  next =>
    obtain ⟨hfault, rfl⟩ := checkSize_failed hfailed
    exact ⟨hfault, next.source, next.digest, rfl⟩
  next =>
    split at hfailed
    next hword =>
      cases hfailed
      obtain ⟨hfault, s, rfl⟩ := takeWord_failed hword
      exact ⟨hfault, s, none, rfl⟩
    next hword =>
      obtain ⟨s, rfl, _⟩ := takeWord_done hword
      split at hfailed
      next =>
        obtain ⟨hfault, rfl⟩ := checkSize_failed hfailed
        exact ⟨hfault, s, none, rfl⟩
      next =>
        cases hfailed
        exact ⟨rfl, s, none, rfl⟩

/-- A block that is read has no more than the most bytes that the header allows, before it is decoded and after,
and each byte of it stands for 255 at the most. -/
theorem nextBlock_block {h : next.source.left + 4 ≤ r.source.left} (hdone : r.nextBlock = .done true next h) :
    ∃ s block digest notices more, block.size ≤ r.descriptor.blockSize.bytes ∧
      more.size ≤ r.descriptor.blockSize.bytes ∧ more.size + 255 * s.left ≤ 255 * r.source.left ∧
      next = { r with
        source := s
        phase := .begun
        block := block
        digest := digest
        notices := notices
        pending := r.history ++ more
        pos := r.history.size
        produced := r.produced + more.size } := by
  have hread := r.nextBlock_read
  rw [hdone] at hread
  cases hread with
  | @block s word count payload pending _ _ _ hsize hmost hrest hdecoded =>
    have hleft := congrArg ByteArray.size hrest
    simp only [ByteArray.size_append, Source.size_rest, size_leBytes] at hleft
    rw [← hsize] at hmost
    have hadds : ∃ more, pending = r.history ++ more ∧ more.size = count ∧
        count ≤ r.descriptor.blockSize.bytes ∧ count ≤ 255 * payload.size := by
      split at hdecoded
      next =>
        cases hdecoded
        exact ⟨payload, rfl, rfl, hmost, Nat.le_mul_of_pos_left _ (by decide)⟩
      next => exact decompressInto_ok_le hdecoded
    obtain ⟨more, rfl, rfl, hfits, hstands⟩ := hadds
    exact ⟨s, payload, _, _, more, hmost, hfits, by omega, rfl⟩

theorem nextBlock_end {h : next.source.left + 4 ≤ r.source.left} (hdone : r.nextBlock = .done false next h) :
    ∃ s digest, next = { r with source := s, digest := digest, phase := .ended } := by
  have hread := r.nextBlock_read
  rw [hdone] at hread
  cases hread with
  | end_done _ hcheck =>
    obtain ⟨s, digest, rfl⟩ := checkContent_at_end hcheck
    exact ⟨s, digest, rfl⟩

/-- A block that is not read leaves what is decoded as it was, or cuts it down to the history. -/
theorem nextBlock_failed {h : next.source.left ≤ r.source.left} (hfailed : r.nextBlock = .failed e next h) :
    e.isFault = false ∧ ∃ s block digest pending pos,
      next = { r with source := s, block := block, digest := digest, pending := pending, pos := pos } ∧
      (block = r.block ∨ block.size ≤ r.descriptor.blockSize.bytes) ∧
      (pending = r.pending ∧ pos = r.pos ∨ pending = r.history ∧ pos = r.history.size) := by
  have hread := r.nextBlock_read
  rw [hfailed] at hread
  cases hread with
  | no_word hword =>
    obtain ⟨hfault, s, rfl⟩ := takeWord_failed hword
    exact ⟨hfault, s, _, _, _, _, rfl, .inl rfl, .inl ⟨rfl, rfl⟩⟩
  | end_failed hcheck =>
    obtain ⟨hfault, s, digest, rfl⟩ := checkContent_failed hcheck
    exact ⟨hfault, s, _, digest, _, _, rfl, .inl rfl, .inl ⟨rfl, rfl⟩⟩
  | oversized => exact ⟨rfl, _, _, _, _, _, rfl, .inl rfl, .inl ⟨rfl, rfl⟩⟩
  | no_payload hmost hpayload =>
    obtain ⟨hfault, s, block, hsize, rfl⟩ := takePayload_failed hpayload
    exact ⟨hfault, s, block, _, _, _, rfl, .inr (hsize ▸ hmost), .inl ⟨rfl, rfl⟩⟩
  | @no_block s payload pending _ _ hmost hdecoded =>
    have hlimit := r.descriptor.blockSize.bytes_le
    rw [maxBlockSize] at hlimit
    obtain ⟨hrefuses, rfl⟩ := decompressInto_error (by omega) hdecoded
    exact ⟨hrefuses.isFault, s, payload, _, _, _, rfl, .inr hmost, .inr ⟨rfl, rfl⟩⟩

end Reader

end LempelZiv
