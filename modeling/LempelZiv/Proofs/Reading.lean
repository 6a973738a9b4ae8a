import LempelZiv.Proofs.Digest
import LempelZiv.Proofs.Header
import LempelZiv.Proofs.Records
import LempelZiv.Proofs.Streams

namespace LempelZiv

/-- Of what two pieces end in, the far part of the first does not matter. -/
theorem extract_end_append (a b : ByteArray) (n : Nat) :
    (a.extract (a.size - n) a.size ++ b).extract ((a.extract (a.size - n) a.size ++ b).size - n)
      (a.extract (a.size - n) a.size ++ b).size = (a ++ b).extract ((a ++ b).size - n) (a ++ b).size := by
  have hnear : (a.extract (a.size - n) a.size).size = a.size - (a.size - n) := size_dropBytes a (a.size - n)
  have hcut : a.extract 0 (a.size - n) ++ (a.extract (a.size - n) a.size ++ b) = a ++ b := by
    rw [← ByteArray.append_assoc, extract_append_extract_of_le (Nat.zero_le _) (Nat.sub_le _ _),
      ByteArray.extract_zero_size]
  have hfar : (a.extract 0 (a.size - n)).size = a.size - n := by
    rw [ByteArray.size_extract]
    omega
  have hsize : (a ++ b).size - n = (a.extract 0 (a.size - n)).size +
      ((a.extract (a.size - n) a.size ++ b).size - n) := by
    rw [ByteArray.size_append, ByteArray.size_append, hnear, hfar]
    omega
  have hdrop := dropBytes_append_add (a.extract 0 (a.size - n)) (a.extract (a.size - n) a.size ++ b)
    ((a.extract (a.size - n) a.size ++ b).size - n)
  rw [hcut, ← hsize] at hdrop
  exact hdrop.symm

namespace Reader

variable {φ : Type} {r : Reader φ} {d : Descriptor} {out : ByteArray}

/-- The reader is behind blocks that stand for `out`, in a frame with the header `d`. -/
structure Stands (r : Reader φ) (d : Descriptor) (out : ByteArray) : Prop where
  descriptor_eq : r.descriptor = d
  digest_eq : r.digest = if d.contentChecksum then some ((XXH32.start 0).update out) else none
  produced_eq : r.produced = out.size
  history_eq : r.history = d.history out

theorem Stands.next {pending : ByteArray} {more : ByteArray} (h : r.Stands d out) {r' : Reader φ}
    (hpending : pending = d.history out ++ more) (hdescriptor : r'.descriptor = r.descriptor)
    (hdigest : r'.digest = r.digest.map fun x => x.update more)
    (hproduced : r'.produced = r.produced + more.size)
    (hheld : r'.pending = pending) : r'.Stands d (out ++ more) := by
  refine ⟨hdescriptor.trans h.descriptor_eq, ?_, ?_, ?_⟩
  · rw [hdigest, h.digest_eq]
    cases d.contentChecksum with
    | false => rfl
    | true =>
      rw [XXH32.update_append]
      rfl
  · rw [hproduced, h.produced_eq, ByteArray.size_append]
  · rw [history, hdescriptor, h.descriptor_eq, hheld, hpending, Descriptor.history, Descriptor.history]
    split
    next => rfl
    next => exact extract_end_append out more linkedHistory

theorem checkSize_ok {r₁ : Reader φ} (hle : r₁.source.left ≤ r.source.left)
    (hsize : ∀ n, r₁.descriptor.contentSize = some n → n = r₁.produced) :
    ∃ h, checkContent.checkSize r r₁ hle = .done () { r₁ with phase := .ended } h := by
  rw [checkContent.checkSize]
  split
  next => exact ⟨hle, rfl⟩
  next n hn => exact ⟨hle, if_pos (hsize n hn)⟩

variable [Feed φ]

theorem take_reliable {n : Nat} {a b : ByteArray} (ha : a.size = n) (hs : Feed.Reliable r.source.feed)
    (hrest : r.source.rest = a ++ b) :
    ∃ s h, r.take n = .done a { r with source := s } h ∧ s.rest = b ∧ Feed.Reliable s.feed := by
  subst ha
  obtain ⟨s, h, hok, hb, hs'⟩ := Source.fetch_reliable hs hrest
  rw [take]
  simp only [hok]
  exact ⟨s, Nat.le_of_eq h, rfl, hb, hs'⟩

theorem takeWord_reliable {n : Nat} {b : ByteArray} (hn : n < 2 ^ 32) (hs : Feed.Reliable r.source.feed)
    (hrest : r.source.rest = leBytes 4 n ++ b) :
    ∃ s h, r.takeWord = .done n { r with source := s } h ∧ s.rest = b ∧ Feed.Reliable s.feed := by
  have hword : n < 256 ^ 4 := hn
  obtain ⟨s, h, hok, hb, hs'⟩ := take_reliable (size_leBytes 4 n) hs hrest
  rw [takeWord]
  simp only [hok, readLE_leBytes hword]
  exact ⟨s, h, rfl, hb, hs'⟩

theorem takePayload_reliable {a b : ByteArray} (hs : Feed.Reliable r.source.feed)
    (hrest : r.source.rest =
      a ++ ((if r.descriptor.blockChecksum then leBytes 4 (xxh32 0 a).toNat else ByteArray.empty) ++ b)) :
    ∃ s h, r.takePayload a.size = .done a { r with source := s, block := a } h ∧ s.rest = b ∧ Feed.Reliable s.feed := by
  obtain ⟨s₁, h₁, hok₁, hb₁, hs₁⟩ := take_reliable rfl hs hrest
  rw [takePayload]
  simp only [hok₁]
  cases hsum : r.descriptor.blockChecksum with
  | false =>
    rw [hsum, if_neg Bool.false_ne_true, ByteArray.empty_append] at hb₁
    exact ⟨s₁, Nat.le_trans (Nat.le_add_right _ _) h₁, rfl, hb₁, hs₁⟩
  | true =>
    rw [hsum, if_pos rfl] at hb₁
    obtain ⟨s₂, h₂, hok₂, hb₂, hs₂⟩ :=
      @takeWord_reliable φ { r with source := s₁, block := a } _ _ _ (xxh32 0 a).toNat_lt hs₁ hb₁
    have hleft : s₂.left + 0 ≤ r.source.left :=
      Nat.le_trans (Nat.le_trans (Nat.le_add_right _ _) h₂) (Nat.le_trans (Nat.le_add_right _ _) h₁)
    simp only [if_true, hok₂]
    exact ⟨s₂, hleft, rfl, hb₂, hs₂⟩

theorem nextBlock_record {b : Record} {more tail : ByteArray} (h : r.Stands d out)
    (hs : Feed.Reliable r.source.feed)
    (hrest : r.source.rest = b.bytes d.blockChecksum ++ tail) (hfits : b.Fits d.blockSize.bytes)
    (hadds : b.Adds d.blockSize.bytes (d.history out) more) :
    ∃ r' h', r.nextBlock = .done true r' h' ∧ r'.Stands d (out ++ more) ∧ r'.source.rest = tail ∧
      Feed.Reliable r'.source.feed ∧ r'.phase = .begun ∧ r'.pos = (d.history out).size ∧
      r'.pending = d.history out ++ more := by
  obtain ⟨hlt, hne, hmod, _⟩ := hfits.word_reads
  rw [Record.bytes, ByteArray.append_assoc, ByteArray.append_assoc, ← h.descriptor_eq] at hrest
  obtain ⟨s₁, h₁, hok₁, hrest₁, hs₁⟩ := takeWord_reliable hlt hs hrest
  obtain ⟨s₂, h₂, hok₂, hrest₂, hs₂⟩ := @takePayload_reliable φ { r with source := s₁ } _ _ _ hs₁ hrest₁
  have hbytes : r.descriptor.blockSize.bytes = d.blockSize.bytes := by rw [h.descriptor_eq]
  have hhistory : history { r with source := s₂, block := b.payload } = d.history out := h.history_eq
  have hmost : ¬d.blockSize.bytes < b.payload.size := Nat.not_lt.mpr hfits.payload_le
  rw [nextBlock]
  simp only [hok₁, if_neg hne, hmod, hbytes, if_neg hmost, hok₂, hhistory]
  rw [hadds.decodes hfits]
  have hleft : s₂.left + 4 ≤ r.source.left := by
    have h₂' : s₂.left + 0 ≤ s₁.left := h₂
    have h₁' : s₁.left + 4 ≤ r.source.left := h₁
    omega
  refine ⟨_, hleft, rfl, ?_, hrest₂, hs₂, rfl, rfl, rfl⟩
  refine h.next rfl rfl ?_ rfl rfl
  rw [dropBytes_append]

theorem checkContent_ok {tail : ByteArray} (h : r.Stands d out) (hs : Feed.Reliable r.source.feed)
    (hrest : r.source.rest =
      (if d.contentChecksum then leBytes 4 (xxh32 0 out).toNat else ByteArray.empty) ++ tail)
    (hsize : ∀ n, d.contentSize = some n → n = out.size) :
    ∃ r' h', r.checkContent = .done () r' h' ∧ r'.source.rest = tail ∧ r'.phase = .ended ∧
      r'.pending = r.pending ∧ r'.pos = r.pos ∧ r'.produced = r.produced := by
  rw [← h.descriptor_eq, ← h.produced_eq] at hsize
  have hdigest := h.digest_eq
  rw [checkContent]
  cases hsum : d.contentChecksum with
  | false =>
    rw [hsum, if_neg Bool.false_ne_true] at hdigest
    rw [hsum, if_neg Bool.false_ne_true, ByteArray.empty_append] at hrest
    obtain ⟨h', hok⟩ := checkSize_ok (Nat.le_refl r.source.left) hsize
    simp only [hdigest, hok]
    exact ⟨{ r with phase := .ended, digest := none }, h', rfl, hrest, rfl, rfl, rfl, rfl⟩
  | true =>
    rw [hsum, if_pos rfl] at hdigest hrest
    obtain ⟨s, hle, hok, hs', _⟩ :=
      @takeWord_reliable φ { r with digest := none } _ _ _ (xxh32 0 out).toNat_lt hs hrest
    obtain ⟨h', hsized⟩ := @checkSize_ok φ r { r with digest := none, source := s }
      (Nat.le_trans (Nat.le_add_right _ 4) hle) hsize
    have hsame : (xxh32 0 out).toNat = ((XXH32.start 0).update out).digest.toNat := rfl
    simp only [hdigest, hok, if_pos hsame, hsized]
    exact ⟨_, h', rfl, hs', rfl, rfl, rfl, rfl⟩

/-- What follows the last block ends the frame, and nothing behind it is read. -/
theorem nextBlock_trailer {tail : ByteArray} (h : r.Stands d out) (hs : Feed.Reliable r.source.feed)
    (hrest : r.source.rest = d.trailer out ++ tail) (hsize : ∀ n, d.contentSize = some n → n = out.size) :
    ∃ r' h', r.nextBlock = .done false r' h' ∧ r'.source.rest = tail ∧ r'.phase = .ended ∧
      r'.pending = r.pending ∧ r'.pos = r.pos ∧ r'.produced = r.produced := by
  rw [Descriptor.trailer, ByteArray.append_assoc] at hrest
  obtain ⟨s, hle, hok, hrest', hs'⟩ := takeWord_reliable (by decide) hs hrest
  obtain ⟨r', h', hcheck, hafter⟩ := @checkContent_ok φ { r with source := s } d out _ tail
    ⟨h.descriptor_eq, h.digest_eq, h.produced_eq, h.history_eq⟩ hs' hrest' hsize
  rw [nextBlock]
  simp only [hok, if_true, hcheck]
  have hleft : r'.source.left + 4 ≤ r.source.left := by
    have hs₁ : s.left + 4 ≤ r.source.left := hle
    have hr' : r'.source.left + 0 ≤ s.left := h'
    omega
  exact ⟨r', hleft, rfl, hafter⟩

end Reader

end LempelZiv
