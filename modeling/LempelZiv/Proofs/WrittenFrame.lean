import Mathlib.Data.List.Forall2
import LempelZiv.Proofs.FrameRoundTrip
import LempelZiv.Proofs.Pieces
import LempelZiv.Proofs.Uses

namespace LempelZiv

/-- How a piece of the content is written: packed, if it is long enough and that makes it shorter. -/
inductive FrameOptions.Writes (o : FrameOptions) (piece : ByteArray) : Record → Prop
  | packed {payload : ByteArray} (long : minBlockSize ≤ piece.size)
      (packs : packChunk piece o.block = .ok payload) (shorter : payload.size < piece.size) :
      Writes o piece ⟨false, payload⟩
  | small (short : piece.size < minBlockSize) : Writes o piece ⟨true, piece⟩
  | bulky {payload : ByteArray} (packs : packChunk piece o.block = .ok payload)
      (no_shorter : piece.size ≤ payload.size) : Writes o piece ⟨true, piece⟩

namespace FrameOptions

theorem record_of_parts {o : FrameOptions} {piece : ByteArray} {b : Record} (hlt : b.payload.size < storedFlag)
    (h : Writer.blockParts o.block piece = .ok (b.word, b.payload)) : o.record piece = b := by
  obtain ⟨stored, payload⟩ := b
  have hflag : ¬storedFlag ≤ payload.size := Nat.not_le.mpr hlt
  cases stored with
  | false =>
    have hparts : Writer.blockParts o.block piece = .ok (payload.size, payload) := h
    simp [record, hparts, hflag]
  | true =>
    have hparts : Writer.blockParts o.block piece = .ok (payload.size + storedFlag, payload) := h
    simp [record, hparts]

theorem record_writes (o : FrameOptions) {piece : ByteArray} (hle : piece.size ≤ o.blockSize.bytes) :
    o.Writes piece (o.record piece) := by
  have hmost := o.blockSize.bytes_le
  have hflag : maxBlockSize < storedFlag := by decide
  have hword : maxBlockSize < 2 ^ 32 := by decide
  by_cases hmin : minBlockSize ≤ piece.size
  case neg =>
    have hparts : Writer.blockParts o.block piece = .ok (piece.size + storedFlag, piece) := by
      rw [Writer.blockParts, if_neg hmin]
    have hrecord : o.record piece = ⟨true, piece⟩ := record_of_parts (by simp; omega) hparts
    rw [hrecord]
    exact .small (Nat.lt_of_not_le hmin)
  obtain ⟨packed, hlift, _⟩ := packChunk_roundTrips o.block (by omega : piece.size < 2 ^ 32)
  have hpack := lift_eq_ok_iff.mp hlift
  by_cases hshort : packed.size < piece.size
  · have hparts : Writer.blockParts o.block piece = .ok (packed.size, packed) := by
      rw [Writer.blockParts, if_pos hmin, hpack]
      exact if_pos hshort
    have hrecord : o.record piece = ⟨false, packed⟩ := record_of_parts (by simp; omega) hparts
    rw [hrecord]
    exact .packed hmin hpack hshort
  · have hparts : Writer.blockParts o.block piece = .ok (piece.size + storedFlag, piece) := by
      rw [Writer.blockParts, if_pos hmin, hpack]
      exact if_neg hshort
    have hrecord : o.record piece = ⟨true, piece⟩ := record_of_parts (by simp; omega) hparts
    rw [hrecord]
    exact .bulky hpack (Nat.le_of_not_lt hshort)

/-- The pieces of the data between the flushes of some calls. -/
def piecesOf (o : FrameOptions) (data : ByteArray) (points : List Nat) : List ByteArray :=
  (cutAt data 0 points).flatMap (pieces o.blockSize.bytes)

variable {o : FrameOptions} {calls : List Call} {data : ByteArray}

theorem gathered_pieces (hdata : joined (calls.map Call.data) = data) :
    (Gathered.after o.blockSize.bytes calls).flushed.blocks = o.piecesOf data (flushPoints 0 calls) := by
  have hpos := o.blockSize.bytes_pos
  have hblocks := Gathered.foldl_step_pieces (Gathered.nothing_sized hpos) calls
  have hcut := stretches_eq_cutAt ByteArray.empty ByteArray.empty calls
  simp only [ByteArray.empty_append, ByteArray.size_empty, Nat.add_zero, hdata] at hcut
  rw [Gathered.after, hblocks, Gathered.nothing, List.nil_append, hcut, piecesOf]

theorem pieces_written (o : FrameOptions) (hdata : joined (calls.map Call.data) = data) :
    List.Forall₂ o.Writes (o.piecesOf data (flushPoints 0 calls))
      ((o.piecesOf data (flushPoints 0 calls)).map o.record) := by
  have hsized := Gathered.flushed_sized (Gathered.after_sized o.blockSize.bytes_pos calls)
  refine List.forall₂_map_right_iff.mpr (List.forall₂_same.mpr ?_)
  intro piece hpiece
  rw [← gathered_pieces hdata] at hpiece
  exact o.record_writes (hsized.blocks piece hpiece).2

end FrameOptions

theorem Writer.close_written {δ : Type} [Device δ] {o : FrameOptions} {sink : Sink δ} {calls : List Call}
    {data : ByteArray} (hdevice : Device.Reliable sink.device) (hdata : joined (calls.map Call.data) = data)
    (hsize : ∀ n, o.contentSize = some n → n = data.size) :
    ∃ w, ((Writer.new sink o).performAll calls).andThen Writer.close = (.ok (), w) ∧
      w.sink.held = sink.held ++ o.frame (o.piecesOf data (flushPoints 0 calls)) := by
  have hpos := o.blockSize.bytes_pos
  have hcontent := (Gathered.after_content hpos calls).trans hdata
  obtain ⟨w₁, hperformed, hholds⟩ :=
    performAll_holds calls (new_holds hdevice o) (Gathered.nothing_sized hpos)
  obtain ⟨w, hclosed, hheld⟩ := close_holds hholds (Gathered.after_sized hpos calls) (by
    rw [← Gathered.after, hcontent]
    exact hsize)
  refine ⟨w, ?_, ?_⟩
  · rw [hperformed, Outcome.andThen_ok, hclosed]
  · rw [hheld, ← Gathered.after, FrameOptions.gathered_pieces hdata]

/-- What a writer writes depends on the data and on where it was flushed, and not on the calls: the header,
each piece between the flushes as it is written, and the trailer. -/
theorem frame_of_data_and_flushes (o : FrameOptions) (calls : List Call) (data : ByteArray)
    (hdata : joined (calls.map Call.data) = data) (hsize : ∀ n, o.contentSize = some n → n = data.size) :
    ∃ records frame,
      List.Forall₂ o.Writes
        ((cutAt data 0 (flushPoints 0 calls)).flatMap (pieces o.blockSize.bytes)) records ∧
      frame = o.descriptor.header ++ (recordsBytes o.blockChecksum records ++ (leBytes 4 0 ++
        if o.contentChecksum then leBytes 4 (xxh32 0 data).toNat else ByteArray.empty)) ∧
      (∀ {δ : Type} [Device δ] (sink : Sink δ) (calls' : List Call), Device.Reliable sink.device →
        joined (calls'.map Call.data) = data → (∀ p, p ∈ flushPoints 0 calls' ↔ p ∈ flushPoints 0 calls) →
        ∃ w, ((Writer.new sink o).performAll calls').andThen Writer.close = (.ok (), w) ∧
          w.sink.held = sink.held ++ frame) ∧
      (flushPoints 0 calls = [] → compressFrame data o = .ok frame) := by
  have hjoined : joined (o.piecesOf data (flushPoints 0 calls)) = data := by
    rw [← FrameOptions.gathered_pieces hdata, Gathered.joined_flushed]
    exact (Gathered.after_content o.blockSize.bytes_pos calls).trans hdata
  have hwritten : ∀ {δ : Type} [Device δ] (sink : Sink δ) (calls' : List Call), Device.Reliable sink.device →
      joined (calls'.map Call.data) = data → (∀ p, p ∈ flushPoints 0 calls' ↔ p ∈ flushPoints 0 calls) →
      ∃ w, ((Writer.new sink o).performAll calls').andThen Writer.close = (.ok (), w) ∧
        w.sink.held = sink.held ++ o.frame (o.piecesOf data (flushPoints 0 calls)) := by
    intro δ _ sink calls' hdevice hdata' hpoints
    obtain ⟨w, hclosed, hheld⟩ := Writer.close_written hdevice hdata' hsize
    have hsame : o.piecesOf data (flushPoints 0 calls') = o.piecesOf data (flushPoints 0 calls) :=
      cutAt_flushPoints_congr o.blockSize.bytes_pos hpoints
    exact ⟨w, hclosed, hsame ▸ hheld⟩
  refine ⟨_, o.frame (o.piecesOf data (flushPoints 0 calls)), o.pieces_written hdata, ?_, hwritten, ?_⟩
  · have hframe : o.frame (o.piecesOf data (flushPoints 0 calls)) = o.descriptor.header ++
        (recordsBytes o.blockChecksum ((o.piecesOf data (flushPoints 0 calls)).map o.record) ++
          o.descriptor.trailer (joined (o.piecesOf data (flushPoints 0 calls)))) := rfl
    rw [hframe, hjoined]
    rfl
  · intro hnone
    have hone : joined ([Call.write data].map Call.data) = data := ByteArray.append_empty
    obtain ⟨w, hclosed, hheld⟩ := hwritten ⟨Memory.mk, ByteArray.empty, 0⟩ [.write data] (memory_reliable _) hone
      (by simp [flushPoints, hnone])
    have hfinished : ((Writer.new ⟨Memory.mk, ByteArray.empty, 0⟩ o).writeData data).andThen Writer.finish =
        (.ok (), w) := by
      obtain ⟨w₁, hperformed, hclose⟩ := Outcome.andThen_eq_ok hclosed
      obtain ⟨w₂, hwrote, hlater⟩ := Outcome.andThen_eq_ok hperformed
      cases hlater
      have hwrite : (Writer.new ⟨Memory.mk, ByteArray.empty, 0⟩ o).writeData data = (.ok (), w₁) := hwrote
      have hconclude := Writer.conclude_ok hclose .finish
      simpa [hwrite, Outcome.andThen, Writer.conclude] using hconclude
    rw [compressFrame]
    simp only [hfinished, hheld, ByteArray.empty_append]

theorem frame_of_data_and_flushes_of_split_writes :
    joined ([Call.write ⟨#[97]⟩, .write ⟨#[98]⟩, .flushBlock, .write ⟨#[99]⟩].map Call.data) = ⟨#[97, 98, 99]⟩ ∧
    ∃ frame, ∃ w w' : Writer Memory,
      ((Writer.new ⟨Memory.mk, ByteArray.empty, 0⟩ { contentSize := some 3 }).performAll
        [.write ⟨#[97]⟩, .write ⟨#[98]⟩, .flushBlock, .write ⟨#[99]⟩]).andThen Writer.close = (.ok (), w) ∧
      ((Writer.new ⟨Memory.mk, ByteArray.empty, 0⟩ { contentSize := some 3 }).performAll
        [.write ⟨#[97, 98]⟩, .flush, .write ByteArray.empty, .flush, .write ⟨#[99]⟩]).andThen Writer.close =
          (.ok (), w') ∧
      w.sink.held = frame ∧ w'.sink.held = frame := by
  obtain ⟨_, frame, _, _, hwritten, _⟩ := frame_of_data_and_flushes { contentSize := some 3 }
    [.write ⟨#[97]⟩, .write ⟨#[98]⟩, .flushBlock, .write ⟨#[99]⟩] ⟨#[97, 98, 99]⟩ (by decide) (by decide)
  obtain ⟨w, hclosed, hheld⟩ := hwritten ⟨Memory.mk, ByteArray.empty, 0⟩ _ (memory_reliable _) (by decide)
    (fun _ => Iff.rfl)
  obtain ⟨w', hclosed', hheld'⟩ := hwritten ⟨Memory.mk, ByteArray.empty, 0⟩
    [.write ⟨#[97, 98]⟩, .flush, .write ByteArray.empty, .flush, .write ⟨#[99]⟩] (memory_reliable _) (by decide)
    (by simp [flushPoints, ByteArray.size])
  refine ⟨by decide, frame, w, w', hclosed, hclosed', ?_, ?_⟩
  · rw [hheld, ByteArray.empty_append]
  · rw [hheld', ByteArray.empty_append]

end LempelZiv
