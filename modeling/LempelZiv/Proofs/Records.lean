import LempelZiv.Frame.Reader
import LempelZiv.Proofs.BlockRoundTrip
import LempelZiv.Proofs.Header

namespace LempelZiv

theorem BlockSize.bytes_le (size : BlockSize) : size.bytes ≤ maxBlockSize := by
  cases size with
  | kb64 => decide
  | kb256 => decide
  | mb1 => decide
  | mb4 => decide

/-- A block of a frame: its bytes are stored as they are, or packed. -/
structure Record where
  stored : Bool
  payload : ByteArray

namespace Record

def word (b : Record) : Nat := if b.stored then b.payload.size + storedFlag else b.payload.size

def bytes (checksum : Bool) (b : Record) : ByteArray :=
  leBytes 4 b.word ++
    (b.payload ++ if checksum then leBytes 4 (xxh32 0 b.payload).toNat else ByteArray.empty)

structure Fits (b : Record) (most : Nat) : Prop where
  word_pos : 0 < b.word
  payload_le : b.payload.size ≤ most

/-- Behind `history` the block stands for `content`. -/
def Adds (b : Record) (most : Nat) (history content : ByteArray) : Prop :=
  if b.stored then content = b.payload
  else decompressInto b.payload history most = (.ok content.size, history ++ content)

theorem Fits.word_reads {b : Record} {size : BlockSize} (h : b.Fits size.bytes) :
    b.word < 2 ^ 32 ∧ b.word ≠ 0 ∧ b.word % storedFlag = b.payload.size ∧
      (storedFlag ≤ b.word ↔ b.stored = true) := by
  have hpos := h.word_pos
  have hle := h.payload_le
  have hmost := size.bytes_le
  rw [maxBlockSize] at hmost
  rw [word] at hpos ⊢
  rw [storedFlag] at *
  cases hs : b.stored with
  | false =>
    rw [hs] at hpos
    simp only [Bool.false_eq_true, if_false, iff_false] at hpos ⊢
    omega
  | true =>
    simp only [if_true, iff_true]
    omega

theorem Adds.decodes {b : Record} {size : BlockSize} {history content : ByteArray}
    (h : b.Adds size.bytes history content)
    (hfits : b.Fits size.bytes) : (if storedFlag ≤ b.word then (.ok b.payload.size, history ++ b.payload)
      else decompressInto b.payload history size.bytes : Except Error Nat × ByteArray) =
        (.ok content.size, history ++ content) := by
  obtain ⟨_, _, _, hstored⟩ := hfits.word_reads
  rw [Adds] at h
  cases hb : b.stored with
  | false =>
    rw [hb] at h hstored
    rw [if_neg (fun hflag => (nomatch hstored.mp hflag))]
    exact h
  | true =>
    rw [hb] at h hstored
    rw [if_pos (hstored.mpr rfl), (h : content = b.payload)]

end Record

def recordsBytes (checksum : Bool) : List Record → ByteArray
  | [] => ByteArray.empty
  | b :: bs => b.bytes checksum ++ recordsBytes checksum bs

/-- The pieces one behind the other. -/
def joined : List ByteArray → ByteArray
  | [] => ByteArray.empty
  | a :: as => a ++ joined as

theorem joined_append (as bs : List ByteArray) : joined (as ++ bs) = joined as ++ joined bs := by
  induction as with
  | nil => rw [List.nil_append, joined, ByteArray.empty_append]
  | cons a as ih => rw [List.cons_append, joined, joined, ih, ByteArray.append_assoc]

theorem recordsBytes_append (checksum : Bool) (as bs : List Record) :
    recordsBytes checksum (as ++ bs) = recordsBytes checksum as ++ recordsBytes checksum bs := by
  induction as with
  | nil => rw [List.nil_append, recordsBytes, ByteArray.empty_append]
  | cons a as ih => rw [List.cons_append, recordsBytes, recordsBytes, ih, ByteArray.append_assoc]

namespace Descriptor

/-- What follows the blocks of a frame. -/
def trailer (d : Descriptor) (content : ByteArray) : ByteArray :=
  leBytes 4 0 ++ if d.contentChecksum then leBytes 4 (xxh32 0 content).toNat else ByteArray.empty

def frame (d : Descriptor) (records : List Record) (content : ByteArray) : ByteArray :=
  d.header ++ (recordsBytes d.blockChecksum records ++ d.trailer content)

/-- The bytes of the content so far that the next block may reach. -/
def history (d : Descriptor) (out : ByteArray) : ByteArray :=
  if d.independent then ByteArray.empty else out.extract (out.size - linkedHistory) out.size

theorem history_empty (d : Descriptor) : d.history ByteArray.empty = ByteArray.empty := by
  rw [history]
  split
  next => rfl
  next => exact ByteArray.extract_eq_empty_iff.mpr (Nat.le_trans (Nat.min_le_right _ _) (Nat.zero_le _))

/-- The blocks in turn lead from the content `out` to the content `result`. -/
inductive Decodes (d : Descriptor) : ByteArray → List Record → ByteArray → Prop
  | nil {out : ByteArray} : Decodes d out [] out
  | cons {out more result : ByteArray} {b : Record} {bs : List Record} (fits : b.Fits d.blockSize.bytes)
      (adds : b.Adds d.blockSize.bytes (d.history out) more) (rest : Decodes d (out ++ more) bs result) :
      Decodes d out (b :: bs) result

theorem Decodes.wrapped {d : Descriptor} {out result : ByteArray} {bs : List Record}
    (h : d.Decodes out bs result) :
    d.wrapped.Decodes out bs result := by
  induction h with
  | nil => exact .nil
  | cons fits adds _ ih => exact .cons fits adds ih

/-- The bytes begin with a frame for `content` that has the header `d`, and `tail` follows it. -/
structure Framed (d : Descriptor) (src : ByteArray) (bs : List Record) (content tail : ByteArray) : Prop where
  header : ∃ used, read src = .ok (d, used) ∧
    dropBytes src used = recordsBytes d.blockChecksum bs ++ (d.trailer content ++ tail)
  decodes : d.Decodes ByteArray.empty bs content
  size_eq : ∀ n, d.contentSize = some n → n = content.size

theorem frame_framed {d : Descriptor} {bs : List Record} {content : ByteArray} (tail : ByteArray)
    (hdecodes : d.Decodes ByteArray.empty bs content)
    (hsize : ∀ n, d.wrapped.contentSize = some n → n = content.size) :
    d.wrapped.Framed (d.frame bs content ++ tail) bs content tail := by
  refine ⟨⟨d.header.size, ?_, ?_⟩, hdecodes.wrapped, hsize⟩
  · rw [frame, ByteArray.append_assoc]
    exact d.read_header_append _
  · rw [frame, ByteArray.append_assoc, dropBytes_append, ByteArray.append_assoc]
    rfl

end Descriptor

theorem decompressInto_of_decompress {src out : ByteArray} {limit : Nat}
    (h : decompress src limit = .ok out) :
    0 < src.size ∧ decompressInto src ByteArray.empty limit = (.ok out.size, out) := by
  rw [decompress] at h
  split at h
  next n result hok =>
    cases h
    have hn := (decompressInto_eq_ok_iff_run.mp hok).2
    rw [ByteArray.size_empty, Nat.sub_zero] at hn
    refine ⟨?_, hn ▸ hok⟩
    rcases Nat.eq_zero_or_pos src.size with hz | hpos
    · rw [decompressInto, if_pos (isEmpty_iff.mpr hz)] at hok
      cases hok
    · exact hpos
  next => cases h

def FrameOptions.record (o : FrameOptions) (content : ByteArray) : Record :=
  match Writer.blockParts o.block content with
  | .ok (word, payload) => ⟨storedFlag ≤ word, payload⟩
  | .error _ => ⟨true, content⟩

theorem FrameOptions.record_stored (o : FrameOptions) {content : ByteArray} (hpos : 0 < content.size)
    (hle : content.size ≤ o.blockSize.bytes)
    (h : Writer.blockParts o.block content = .ok (content.size + storedFlag, content)) :
    Writer.blockParts o.block content = .ok ((o.record content).word, (o.record content).payload) ∧
      (o.record content).Fits o.blockSize.bytes ∧
      (o.record content).Adds o.blockSize.bytes ByteArray.empty content := by
  have hrecord : o.record content = ⟨true, content⟩ := by
    rw [record, h]
    simp
  rw [hrecord]
  exact ⟨h, ⟨Nat.add_pos_left hpos _, hle⟩, rfl⟩

/-- A writer packs every block that it fills, and what it writes stands for the content. -/
theorem FrameOptions.record_adds (o : FrameOptions) {content : ByteArray} (hpos : 0 < content.size)
    (hle : content.size ≤ o.blockSize.bytes) :
    Writer.blockParts o.block content = .ok ((o.record content).word, (o.record content).payload) ∧
      (o.record content).Fits o.blockSize.bytes ∧
      (o.record content).Adds o.blockSize.bytes ByteArray.empty content := by
  have hmost := o.blockSize.bytes_le
  rw [maxBlockSize] at hmost
  by_cases hmin : minBlockSize ≤ content.size
  case neg =>
    refine o.record_stored hpos hle ?_
    rw [Writer.blockParts, if_neg hmin]
  obtain ⟨packed, hpack, hdecode⟩ := packChunk_roundTrips o.block (by omega : content.size < 2 ^ 32)
  rw [lift_eq_ok_iff] at hpack
  by_cases hshort : packed.size < content.size
  case neg =>
    refine o.record_stored hpos hle ?_
    rw [Writer.blockParts, if_pos hmin, hpack]
    exact if_neg hshort
  have hparts : Writer.blockParts o.block content = .ok (packed.size, packed) := by
    rw [Writer.blockParts, if_pos hmin, hpack]
    exact if_pos hshort
  have hrecord : o.record content = ⟨false, packed⟩ := by
    have hsmall : ¬storedFlag ≤ packed.size := by
      rw [storedFlag]
      omega
    rw [record, hparts]
    simp [hsmall]
  obtain ⟨hpacked, hadds⟩ := decompressInto_of_decompress (hdecode _ hle)
  rw [hrecord]
  refine ⟨hparts, ⟨hpacked, (by omega : packed.size ≤ o.blockSize.bytes)⟩, ?_⟩
  change decompressInto packed ByteArray.empty o.blockSize.bytes =
    (.ok content.size, ByteArray.empty ++ content)
  rwa [ByteArray.empty_append]

end LempelZiv
