import LempelZiv.Proofs.Recovering

namespace LempelZiv

/-- What ends a frame is cut in its first word, or in the digest behind it. -/
theorem Descriptor.trailer_cut (d : Descriptor) {out front more : ByteArray} (hcut : front ++ more = d.trailer out)
    (hmore : 0 < more.size) :
    front.size < 4 ∨ d.contentChecksum = true ∧ ∃ part, front = leBytes 4 0 ++ part ∧ part.size < 4 := by
  by_cases hword : front.size < 4
  · exact .inl hword
  have hle : (leBytes 4 0).size ≤ front.size := by
    rw [size_leBytes]
    omega
  rw [trailer] at hcut
  obtain ⟨part, hfront, hdigest⟩ := exists_append_of_size_le hcut hle
  have hsize := congrArg ByteArray.size hdigest
  rw [ByteArray.size_append] at hsize
  cases hsum : d.contentChecksum with
  | false =>
    rw [hsum, if_neg Bool.false_ne_true, ByteArray.size_empty] at hsize
    omega
  | true =>
    rw [hsum, if_pos rfl, size_leBytes] at hsize
    exact .inr ⟨rfl, part, hfront, by omega⟩

namespace Reader

variable {φ : Type} [Feed φ] {r : Reader φ} {d : Descriptor} {out rest more : ByteArray}

/-- A reader behind `out`, where `rest` is to come. -/
def standing (d : Descriptor) (out rest : ByteArray) : Reader Steady where
  source := ⟨⟨⟩, rest, 0⟩
  phase := .begun
  descriptor := d
  pending := out
  pos := out.size
  digest := if d.contentChecksum then some ((XXH32.start 0).update out) else none
  produced := out.size

theorem standing_stands (d : Descriptor) (out rest : ByteArray) : (standing d out rest).Stands d out :=
  ⟨rfl, rfl, rfl, rfl⟩

theorem standing_rest (d : Descriptor) (out rest : ByteArray) : (standing d out rest).source.rest = rest :=
  dropBytes_zero rest

theorem takeWord_short (hs : Feed.Reliable r.source.feed) (hleft : r.source.left < 4) :
    ∃ next h, r.takeWord = .failed (.frame .unexpectedEnd) next h := by
  obtain ⟨next, hle, hshort⟩ := take_short hs hleft
  refine ⟨next, hle, ?_⟩
  rw [takeWord]
  simp only [hshort]

theorem checkContent_short {digest : XXH32} (hs : Feed.Reliable r.source.feed) (hdigest : r.digest = some digest)
    (hleft : r.source.left < 4) : ∃ next h, r.checkContent = .failed (.frame .unexpectedEnd) next h := by
  obtain ⟨next, hle, hshort⟩ := @takeWord_short φ _ { r with digest := none } hs hleft
  refine ⟨next, hle, ?_⟩
  rw [checkContent]
  simp only [hdigest, hshort]

/-- Where something of what ends a frame is missing, the end of it is missed. -/
theorem nextBlock_short_trailer (hr : r.Stands d out) (hs : Feed.Reliable r.source.feed)
    (hcut : r.source.rest ++ more = d.trailer out) (hmore : 0 < more.size) :
    ∃ next h, r.nextBlock = .failed (.frame .unexpectedEnd) next h := by
  rw [nextBlock]
  rcases d.trailer_cut hcut hmore with hshort | ⟨hsum, part, hrest, hpart⟩
  · rw [r.source.size_rest] at hshort
    obtain ⟨next, hle, hword⟩ := takeWord_short hs hshort
    simp only [hword]
    exact ⟨next, hle, rfl⟩
  · have hdigest := hr.digest_eq
    rw [hsum, if_pos rfl] at hdigest
    obtain ⟨s, hle, hok, hlater, hs'⟩ := takeWord_reliable (by decide) hs hrest
    rw [← hlater, s.size_rest] at hpart
    obtain ⟨next, hle', hshort⟩ := @checkContent_short φ _ { r with source := s } _ hs' hdigest hpart
    simp only [hok, if_true, hshort]
    exact ⟨next, Nat.le_trans hle' (Nat.le_of_add_right_le hle), rfl⟩

end Reader

namespace Descriptor

variable {d : Descriptor} {out rest more result : ByteArray} {bs : List Record}

/-- Where something of the blocks or of what follows them is missing, its end is missed. -/
theorem Decodes.cut (h : d.Decodes out bs result)
    (hcut : rest ++ more = recordsBytes d.blockChecksum bs ++ d.trailer result) (hmore : 0 < more.size) :
    ∃ content, d.ComesTo out rest content (.error (.frame .unexpectedEnd)) := by
  have hsteady := steady_reliable ⟨⟩
  induction h generalizing rest with
  | @nil out =>
    have hstands := Reader.standing_stands d out rest
    have hrest := Reader.standing_rest d out rest
    rw [recordsBytes, ByteArray.empty_append, ← hrest] at hcut
    obtain ⟨next, hle, hshort⟩ := Reader.nextBlock_short_trailer hstands hsteady hcut hmore
    have hstuck := hstands.stuck hsteady hshort
    exact ⟨out, .stuck (hrest ▸ hstuck)⟩
  | @cons out content result b bs fits adds later ih =>
    -- What the next block comes to is told by a reader that has the rest of it, too.
    have hstands := Reader.standing_stands d out rest
    have hwhole := Reader.standing_stands d out (rest ++ more)
    have hrest := Reader.standing_rest d out rest
    have hrest' := Reader.standing_rest d out (rest ++ more)
    rw [recordsBytes, ByteArray.append_assoc] at hcut
    obtain ⟨next', hle', hok, _, htail, _⟩ := Reader.nextBlock_record hwhole hsteady (hrest'.trans hcut) fits adds
    have hbehind : (Reader.standing d out (rest ++ more)).source.rest =
      (Reader.standing d out rest).source.rest ++ more := by rw [hrest, hrest']
    have hmatches := (hstands.alongside hwhole hsteady hsteady hbehind).nextBlock
    rw [hok] at hmatches
    generalize hblock : (Reader.standing d out rest).nextBlock = step at hmatches
    cases hmatches with
    | short => exact ⟨out, .stuck (hrest ▸ hstands.stuck hsteady hblock)⟩
    | @done _ next _ _ _ along =>
      have hnext := along.rest_eq.symm.trans htail
      obtain ⟨final, hlater⟩ := ih hnext
      rw [← hnext, ← ByteArray.append_assoc] at hcut
      rw [(ByteArray.append_left_inj more).mp hcut]
      exact ⟨final, .block fits adds hlater⟩

end Descriptor

theorem decompressFrame_of_header_failed {src : ByteArray} {e : Error} {next : Reader Steady}
    {h : next.source.left ≤ (Reader.new (⟨⟨⟩, src, 0⟩ : Source Steady)).source.left}
    (hfailed : (Reader.new (⟨⟨⟩, src, 0⟩ : Source Steady)).readHeader = .failed e next h) :
    decompressFrame src = .error e := by
  rw [decompressFrame, Reader.drain, Reader.drainFrom, Reader.read_new_failed (by decide) hfailed]

/-- The front of a header with blocks and what ends a frame behind it is not whole, and that is what is found. -/
theorem decompressFrame_cut {d : Descriptor} {used : Nat} {bs : List Record} {front more content : ByteArray}
    (hread : Descriptor.read (front ++ more) = .ok (d, used))
    (hrest : dropBytes (front ++ more) used = recordsBytes d.blockChecksum bs ++ d.trailer content)
    (hdecodes : d.Decodes ByteArray.empty bs content) (hmore : 0 < more.size) :
    decompressFrame front = .error (.frame .unexpectedEnd) := by
  have hsteady := steady_reliable ⟨⟩
  have hfront : Source.rest ⟨Steady.mk, front, 0⟩ = front := dropBytes_zero front
  have hwhole : Source.rest ⟨Steady.mk, front ++ more, 0⟩ = front ++ more := dropBytes_zero _
  rw [← hwhole] at hread
  obtain ⟨r', _, hok, hstands, htail, _⟩ := Reader.readHeader_reliable hsteady hread
  have hbehind : Source.rest ⟨Steady.mk, front ++ more, 0⟩ = Source.rest ⟨Steady.mk, front, 0⟩ ++ more := by
    rw [hfront, hwhole]
  have hmatches := Reader.readHeader_matches hsteady hsteady hbehind
  rw [hok] at hmatches
  generalize hheader : (Reader.new ⟨Steady.mk, front, 0⟩).readHeader = step at hmatches
  cases hmatches with
  | short => exact decompressFrame_of_header_failed hheader
  | done along =>
    obtain ⟨d', used', s, notices, hread', hrest', rfl⟩ := Reader.readHeader_done hheader
    obtain rfl : d = d' := hstands.descriptor_eq.symm.trans along.descriptor_eq
    have hcut : dropBytes front used' ++ more = recordsBytes d.blockChecksum bs ++ d.trailer content := by
      have hlater : s.rest = dropBytes front used' := hrest'.trans (congrArg (dropBytes · used') hfront)
      rw [← hrest, ← hwhole, ← htail, along.rest_eq]
      exact congrArg (· ++ more) hlater.symm
    obtain ⟨result, hcomes⟩ := hdecodes.cut hcut hmore
    rw [← hfront] at hcomes
    have hsizes : ∀ _ : Nat, 0 < 65536 := fun _ => by decide
    have hdelivered := Reader.drainBy_new_delivers hsteady hsizes hread' hcomes
    rw [decompressFrame_of_delivered hdelivered]
    rfl

/-- The bytes that are taken to decompress what `src` begins with. -/
def taken (src : ByteArray) : Nat :=
  src.size - ((Reader.new (⟨⟨⟩, src, 0⟩ : Source Steady)).drain 65536).reader.source.left

/-- The bytes are those of one frame, and nothing else. -/
def IsFrame (src : ByteArray) : Prop := (∃ out, decompressFrame src = .ok out) ∧ taken src = src.size

theorem Descriptor.Framed.exists_frame {d : Descriptor} {src content tail : ByteArray} {bs : List Record}
    (h : d.Framed src bs content tail) :
    ∃ frame, src = frame ++ tail ∧ ∀ tail', d.Framed (frame ++ tail') bs content tail' := by
  obtain ⟨⟨used, hread, hrest⟩, hdecodes, hsize⟩ := h
  obtain ⟨start, rest, later, rfl, hstart, hlength, hd, rfl⟩ := read_eq_ok_iff.mp hread
  rw [← hstart, dropBytes_append_add, dropBytes_append] at hrest
  refine ⟨start ++ (rest ++ (recordsBytes d.blockChecksum bs ++ d.trailer content)), ?_, ?_⟩
  · rw [hrest]
    simp only [ByteArray.append_assoc]
  · intro tail'
    refine ⟨⟨headerStart + rest.size, ?_, ?_⟩, hdecodes, hsize⟩
    · simp only [ByteArray.append_assoc]
      exact read_eq_ok_iff.mpr ⟨start, rest, _, rfl, hstart, hlength, hd, rfl⟩
    · simp only [ByteArray.append_assoc, ← hstart, dropBytes_append_add, dropBytes_append]

theorem Descriptor.Framed.taken_eq {d : Descriptor} {frame content tail : ByteArray} {bs : List Record}
    (h : d.Framed (frame ++ tail) bs content tail) : taken (frame ++ tail) = frame.size := by
  have hrest : Source.rest ⟨Steady.mk, frame ++ tail, 0⟩ = frame ++ tail := dropBytes_zero _
  rw [← hrest] at h
  obtain ⟨pieces, r, hdrained, _, htail⟩ :=
    @Reader.drainBy_framed Steady _ _ _ _ _ _ (fun _ => 65536) (steady_reliable _) h (fun _ => by decide)
  rw [taken, Reader.drain, Reader.drainFrom_eq, hdrained, ← r.source.size_rest, htail, ByteArray.size_append,
    Nat.add_sub_cancel]

theorem Descriptor.Framed.cut {d : Descriptor} {frame front more content : ByteArray} {bs : List Record}
    (h : ∀ tail, d.Framed (frame ++ tail) bs content tail) (hcut : front ++ more = frame) (hmore : 0 < more.size) :
    decompressFrame front = .error (.frame .unexpectedEnd) := by
  obtain ⟨⟨used, hread, hrest⟩, hdecodes, _⟩ := h ByteArray.empty
  rw [ByteArray.append_empty, ← hcut] at hread hrest
  rw [ByteArray.append_empty] at hrest
  exact decompressFrame_cut hread hrest hdecodes hmore

/-- A cut inside of what is taken is noticed, and one behind it changes nothing. -/
theorem decompressFrame_extract {src out : ByteArray} (h : decompressFrame src = .ok out) (cut : Nat) :
    decompressFrame (src.extract 0 cut) = if cut < taken src then .error (.frame .unexpectedEnd) else .ok out := by
  obtain ⟨d, bs, tail, hframed⟩ := decompressFrame_eq_ok_iff_exists_framed.mp h
  obtain ⟨frame, rfl, hall⟩ := hframed.exists_frame
  rw [(hall tail).taken_eq]
  by_cases hcut : cut < frame.size
  · have hwhole := extract_zero_append_dropBytes (Nat.le_of_lt hcut)
    rw [if_pos hcut, extract_append_left tail (Nat.le_of_lt hcut)]
    exact Descriptor.Framed.cut hall hwhole (by rw [size_dropBytes]; omega)
  · have hwhole := @ByteArray.extract_zero_max_size frame cut
    rw [Nat.max_eq_left (Nat.le_of_not_lt hcut)] at hwhole
    rw [if_neg hcut, ByteArray.extract_append, hwhole]
    exact decompressFrame_framed (hall _)

/-- What is written for some data is a frame of its pieces. -/
theorem compressFrame_eq_frame {data frame : ByteArray} {o : FrameOptions} (h : compressFrame data o = .ok frame) :
    ∃ blocks, (∀ b ∈ blocks, 0 < b.size ∧ b.size ≤ o.blockSize.bytes) ∧ frame = o.frame blocks := by
  have hsized := Gathered.nothing_sized o.blockSize.bytes_pos
  rw [compressFrame] at h
  split at h
  next w hok =>
    cases h
    obtain ⟨w₁, hwrote, hfinished⟩ := Outcome.andThen_eq_ok hok
    have hnew := @Writer.new_holds Memory _ ⟨⟨⟩, ByteArray.empty, 0⟩ (memory_reliable _) o
    obtain ⟨w₂, hok₂, hholds⟩ := Writer.writeData_holds data hnew hsized
    cases hok₂.symm.trans hwrote
    have hclose := @Writer.conclude_passed Memory _ _ _ .finish hfinished
    have hdeclared := (Writer.close_passed hholds.not_closed hclose).2
    rw [hholds.options_eq, hholds.written_eq] at hdeclared
    have hgathered := Gathered.step_sized hsized (.write data)
    obtain ⟨w₃, hok₃, hheld⟩ := Writer.close_holds hholds hgathered hdeclared
    cases hok₃.symm.trans hclose
    exact ⟨_, (Gathered.flushed_sized hgathered).blocks, hheld.trans ByteArray.empty_append⟩
  next => cases h

theorem FrameOptions.decompressFrame_cut {o : FrameOptions} {blocks : List ByteArray} {front more : ByteArray}
    (hblocks : ∀ b ∈ blocks, 0 < b.size ∧ b.size ≤ o.blockSize.bytes) (hcut : front ++ more = o.frame blocks)
    (hmore : 0 < more.size) : decompressFrame front = .error (.frame .unexpectedEnd) := by
  have hread := o.descriptor.read_header_append
    (recordsBytes o.descriptor.blockChecksum (blocks.map o.record) ++ o.descriptor.trailer (joined blocks))
  have hrest := dropBytes_append o.descriptor.header
    (recordsBytes o.descriptor.blockChecksum (blocks.map o.record) ++ o.descriptor.trailer (joined blocks))
  have hdecodes := (o.records_decode hblocks ByteArray.empty).wrapped
  rw [ByteArray.empty_append] at hdecodes
  rw [FrameOptions.frame, Descriptor.frame] at hcut
  rw [← hcut] at hread hrest
  exact LempelZiv.decompressFrame_cut hread hrest hdecodes hmore

/-- No cut of a frame goes unnoticed: as long as some of the bytes that are taken is missing, the end is missed, and
it is that which is reported. So no frame begins another, and no front of a written frame decompresses. -/
theorem truncated_frames_fail :
    (∀ src out, decompressFrame src = .ok out → ∀ cut, decompressFrame (src.extract 0 cut) =
      if cut < taken src then .error (.frame .unexpectedEnd) else .ok out) ∧
    (∀ frame more, IsFrame frame → IsFrame (frame ++ more) → more = ByteArray.empty) ∧
    ∀ data options frame, compressFrame data options = .ok frame → ∀ cut, cut < frame.size →
      decompressFrame (frame.extract 0 cut) = .error (.frame .unexpectedEnd) := by
  refine ⟨fun src out h => decompressFrame_extract h, ?_, ?_⟩
  · rintro frame more ⟨⟨out, hframe⟩, _⟩ ⟨⟨out', hwhole⟩, htaken⟩
    have hcut := decompressFrame_extract hwhole frame.size
    rw [ByteArray.extract_append_size_left, ByteArray.extract_zero_size, hframe, htaken, ByteArray.size_append] at hcut
    split at hcut
    next => cases hcut
    next hlast => exact ByteArray.size_eq_zero_iff.mp (by omega)
  · intro data options frame h cut hcut
    obtain ⟨blocks, hblocks, rfl⟩ := compressFrame_eq_frame h
    have hfront := extract_zero_append_dropBytes (Nat.le_of_lt hcut)
    exact FrameOptions.decompressFrame_cut hblocks hfront (by rw [size_dropBytes]; omega)

/-- A frame of one stored byte, cut inside of its end mark, and with a byte behind it. -/
theorem truncated_frames_fail_inside_end_mark :
    let frame : ByteArray := ⟨#[4, 34, 77, 24, 96, 64, 130, 1, 0, 0, 128, 97, 0, 0, 0, 0]⟩
    decompressFrame (frame ++ ⟨#[9]⟩) = .ok ⟨#[97]⟩ ∧ taken (frame ++ ⟨#[9]⟩) = 16 ∧
      decompressFrame ((frame ++ ⟨#[9]⟩).extract 0 14) = .error (.frame .unexpectedEnd) ∧
      IsFrame frame ∧ (∀ more, IsFrame (frame ++ more) → more = ByteArray.empty) ∧
      compressFrame ⟨#[97]⟩ {} = .ok frame ∧ decompressFrame (frame.extract 0 14) = .error (.frame .unexpectedEnd) := by
  intro frame
  obtain ⟨hcut, hfree, hwritten⟩ := truncated_frames_fail
  have hsrc : decompressFrame (frame ++ ⟨#[9]⟩) = .ok ⟨#[97]⟩ := by cbv
  have htaken : taken (frame ++ ⟨#[9]⟩) = 16 := by cbv
  have hframe : IsFrame frame := ⟨⟨⟨#[97]⟩, by cbv⟩, by cbv⟩
  have hcompressed : compressFrame ⟨#[97]⟩ {} = .ok frame := by cbv
  refine ⟨hsrc, htaken, ?_, hframe, fun more => hfree frame more hframe, hcompressed,
    hwritten _ _ _ hcompressed 14 (by decide)⟩
  rw [hcut _ _ hsrc, htaken, if_pos (by decide)]

end LempelZiv
