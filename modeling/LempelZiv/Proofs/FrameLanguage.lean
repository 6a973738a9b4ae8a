import LempelZiv.Proofs.Draining

namespace LempelZiv

theorem decompressFrame_eq_ok_iff_exists_framed {src out : ByteArray} :
    decompressFrame src = .ok out ↔ ∃ d bs tail, Descriptor.Framed d src bs out tail := by
  constructor
  · intro h
    obtain ⟨content, outcome, hcomes, hall⟩ := Reader.drainBy_comes src
    rw [decompressFrame_of_delivered (hall ⟨⟩ _ (steady_reliable _) fun _ => by decide)] at h
    cases outcome with
    | error e => cases h
    | ok tail =>
      cases h
      cases hcomes with
      | @headed d used _ _ header comes =>
        obtain ⟨bs, hdecodes, hrest, hsize⟩ := comes.ended
        exact ⟨d, bs, tail, ⟨used, header, hrest⟩, hdecodes, hsize⟩
  · intro h
    obtain ⟨d, bs, tail, hframed⟩ := h
    exact decompressFrame_framed hframed

/-- The frame format: a header, records that decode behind the whole content before them if they are linked,
and what ends a frame. Nothing else decompresses, and what follows the frame does not matter. -/
theorem decompressFrame_eq_ok_iff_framed_blocks (src out : ByteArray) :
    decompressFrame src = .ok out ↔
      ∃ d used records tail, Descriptor.read src = .ok (d, used) ∧
        dropBytes src used = recordsBytes d.blockChecksum records ++ (d.trailer out ++ tail) ∧
        d.Unfolds ByteArray.empty records out ∧ ∀ n, d.contentSize = some n → n = out.size := by
  rw [decompressFrame_eq_ok_iff_exists_framed]
  constructor
  · rintro ⟨d, records, tail, ⟨used, hread, hrest⟩, hdecodes, hsize⟩
    exact ⟨d, used, records, tail, hread, hrest, Descriptor.unfolds_iff_decodes.mpr hdecodes, hsize⟩
  · rintro ⟨d, used, records, tail, hread, hrest, hunfolds, hsize⟩
    exact ⟨d, records, tail, ⟨used, hread, hrest⟩, Descriptor.unfolds_iff_decodes.mp hunfolds, hsize⟩

theorem leBytes_append_inj {m n : Nat} {a b : ByteArray} (hm : m < 2 ^ 32) (hn : n < 2 ^ 32)
    (h : leBytes 4 m ++ a = leBytes 4 n ++ b) : m = n ∧ a = b := by
  have hsize : (leBytes 4 m).size = (leBytes 4 n).size := by rw [size_leBytes, size_leBytes]
  obtain ⟨hword, hrest⟩ := (ByteArray.append_eq_append_iff_of_size_eq_left hsize).mp h
  refine ⟨?_, hrest⟩
  rw [← readLE_leBytes (show m < 256 ^ 4 from hm), hword, readLE_leBytes (show n < 256 ^ 4 from hn)]

/-- A record can be told from what follows it. -/
theorem Record.bytes_append_inj {checksum : Bool} {size : BlockSize} {b b' : Record} {rest rest' : ByteArray}
    (hb : b.Fits size.bytes) (hb' : b'.Fits size.bytes)
    (h : b.bytes checksum ++ rest = b'.bytes checksum ++ rest') : b = b' ∧ rest = rest' := by
  obtain ⟨hlt, _, hsize, hflag⟩ := hb.word_reads
  obtain ⟨hlt', _, hsize', hflag'⟩ := hb'.word_reads
  simp only [bytes, ByteArray.append_assoc] at h
  obtain ⟨hword, h⟩ := leBytes_append_inj hlt hlt' h
  have hpayload : b.payload.size = b'.payload.size := by rw [← hsize, ← hsize', hword]
  have hstored : b.stored = b'.stored := Bool.eq_iff_iff.mpr (by rw [← hflag, ← hflag', hword])
  obtain ⟨hsame, h⟩ := (ByteArray.append_eq_append_iff_of_size_eq_left hpayload).mp h
  rw [hsame] at h
  refine ⟨?_, (ByteArray.append_right_inj _).mp h⟩
  cases b
  cases b'
  simp_all

/-- Records without an end are not records with one. -/
theorem recordsBytes_ne_ended {checksum : Bool} {size : BlockSize} {bs bs' : List Record}
    (hbs : ∀ b ∈ bs, b.Fits size.bytes) (hbs' : ∀ b ∈ bs', b.Fits size.bytes) (rest : ByteArray) :
    recordsBytes checksum bs ≠ recordsBytes checksum bs' ++ (leBytes 4 0 ++ rest) := by
  induction bs generalizing bs' with
  | nil =>
    intro h
    have hsize := congrArg ByteArray.size h
    rw [recordsBytes, ByteArray.size_append, ByteArray.size_append, size_leBytes, ByteArray.size_empty] at hsize
    omega
  | cons b bs ih =>
    have hb := hbs b List.mem_cons_self
    intro h
    rw [recordsBytes] at h
    cases bs' with
    | nil =>
      rw [recordsBytes, ByteArray.empty_append, Record.bytes, ByteArray.append_assoc] at h
      obtain ⟨hlt, hzero, _⟩ := hb.word_reads
      exact hzero (leBytes_append_inj hlt (by decide) h).1
    | cons b' bs' =>
      rw [recordsBytes, ByteArray.append_assoc] at h
      obtain ⟨_, hrest⟩ := Record.bytes_append_inj hb (hbs' b' List.mem_cons_self) h
      exact ih (fun b hb => hbs b (List.mem_cons_of_mem _ hb))
        (fun b hb => hbs' b (List.mem_cons_of_mem _ hb)) hrest

theorem Descriptor.Decodes.fits {d : Descriptor} {out result : ByteArray} {bs : List Record}
    (h : d.Decodes out bs result) : ∀ b ∈ bs, b.Fits d.blockSize.bytes := by
  induction h with
  | nil => exact fun b hb => (nomatch hb)
  | cons fits _ _ ih =>
    intro b hb
    rcases List.mem_cons.mp hb with rfl | hb
    · exact fits
    · exact ih b hb

/-- A frame that breaks off behind a record does not decompress. -/
theorem decompressFrame_of_unended {d : Descriptor} {bs : List Record}
    (hbs : ∀ b ∈ bs, b.Fits d.blockSize.bytes) (out : ByteArray) :
    decompressFrame (d.header ++ recordsBytes d.blockChecksum bs) ≠ .ok out := by
  intro h
  obtain ⟨d', bs', tail, ⟨used, hread, hrest⟩, hdecodes, _⟩ := decompressFrame_eq_ok_iff_exists_framed.mp h
  rw [d.read_header_append] at hread
  cases hread
  rw [dropBytes_append, Descriptor.trailer, ByteArray.append_assoc] at hrest
  exact recordsBytes_ne_ended hbs hdecodes.fits _ hrest

end LempelZiv
