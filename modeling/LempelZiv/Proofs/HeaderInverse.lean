import LempelZiv.Proofs.Draining

namespace LempelZiv

theorem BlockSize.code_of_ofCode {code : Nat} {b : BlockSize} (h : ofCode code = .ok b) : b.code = code := by
  unfold ofCode at h
  split at h
  next => cases h; rfl
  next => cases h; rfl
  next => cases h; rfl
  next => cases h; rfl
  next => cases h

namespace Descriptor

theorem bit_decide (n weight : Nat) : bit (decide (n % 2 = 1)) weight = weight * (n % 2) := by
  rcases Nat.mod_two_eq_zero_or_one n with h | h
  · rw [h]
    rfl
  · rw [h, Nat.mul_one]
    rfl

theorem isSome_ite {c : Bool} {n : Nat} : (if c then some n else none).isSome = c := by
  cases c with
  | false => rfl
  | true => rfl

variable {start rest src : ByteArray} {d : Descriptor} {used : Nat}

/-- What is found to be so of a header that reads as `d`. -/
structure ReadsAs (start rest : ByteArray) (d : Descriptor) : Prop where
  magic_eq : readLE start 0 4 = frameMagic
  flags_eq : d.flags = (byteAt start 4).toNat
  code_eq : d.blockSize.code * 16 = (byteAt start 5).toNat
  size_eq : rest.size = d.closing.size
  contentSize_eq : ∀ n, d.contentSize = some n → n = readLE rest 0 8
  dictionary_eq : ∀ n, d.dictionary = some n → n = readLE rest (bit d.contentSize.isSome 8) 4

/-- All bits of the two bytes that say which header it is are checked or kept. -/
theorem readsAs_of_ofHeader (hd : ofHeader start rest = .ok d) : ReadsAs start rest d := by
  unfold ofHeader restLength at hd
  simp only [bind_eq_ok_iff, check_eq_ok_iff, pure_eq_ok_iff] at hd
  obtain ⟨n, ⟨hmagic, hversion, hreserved, hblock, _, _, hn⟩, hsize, b, hb, rfl⟩ := hd
  refine ⟨Decidable.not_not.mp hmagic, ?_, ?_, ?_, ?_, ?_⟩
  · rw [flags]
    simp only [isSome_ite]
    simp only [hasContentSize, hasDictionary, bit_decide]
    omega
  · have hcode := BlockSize.code_of_ofCode hb
    simp only [hcode]
    omega
  · simp only [size_closing, isSome_ite]
    omega
  · intro n hn
    simp only [Option.ite_none_right_eq_some, Option.some.injEq] at hn
    exact hn.2.symm
  · intro n hn
    simp only [Option.ite_none_right_eq_some, Option.some.injEq] at hn
    simp only [isSome_ite]
    exact hn.2.symm

theorem ReadsAs.opening_eq (h : ReadsAs start rest d) (hstart : start.size = headerStart) : d.opening = start := by
  rw [headerStart] at hstart
  rw [opening, ← h.magic_eq, h.flags_eq, h.code_eq, leBytes_byteAt (by omega), leBytes_byteAt (by omega),
    leBytes_readLE (by omega), extract_append_extract_of_le (by omega) (by omega),
    extract_append_extract_of_le (by omega) (by omega), show 5 + 1 = start.size from hstart.symm]
  exact ByteArray.extract_zero_size

/-- A field that is read back as it was written takes its place, or none if it is not there. -/
theorem eq_extract_of_field {bytes : ByteArray} {field : Option Nat} {i k : Nat}
    (hnone : field = none → bytes = ByteArray.empty) (hsome : ∀ n, field = some n → bytes = leBytes k n)
    (hread : ∀ n, field = some n → n = readLE rest i k) (hle : i + bit field.isSome k ≤ rest.size) :
    bytes = rest.extract i (i + bit field.isSome k) := by
  cases field with
  | none =>
    rw [hnone rfl]
    exact ByteArray.extract_same.symm
  | some n =>
    rw [hsome n rfl, hread n rfl]
    exact leBytes_readLE hle

theorem ReadsAs.sizeField_eq (h : ReadsAs start rest d) :
    d.sizeField = rest.extract 0 (bit d.contentSize.isSome 8) := by
  have hsize := h.size_eq
  rw [size_closing] at hsize
  have hfield : d.sizeField = rest.extract 0 (0 + bit d.contentSize.isSome 8) :=
    eq_extract_of_field (fun hn => by rw [sizeField, hn]) (fun n hn => by rw [sizeField, hn]) h.contentSize_eq
      (by omega)
  rwa [Nat.zero_add] at hfield

theorem ReadsAs.dictionaryField_eq (h : ReadsAs start rest d) : d.dictionaryField =
    rest.extract (bit d.contentSize.isSome 8) (bit d.contentSize.isSome 8 + bit d.dictionary.isSome 4) := by
  have hsize := h.size_eq
  rw [size_closing] at hsize
  exact eq_extract_of_field (fun hn => by rw [dictionaryField, hn]) (fun n hn => by rw [dictionaryField, hn])
    h.dictionary_eq (by omega)

/-- The fields fill all of the header but its last byte. -/
theorem ReadsAs.fields_eq (h : ReadsAs start rest d) :
    ∃ check, rest = d.sizeField ++ (d.dictionaryField ++ leBytes 1 check) := by
  have hsize := h.size_eq
  rw [size_closing] at hsize
  refine ⟨(byteAt rest (bit d.contentSize.isSome 8 + bit d.dictionary.isSome 4)).toNat, ?_⟩
  rw [h.sizeField_eq, h.dictionaryField_eq, leBytes_byteAt (by omega),
    extract_append_extract_of_le (by omega) (by omega), extract_append_extract_of_le (by omega) (by omega)]
  have hend : bit d.contentSize.isSome 8 + bit d.dictionary.isSome 4 + 1 = rest.size := by omega
  rw [hend]
  exact ByteArray.extract_zero_size.symm

/-- A header that reads is, up to its last byte, the one that is written for what it says. -/
theorem read_eq_header (h : read src = .ok (d, used)) :
    ∃ fields check check' tail, d.header = fields ++ leBytes 1 check ∧ src = fields ++ (leBytes 1 check' ++ tail) ∧
      used = fields.size + 1 := by
  obtain ⟨start, rest, tail, rfl, hstart, _, hd, rfl⟩ := read_eq_ok_iff.mp h
  have hreads := readsAs_of_ofHeader hd
  obtain ⟨check, hrest⟩ := hreads.fields_eq
  refine ⟨start ++ (d.sizeField ++ d.dictionaryField), headerChecksum d.body, check, tail, ?_, ?_, ?_⟩
  · rw [header_eq, closing, hreads.opening_eq hstart]
    simp only [ByteArray.append_assoc]
  · rw [hrest]
    simp only [ByteArray.append_assoc]
  · rw [hrest]
    simp only [ByteArray.size_append, size_leBytes, hstart]
    omega

theorem read_used_le (h : read src = .ok (d, used)) : used ≤ src.size := by
  obtain ⟨fields, _, check, tail, _, rfl, rfl⟩ := read_eq_header h
  simp only [ByteArray.size_append, size_leBytes]
  omega

theorem map_mod_of_lt {field : Option Nat} {bound : Nat} (h : ∀ n, field = some n → n < bound) :
    field.map (· % bound) = field := by
  cases field with
  | none => rfl
  | some n => exact congrArg some (Nat.mod_eq_of_lt (h n rfl))

theorem wrapped_eq_self (hsize : ∀ n, d.contentSize = some n → n < 2 ^ 64)
    (hdictionary : ∀ n, d.dictionary = some n → n < 2 ^ 32) : d.wrapped = d := by
  rw [wrapped, map_mod_of_lt hsize, map_mod_of_lt hdictionary]

theorem size_header (d : Descriptor) : d.header.size = d.headerSize := by
  rw [header_eq, ByteArray.size_append, size_opening, size_closing, headerSize, headerStart]
  omega

end Descriptor

namespace Reader

variable {φ : Type} [Feed φ] {s : Source φ} {d : Descriptor} {used : Nat}

/-- A reader finds the header that the bytes to come begin with, however they are handed out. -/
theorem info_of_read (hs : Feed.Reliable s.feed) (hread : Descriptor.read s.rest = .ok (d, used)) :
    ∃ r, (new s).info = (.ok d, r) ∧ r.source.rest = dropBytes s.rest used := by
  have hfresh : (new s).phase = .fresh := rfl
  obtain ⟨r, h, hheader, hstands, hrest, _⟩ := readHeader_reliable hs hread
  refine ⟨r, ?_, hrest⟩
  simp only [info, hfresh, hheader, hstands.descriptor_eq]

theorem read_of_info {r : Reader φ} (hinfo : (new s).info = (.ok d, r)) :
    ∃ used, Descriptor.read s.rest = .ok (d, used) ∧ r.source.rest = dropBytes s.rest used := by
  have hfresh : (new s).phase = .fresh := rfl
  rcases hheader : (new s).readHeader with ⟨_, next, h⟩ | ⟨e, next, h⟩
  case failed =>
    simp only [info, hfresh, hheader] at hinfo
    cases hinfo
  simp only [info, hfresh, hheader] at hinfo
  cases hinfo
  obtain ⟨d', used, s', notices, hread, hrest, rfl⟩ := readHeader_done hheader
  exact ⟨used, hread, hrest⟩

end Reader

/-- The header is written and read the same way: it reads as the descriptor it was written for, whatever follows it;
all bytes of a header that reads, but the last, are those that are written for what it says; and a reader finds what
is found in all of the bytes at once and takes as many, however they are handed out, and finds nothing else. -/
theorem header_read_write :
    (∀ (d : Descriptor) (tail : ByteArray), (∀ n, d.contentSize = some n → n < 2 ^ 64) →
      (∀ n, d.dictionary = some n → n < 2 ^ 32) →
      Descriptor.read (d.header ++ tail) = .ok (d, d.headerSize)) ∧
    (∀ src d used, Descriptor.read src = .ok (d, used) →
      d.header.size = used ∧ used ≤ src.size ∧ ∀ i, i + 1 < used → byteAt d.header i = byteAt src i) ∧
    ∀ {φ : Type} [Feed φ] (feed : φ) (src : ByteArray) (d : Descriptor), Feed.Reliable feed →
      (∀ used, Descriptor.read src = .ok (d, used) →
        ∃ r, (Reader.new ⟨feed, src, 0⟩).info = (.ok d, r) ∧ r.source.rest = dropBytes src used) ∧
      ∀ r, (Reader.new ⟨feed, src, 0⟩).info = (.ok d, r) →
        ∃ used, Descriptor.read src = .ok (d, used) ∧ r.source.rest = dropBytes src used := by
  refine ⟨?_, ?_, ?_⟩
  · intro d tail hsize hdictionary
    have hread := d.read_header_append tail
    rwa [d.wrapped_eq_self hsize hdictionary, d.size_header] at hread
  · intro src d used hread
    have hle := Descriptor.read_used_le hread
    obtain ⟨fields, check, check', tail, hheader, rfl, rfl⟩ := Descriptor.read_eq_header hread
    refine ⟨?_, hle, ?_⟩
    · rw [hheader, ByteArray.size_append, size_leBytes]
    · intro i hi
      rw [hheader, byteAt_append_left _ (by omega), byteAt_append_left _ (by omega)]
  · intro φ _ feed src d hs
    have hrest : Source.rest ⟨feed, src, 0⟩ = src := dropBytes_zero src
    constructor
    · intro used hread
      obtain ⟨r, hinfo, htail⟩ := @Reader.info_of_read φ _ ⟨feed, src, 0⟩ d used hs (hrest.symm ▸ hread)
      exact ⟨r, hinfo, htail.trans (congrArg (dropBytes · used) hrest)⟩
    · intro r hinfo
      obtain ⟨used, hread, htail⟩ := Reader.read_of_info hinfo
      rw [hrest] at hread htail
      exact ⟨used, hread, htail⟩

/-- A header with all of its fields, and another whose checksum is not right. -/
theorem header_read_write_of_both_fields :
    let d : Descriptor := { contentSize := some 3, dictionary := some 7 }
    let src : ByteArray := ⟨#[4, 34, 77, 24, 96, 64, 0, 9]⟩
    Descriptor.read (d.header ++ ⟨#[9]⟩) = .ok (d, 19) ∧
      Descriptor.read src = .ok ({ independent := true }, 7) ∧
      (∀ i, i + 1 < 7 → byteAt (Descriptor.header { independent := true }) i = byteAt src i) ∧
      ∃ r, (Reader.new (⟨⟨⟩, src, 0⟩ : Source Steady)).info = (.ok { independent := true }, r) ∧
        r.source.rest = dropBytes src 7 := by
  intro d src
  obtain ⟨hread, hwritten, hinfo⟩ := header_read_write
  have hsrc : Descriptor.read src = .ok ({ independent := true }, 7) := by decide
  obtain ⟨r, hr, hrest⟩ := (hinfo (⟨⟩ : Steady) src _ (steady_reliable _)).1 7 hsrc
  refine ⟨hread d ⟨#[9]⟩ ?_ ?_, hsrc, (hwritten src _ 7 hsrc).2.2, r, hr, hrest⟩
  · intro n hn
    cases hn
    decide
  · intro n hn
    cases hn
    decide

end LempelZiv
