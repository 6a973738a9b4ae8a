import LempelZiv.Frame.Header
import LempelZiv.Proofs.Bytes
import LempelZiv.Proofs.Checked

namespace LempelZiv.Descriptor

/-- The bytes of a header that tell how long it is. -/
def opening (d : Descriptor) : ByteArray :=
  leBytes 4 frameMagic ++ (leBytes 1 d.flags ++ leBytes 1 (d.blockSize.code * 16))

def sizeField (d : Descriptor) : ByteArray :=
  match d.contentSize with
  | some n => leBytes 8 n
  | none => ByteArray.empty

def dictionaryField (d : Descriptor) : ByteArray :=
  match d.dictionary with
  | some n => leBytes 4 n
  | none => ByteArray.empty

def closing (d : Descriptor) : ByteArray :=
  d.sizeField ++ (d.dictionaryField ++ leBytes 1 (headerChecksum d.body))

/-- What the fields of a header keep of a descriptor. -/
def wrapped (d : Descriptor) : Descriptor :=
  { d with contentSize := d.contentSize.map (· % 2 ^ 64), dictionary := d.dictionary.map (· % 2 ^ 32) }

theorem body_eq (d : Descriptor) : d.body =
    leBytes 1 d.flags ++ (leBytes 1 (d.blockSize.code * 16) ++ (d.sizeField ++ d.dictionaryField)) := by
  simp only [body, ByteArray.append_assoc]
  rfl

theorem header_eq (d : Descriptor) : d.header = d.opening ++ d.closing := by
  rw [header, opening, closing]
  generalize headerChecksum d.body = checksum
  simp only [body_eq, ByteArray.append_assoc]

theorem size_opening (d : Descriptor) : d.opening.size = headerStart := by
  simp only [opening, ByteArray.size_append, size_leBytes, headerStart]

theorem size_sizeField (d : Descriptor) : d.sizeField.size = bit d.contentSize.isSome 8 := by
  rw [sizeField]
  cases d.contentSize with
  | none => rfl
  | some n => exact size_leBytes 8 n

theorem size_dictionaryField (d : Descriptor) : d.dictionaryField.size = bit d.dictionary.isSome 4 := by
  rw [dictionaryField]
  cases d.dictionary with
  | none => rfl
  | some n => exact size_leBytes 4 n

theorem size_closing (d : Descriptor) :
    d.closing.size = 1 + bit d.contentSize.isSome 8 + bit d.dictionary.isSome 4 := by
  rw [closing, ByteArray.size_append, ByteArray.size_append, size_sizeField, size_dictionaryField,
    size_leBytes]
  omega

theorem decide_bit (b : Bool) : decide (bit b 1 = 1) = b := by
  cases b with
  | false => rfl
  | true => rfl

theorem flags_bits (d : Descriptor) : d.flags < 256 ∧ d.flags / 64 = 1 ∧ d.flags / 2 % 2 = 0 ∧
    d.flags / 32 % 2 = bit d.independent 1 ∧ d.flags / 16 % 2 = bit d.blockChecksum 1 ∧
    d.flags / 8 % 2 = bit d.contentSize.isSome 1 ∧ d.flags / 4 % 2 = bit d.contentChecksum 1 ∧
    d.flags % 2 = bit d.dictionary.isSome 1 := by
  have hbit : ∀ b w, bit b w = w * bit b 1 ∧ bit b 1 ≤ 1 := by
    intro b w
    cases b with
    | false => exact ⟨rfl, by decide⟩
    | true => exact ⟨(Nat.mul_one w).symm, by decide⟩
  have hind := hbit d.independent 32
  have hblock := hbit d.blockChecksum 16
  have hsize := hbit d.contentSize.isSome 8
  have hcontent := hbit d.contentChecksum 4
  have hdict := (hbit d.dictionary.isSome 1).2
  rw [flags]
  omega

theorem leBytes_one (n : Nat) : leBytes 1 n = [n.toUInt8].toByteArray := by
  rw [leBytes_succ, show leBytes 0 (n / 256) = ByteArray.empty from rfl, ByteArray.append_empty]

theorem byteAt_opening (d : Descriptor) :
    (byteAt d.opening 4).toNat = d.flags ∧ (byteAt d.opening 5).toNat = d.blockSize.code * 16 := by
  have hflags : (byteAt (leBytes 1 d.flags ++ leBytes 1 (d.blockSize.code * 16)) 0).toNat = d.flags := by
    rw [leBytes_one, byteAt_append_left _ (by simp), byteAt_of_lt (by simp)]
    simp
    exact d.flags_bits.1
  have hcode : (byteAt (leBytes 1 d.flags ++ leBytes 1 (d.blockSize.code * 16)) 1).toNat =
    d.blockSize.code * 16 := by
    have hright := byteAt_append_right (leBytes 1 d.flags) (leBytes 1 (d.blockSize.code * 16)) 0
    rw [size_leBytes] at hright
    rw [hright, leBytes_one, byteAt_of_lt (by simp)]
    cases d.blockSize with
    | kb64 => rfl
    | kb256 => rfl
    | mb1 => rfl
    | mb4 => rfl
  have hshift := byteAt_append_right (leBytes 4 frameMagic)
    (leBytes 1 d.flags ++ leBytes 1 (d.blockSize.code * 16))
  rw [size_leBytes] at hshift
  exact ⟨(congrArg UInt8.toNat (hshift 0)).trans hflags, (congrArg UInt8.toNat (hshift 1)).trans hcode⟩

theorem magic_opening (d : Descriptor) : readLE d.opening 0 4 = frameMagic := by
  rw [opening, readLE_append_left _ (Nat.le_of_eq (size_leBytes 4 _).symm), readLE_leBytes (by decide)]

theorem blockSize_code (b : BlockSize) : b.code * 16 < 128 ∧ b.code * 16 % 16 = 0 ∧
    BlockSize.ofCode (b.code * 16 / 16) = .ok b := by
  refine ⟨?_, Nat.mul_mod_left _ _, ?_⟩
  · cases b with
    | kb64 => decide
    | kb256 => decide
    | mb1 => decide
    | mb4 => decide
  · rw [Nat.mul_div_cancel _ (by decide), BlockSize.ofCode_code]

theorem hasContentSize_flags (d : Descriptor) : hasContentSize d.flags = d.contentSize.isSome := by
  rw [hasContentSize, d.flags_bits.2.2.2.2.2.1, decide_bit]

theorem hasDictionary_flags (d : Descriptor) : hasDictionary d.flags = d.dictionary.isSome := by
  rw [hasDictionary, d.flags_bits.2.2.2.2.2.2.2, decide_bit]

theorem restLength_opening (d : Descriptor) : restLength d.opening = .ok d.closing.size := by
  obtain ⟨hflags, hcode⟩ := d.byteAt_opening
  obtain ⟨_, hversion, hreserved, _⟩ := d.flags_bits
  obtain ⟨hlt, hlow, hok⟩ := blockSize_code d.blockSize
  unfold restLength
  simp only [bind_eq_ok_iff, check_eq_ok_iff, pure_eq_ok_iff, hflags, hcode, hasContentSize_flags,
    hasDictionary_flags,
    size_closing]
  exact ⟨fun h => h d.magic_opening, fun h => h hversion, by omega, by omega, d.blockSize, hok, trivial⟩

theorem sizeField_read (d : Descriptor) :
    (if d.contentSize.isSome then some (readLE d.closing 0 8) else none) = d.wrapped.contentSize := by
  change _ = d.contentSize.map _
  cases h : d.contentSize with
  | none => rfl
  | some n =>
    have hfield : d.sizeField = leBytes 8 n := by rw [sizeField, h]
    rw [closing, hfield, readLE_append_left _ (Nat.le_of_eq (size_leBytes 8 n).symm), readLE_leBytes_mod]
    rfl

theorem dictionaryField_read (d : Descriptor) :
    (if d.dictionary.isSome then some (readLE d.closing (bit d.contentSize.isSome 8) 4) else none) =
      d.wrapped.dictionary := by
  change _ = d.dictionary.map _
  cases h : d.dictionary with
  | none => rfl
  | some n =>
    have hfield : d.dictionaryField = leBytes 4 n := by rw [dictionaryField, h]
    have hshift := readLE_append d.sizeField (leBytes 4 n ++ leBytes 1 (headerChecksum d.body)) 0 4
    rw [Nat.add_zero] at hshift
    rw [← size_sizeField, closing, hfield, hshift, readLE_append_left _
      (Nat.le_of_eq (size_leBytes 4 n).symm),
      readLE_leBytes_mod]
    rfl

/-- A header reads as the descriptor that it was written for. -/
theorem ofHeader_header (d : Descriptor) : ofHeader d.opening d.closing = .ok d.wrapped := by
  obtain ⟨hflags, hcode⟩ := d.byteAt_opening
  obtain ⟨_, _, _, hind, hblock, _, hcontent, _⟩ := d.flags_bits
  unfold ofHeader
  simp only [bind_eq_ok_iff, check_eq_ok_iff, pure_eq_ok_iff, hflags, hcode, hasContentSize_flags,
    hasDictionary_flags,
    restLength_opening, hind, hblock, hcontent, decide_bit, sizeField_read, dictionaryField_read]
  exact ⟨d.closing.size, rfl, fun h => h rfl, d.blockSize, (blockSize_code d.blockSize).2.2, rfl⟩

/-- A header is read from its two parts, and nothing behind it matters. -/
theorem read_eq_ok_iff {src : ByteArray} {d : Descriptor} {used : Nat} : read src = .ok (d, used) ↔
    ∃ start rest tail, src = start ++ (rest ++ tail) ∧ start.size = headerStart ∧
      restLength start = .ok rest.size ∧ ofHeader start rest = .ok d ∧ used = headerStart + rest.size := by
  unfold read
  simp only [bind_eq_ok_iff, check_eq_ok_iff, pure_eq_ok_iff, Prod.mk.injEq, Nat.not_lt]
  constructor
  · intro h
    obtain ⟨hstart, n, hn, hrest, d', hd, rfl, rfl⟩ := h
    have hsize : (src.extract headerStart (headerStart + n)).size = n := by
      rw [ByteArray.size_extract]
      omega
    refine ⟨src.extract 0 headerStart, src.extract headerStart (headerStart + n),
      dropBytes src (headerStart + n), ?_, ?_, ?_, hd, ?_⟩
    · rw [extract_append_dropBytes (Nat.le_add_right _ _) hrest,
        extract_append_dropBytes (Nat.zero_le _) hstart, dropBytes_zero]
    · rw [ByteArray.size_extract]
      omega
    · rw [hsize, hn]
    · rw [hsize]
  · intro h
    obtain ⟨start, rest, tail, rfl, hstart, hn, hd, rfl⟩ := h
    have hfirst : (start ++ (rest ++ tail)).extract 0 headerStart = start :=
      ByteArray.extract_append_eq_left hstart.symm
    have hnext : (start ++ (rest ++ tail)).extract headerStart (headerStart + rest.size) = rest := by
      rw [← hstart, ← Nat.add_zero start.size, Nat.add_assoc, ByteArray.extract_append_size_add,
        Nat.zero_add]
      exact ByteArray.extract_append_eq_left rfl
    simp only [hfirst, ByteArray.size_append, hstart]
    refine ⟨by omega, rest.size, hn, by omega, d, ?_, rfl, rfl⟩
    rw [hnext]
    exact hd

/-- A header reads as what its fields keep of the descriptor, whatever follows it. -/
theorem read_header_append (d : Descriptor) (tail : ByteArray) :
    read (d.header ++ tail) = .ok (d.wrapped, d.header.size) := by
  rw [read_eq_ok_iff]
  refine ⟨d.opening, d.closing, tail, ?_, d.size_opening, d.restLength_opening, d.ofHeader_header, ?_⟩
  · rw [header_eq, ByteArray.append_assoc]
  · rw [header_eq, ByteArray.size_append, size_opening]

end LempelZiv.Descriptor
