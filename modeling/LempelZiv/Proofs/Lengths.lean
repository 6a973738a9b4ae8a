import LempelZiv.Block.Decompress
import LempelZiv.Proofs.Bytes
import LempelZiv.Proofs.Checked

namespace LempelZiv

/-- A length as it stands behind a token: 255s, then a smaller byte. -/
def lengthBytes (n : Nat) : ByteArray := (List.replicate (n / 255) 255 ++ [(n % 255).toUInt8]).toByteArray

/-- The bytes that a length has outside its half of the token. -/
def extension (n : Nat) : ByteArray :=
  if nibbleLimit ≤ n then lengthBytes (n - nibbleLimit) else ByteArray.empty

/-- A token and the bytes of the number of literals. -/
def tokenBytes (literals code : Nat) : ByteArray :=
  [(min literals nibbleLimit * 16 + code).toUInt8].toByteArray ++ extension literals

theorem lengthBytes_of_lt {n : Nat} (h : n < 255) : lengthBytes n = [n.toUInt8].toByteArray := by
  rw [lengthBytes, Nat.div_eq_of_lt h, Nat.mod_eq_of_lt h, List.replicate_zero, List.nil_append]

theorem lengthBytes_add (n : Nat) : lengthBytes (n + 255) = [255].toByteArray ++ lengthBytes n := by
  rw [lengthBytes, lengthBytes, Nat.add_div_right n (by decide), Nat.add_mod_right, List.replicate_succ,
    List.cons_append, ← List.singleton_append, List.toByteArray_append]

theorem size_lengthBytes (n : Nat) : (lengthBytes n).size = n / 255 + 1 := by
  rw [lengthBytes, List.size_toByteArray, List.length_append, List.length_replicate, List.length_singleton]

theorem size_lengthBytes_add (n : Nat) : (lengthBytes (n + 255)).size = 1 + (lengthBytes n).size := by
  rw [lengthBytes_add, ByteArray.size_append, List.size_toByteArray, List.length_singleton]

theorem size_tokenBytes (n code : Nat) : (tokenBytes n code).size = 1 + (extension n).size := by
  rw [tokenBytes, ByteArray.size_append, List.size_toByteArray, List.length_singleton]

theorem size_extension_le (n : Nat) : n < nibbleLimit + 255 * (extension n).size := by
  rw [extension]
  split
  next h => rw [size_lengthBytes]; omega
  next h => rw [ByteArray.size_empty]; omega

theorem putLength_eq (sink : ByteArray) (n : Nat) : putLength sink n = .ok (sink ++ lengthBytes n) := by
  induction n using Nat.strongRecOn generalizing sink with
  | ind n ih =>
    by_cases h : 255 ≤ n
    · obtain ⟨m, rfl⟩ := Nat.exists_eq_add_of_le' h
      rw [putLength_add]
      change putLength (sink.push 255) m = _
      rw [ih m (by omega), lengthBytes_add, ← ByteArray.append_toByteArray_singleton,
        ByteArray.append_assoc]
    · have hlt := Nat.lt_of_not_le h
      rw [putLength_of_lt sink hlt, lengthBytes_of_lt hlt, ByteArray.append_toByteArray_singleton]
      rfl

theorem putToken_eq (sink : ByteArray) (literals code : Nat) :
    putToken sink literals code = .ok (sink ++ tokenBytes literals code) := by
  have hp : putToken sink literals code =
      (if nibbleLimit ≤ literals then
        putLength (sink.push (min literals nibbleLimit * 16 + code).toUInt8) (literals - nibbleLimit)
      else .ok (sink.push (min literals nibbleLimit * 16 + code).toUInt8)) := rfl
  rw [hp, tokenBytes, extension, ← ByteArray.append_assoc, ByteArray.append_toByteArray_singleton]
  split
  next => rw [putLength_eq]
  next => rw [ByteArray.append_empty]

theorem hasAt_lengthBytes {src : ByteArray} {i n : Nat} : HasAt src i (lengthBytes n) ↔
    i < src.size ∧ (byteAt src i).toNat = min n 255 ∧
      (255 ≤ n → HasAt src (i + 1) (lengthBytes (n - 255))) := by
  by_cases h : 255 ≤ n
  · obtain ⟨m, rfl⟩ := Nat.exists_eq_add_of_le' h
    rw [lengthBytes_add, hasAt_append, hasAt_singleton, List.size_toByteArray, List.length_singleton,
      Nat.add_sub_cancel, and_assoc, Nat.min_eq_right h, ← UInt8.toNat_inj]
    simp [h]
  · have hm : n.toUInt8.toNat = min n 255 := by
      rw [UInt8.toNat_ofNat']
      omega
    rw [lengthBytes_of_lt (by omega), hasAt_singleton, ← UInt8.toNat_inj, hm]
    simp [h]

theorem hasAt_lengthBytes_of_full {src : ByteArray} {i n : Nat} (hbyte : (byteAt src i).toNat = 255) :
    HasAt src i (lengthBytes n) ↔ i < src.size ∧ 255 ≤ n ∧ HasAt src (i + 1) (lengthBytes (n - 255)) := by
  rw [hasAt_lengthBytes]
  constructor
  · intro h
    obtain ⟨hi, hmin, hrest⟩ := h
    exact ⟨hi, by omega, hrest (by omega)⟩
  · intro h
    obtain ⟨hi, hle, hrest⟩ := h
    exact ⟨hi, by omega, fun _ => hrest⟩

theorem hasAt_lengthBytes_of_short {src : ByteArray} {i n : Nat} (hbyte : (byteAt src i).toNat ≠ 255) :
    HasAt src i (lengthBytes n) ↔ i < src.size ∧ n = (byteAt src i).toNat := by
  have hlt := (byteAt src i).toNat_lt
  rw [hasAt_lengthBytes]
  constructor
  · intro h
    obtain ⟨hi, hmin, _⟩ := h
    exact ⟨hi, by omega⟩
  · intro h
    obtain ⟨hi, hn⟩ := h
    exact ⟨hi, by omega, by omega⟩

/-- Reading finds the length that was written, if a size can be that large. -/
theorem readLength_eq_ok_iff {src : ByteArray} {flaw : BlockFlaw} {ip used n total count : Nat} :
    Decoding.readLength src flaw ip used n = .ok (total, count) ↔
      ∃ m, total = n + m ∧ total < sizeLimit ∧ count = used + (lengthBytes m).size ∧
        HasAt src (ip + used) (lengthBytes m) := by
  fun_induction Decoding.readLength src flaw ip used n with
  | case1 used n h b f hadd =>
    refine ⟨fun he => (nomatch he), ?_⟩
    rintro ⟨m, rfl, hlt, _, hm⟩
    have hmin := (hasAt_lengthBytes.mp hm).2.1
    rw [byteAt_of_lt h] at hmin
    have hb : b.toNat = min m 255 := hmin
    have hok : addSize n b.toNat = .ok (n + b.toNat) := addSize_eq_ok (by omega)
    rw [hok] at hadd
    cases hadd
  | case2 used n h b n' hadd hb ih =>
    obtain ⟨rfl, _⟩ := addSize_eq_ok_iff.mp hadd
    have hbyte : b.toNat = 255 := congrArg UInt8.toNat hb
    have hfull : (byteAt src (ip + used)).toNat = 255 := by rwa [byteAt_of_lt h]
    rw [ih, hbyte]
    constructor
    · rintro ⟨m, rfl, hlt, rfl, hm⟩
      have hat := (@hasAt_lengthBytes_of_full src _ (m + 255) hfull).mpr
        ⟨h, Nat.le_add_left 255 m, by rwa [Nat.add_sub_cancel]⟩
      exact ⟨m + 255, by omega, hlt, by rw [size_lengthBytes_add]; omega, hat⟩
    · rintro ⟨m, rfl, hlt, rfl, hm⟩
      obtain ⟨_, hle, hrest⟩ := (hasAt_lengthBytes_of_full hfull).mp hm
      obtain ⟨k, rfl⟩ := Nat.exists_eq_add_of_le' hle
      rw [Nat.add_sub_cancel] at hrest
      exact ⟨k, by omega, hlt, by rw [size_lengthBytes_add]; omega, hrest⟩
  | case3 used n h b n' hadd hb =>
    obtain ⟨rfl, hlt⟩ := addSize_eq_ok_iff.mp hadd
    have hbyte : (byteAt src (ip + used)).toNat = b.toNat := by rw [byteAt_of_lt h]
    have hne : b.toNat ≠ 255 := fun he => hb (UInt8.toNat_inj.mp he)
    have hsize : (lengthBytes b.toNat).size = 1 := by
      rw [lengthBytes_of_lt (by have := b.toNat_lt; omega), List.size_toByteArray, List.length_singleton]
    rw [← hbyte] at hne
    constructor
    · intro he
      cases he
      exact ⟨b.toNat, rfl, hlt, by rw [hsize], (hasAt_lengthBytes_of_short hne).mpr ⟨h, hbyte.symm⟩⟩
    · rintro ⟨m, rfl, _, rfl, hm⟩
      rw [((hasAt_lengthBytes_of_short hne).mp hm).2, hbyte, hsize]
  | case4 used n h =>
    refine ⟨fun he => (nomatch he), ?_⟩
    rintro ⟨m, _, _, _, hm⟩
    exact absurd (hasAt_lengthBytes.mp hm).1 h

/-- Where one length stands, no other does. -/
theorem lengthBytes_unique {src : ByteArray} {i a b : Nat} (ha : HasAt src i (lengthBytes a))
    (hb : HasAt src i (lengthBytes b)) : a = b := by
  induction a using Nat.strongRecOn generalizing i b with
  | ind a ih =>
    obtain ⟨_, hmin, hrest⟩ := hasAt_lengthBytes.mp ha
    obtain ⟨_, hmin', hrest'⟩ := hasAt_lengthBytes.mp hb
    by_cases h : 255 ≤ a
    · have := ih (a - 255) (by omega) (hrest h) (hrest' (by omega))
      omega
    · omega

theorem tokenLength_eq_ok_iff {src : ByteArray} {flaw : BlockFlaw} {ip nibble n used : Nat}
    (hip : ip ≤ src.size) (hnibble : nibble ≤ nibbleLimit) :
    Decoding.tokenLength src flaw ip nibble = .ok (n, used) ↔
      nibble = min n nibbleLimit ∧ n < sizeLimit ∧ used = (extension n).size ∧
        HasAt src ip (extension n) := by
  rw [Decoding.tokenLength]
  split
  next h =>
    rw [readLength_eq_ok_iff]
    constructor
    · rintro ⟨m, rfl, hlt, rfl, hm⟩
      have he : extension (nibble + m) = lengthBytes m := by
        rw [extension, if_pos (by omega), h, Nat.add_sub_cancel_left]
      rw [he]
      exact ⟨by omega, hlt, by omega, hm⟩
    · rintro ⟨hmin, hlt, rfl, hn⟩
      have he : extension n = lengthBytes (n - nibbleLimit) := by rw [extension, if_pos (by omega)]
      rw [he] at hn ⊢
      exact ⟨n - nibbleLimit, by omega, hlt, by omega, hn⟩
  next h =>
    have he : n < nibbleLimit → extension n = ByteArray.empty :=
      fun hn => by rw [extension, if_neg (by omega)]
    constructor
    · intro hok
      cases hok
      rw [he (by omega)]
      exact ⟨by omega, by simp only [sizeLimit, nibbleLimit] at *; omega, rfl, hasAt_empty.mpr hip⟩
    · rintro ⟨hmin, _, rfl, _⟩
      rw [he (by omega), ByteArray.size_empty, show nibble = n by omega]

theorem hasAt_tokenBytes {src : ByteArray} {ip n code : Nat} (hcode : code < 16) :
    HasAt src ip (tokenBytes n code) ↔ ip < src.size ∧ (byteAt src ip).toNat / 16 = min n nibbleLimit ∧
      (byteAt src ip).toNat % 16 = code ∧ HasAt src (ip + 1) (extension n) := by
  have hbyte : byteAt src ip = (min n nibbleLimit * 16 + code).toUInt8 ↔
      (byteAt src ip).toNat / 16 = min n nibbleLimit ∧ (byteAt src ip).toNat % 16 = code := by
    have hlt := (byteAt src ip).toNat_lt
    have hmin : min n nibbleLimit ≤ 15 := Nat.min_le_right _ _
    rw [← UInt8.toNat_inj, UInt8.toNat_ofNat']
    omega
  rw [tokenBytes, hasAt_append, hasAt_singleton, hbyte, List.size_toByteArray, List.length_singleton,
    and_assoc, and_assoc]

theorem extension_unique {src : ByteArray} {i a b : Nat} (hmin : min a nibbleLimit = min b nibbleLimit)
    (ha : HasAt src i (extension a)) (hb : HasAt src i (extension b)) : a = b := by
  by_cases h : nibbleLimit ≤ a
  · rw [extension, if_pos h] at ha
    rw [extension, if_pos (by omega)] at hb
    have := lengthBytes_unique ha hb
    omega
  · omega

end LempelZiv
