import LempelZiv.Bytes
import Mathlib.Algebra.Ring.Nat

namespace LempelZiv

theorem byteAt_of_lt {src : ByteArray} {i : Nat} (h : i < src.size) : byteAt src i = src[i] :=
  dif_pos h

theorem byteAt_append_left {a : ByteArray} {i : Nat} (b : ByteArray) (h : i < a.size) :
    byteAt (a ++ b) i = byteAt a i := by
  have hs : i < (a ++ b).size := by rw [ByteArray.size_append]; omega
  rw [byteAt_of_lt hs, byteAt_of_lt h, ByteArray.getElem_append_left h]

theorem byteAt_append_right (a b : ByteArray) (i : Nat) : byteAt (a ++ b) (a.size + i) = byteAt b i := by
  by_cases h : i < b.size
  · have hs : a.size + i < (a ++ b).size := by rw [ByteArray.size_append]; omega
    rw [byteAt_of_lt hs, byteAt_of_lt h, ByteArray.getElem_append_right (by omega)]
    simp only [Nat.add_sub_cancel_left]
  · have hs : ¬a.size + i < (a ++ b).size := by rw [ByteArray.size_append]; omega
    simp only [byteAt, dif_neg h, dif_neg hs]

theorem byteAt_extract {src : ByteArray} {start stop i : Nat} (h : start + i < stop) :
    byteAt (src.extract start stop) i = byteAt src (start + i) := by
  by_cases hs : start + i < src.size
  · have he : i < (src.extract start stop).size := by rw [ByteArray.size_extract]; omega
    rw [byteAt_of_lt he, byteAt_of_lt hs, ByteArray.getElem_extract]
  · have he : ¬i < (src.extract start stop).size := by rw [ByteArray.size_extract]; omega
    simp only [byteAt, dif_neg hs, dif_neg he]

theorem isEmpty_iff {b : ByteArray} : b.isEmpty = true ↔ b.size = 0 := by simp [ByteArray.isEmpty]

theorem extract_succ {src : ByteArray} {start stop : Nat} (hs : start ≤ stop) (h : stop < src.size) :
    src.extract start (stop + 1) = (src.extract start stop).push (byteAt src stop) := by
  rw [ByteArray.extract_eq_extract_append_extract stop hs (by omega), ByteArray.extract_add_one (by omega),
    byteAt_of_lt h, ByteArray.append_toByteArray_singleton]

theorem extract_append_extract_of_le {src : ByteArray} {i j k : Nat} (hi : i ≤ j) (hk : j ≤ k) :
    src.extract i j ++ src.extract j k = src.extract i k :=
  (ByteArray.extract_eq_extract_append_extract j hi hk).symm

theorem extract_append_left {a : ByteArray} {i j : Nat} (b : ByteArray) (hj : j ≤ a.size) :
    (a ++ b).extract i j = a.extract i j := by
  have hnone : b.extract (i - a.size) (j - a.size) = ByteArray.empty :=
    ByteArray.extract_eq_empty_iff.mpr (by omega)
  rw [ByteArray.extract_append, hnone, ByteArray.append_empty]

theorem extract_append_dropBytes {src : ByteArray} {i j : Nat} (hi : i ≤ j) (hj : j ≤ src.size) :
    src.extract i j ++ dropBytes src j = dropBytes src i :=
  extract_append_extract_of_le hi hj

@[simp] theorem dropBytes_zero (src : ByteArray) : dropBytes src 0 = src := ByteArray.extract_zero_size

theorem extract_zero_append_dropBytes {src : ByteArray} {i : Nat} (hi : i ≤ src.size) :
    src.extract 0 i ++ dropBytes src i = src := by
  rw [extract_append_dropBytes (Nat.zero_le _) hi, dropBytes_zero]

@[simp] theorem size_dropBytes (src : ByteArray) (i : Nat) : (dropBytes src i).size = src.size - i := by
  rw [dropBytes, ByteArray.size_extract, Nat.min_self]

/-- Of two equal joints the longer front begins with the shorter one. -/
theorem exists_append_of_size_le {a b c e : ByteArray} (h : a ++ b = c ++ e) (hle : c.size ≤ a.size) :
    ∃ more, a = c ++ more ∧ e = more ++ b := by
  have hcut := extract_zero_append_dropBytes hle
  have hsize : (a.extract 0 c.size).size = c.size := by
    rw [ByteArray.size_extract]
    omega
  rw [← hcut, ByteArray.append_assoc] at h
  obtain ⟨hfront, hback⟩ := (ByteArray.append_eq_append_iff_of_size_eq_left hsize).mp h
  rw [hfront] at hcut
  exact ⟨dropBytes a c.size, hcut.symm, hback.symm⟩

theorem dropBytes_of_le {bytes : ByteArray} {i : Nat} (h : bytes.size ≤ i) :
    dropBytes bytes i = ByteArray.empty :=
  ByteArray.size_eq_zero_iff.mp (by rw [size_dropBytes]; omega)

theorem dropBytes_append_add (a b : ByteArray) (i : Nat) :
    dropBytes (a ++ b) (a.size + i) = dropBytes b i := by
  rw [dropBytes, ByteArray.size_append, ByteArray.extract_append_size_add, dropBytes]

theorem dropBytes_append (a b : ByteArray) : dropBytes (a ++ b) a.size = b := by
  simpa using dropBytes_append_add a b 0

theorem dropBytes_dropBytes {src : ByteArray} {i : Nat} (j : Nat) (hi : i ≤ src.size) :
    dropBytes (dropBytes src i) j = dropBytes src (i + j) := by
  rw [dropBytes, size_dropBytes, dropBytes, ByteArray.extract_extract, Nat.add_sub_cancel' hi,
    Nat.min_self, dropBytes]

theorem leBytes_succ (k n : Nat) : leBytes (k + 1) n = [n.toUInt8].toByteArray ++ leBytes k (n / 256) := by
  rw [leBytes, pushLE, pushLE_eq_append, ← ByteArray.append_toByteArray_singleton, ByteArray.empty_append]

theorem readLE_append (a b : ByteArray) (i k : Nat) : readLE (a ++ b) (a.size + i) k = readLE b i k := by
  induction k generalizing i with
  | zero => rfl
  | succ k ih => rw [readLE, readLE, byteAt_append_right, Nat.add_assoc, ih]

theorem readLE_append_left {a : ByteArray} {i k : Nat} (b : ByteArray) (h : i + k ≤ a.size) :
    readLE (a ++ b) i k = readLE a i k := by
  induction k generalizing i with
  | zero => rfl
  | succ k ih => rw [readLE, readLE, byteAt_append_left b (by omega), ih (by omega)]

theorem readLE_leBytes_mod (k n : Nat) : readLE (leBytes k n) 0 k = n % 256 ^ k := by
  induction k generalizing n with
  | zero => rw [readLE, Nat.pow_zero, Nat.mod_one]
  | succ k ih =>
    have hr := readLE_append [n.toUInt8].toByteArray (leBytes k (n / 256)) 0 k
    have hb := byteAt_append_left (leBytes k (n / 256)) (by simp : 0 < [n.toUInt8].toByteArray.size)
    rw [leBytes_succ, readLE, hb, byteAt_of_lt (by simp),
      show (0 : Nat) + 1 = [n.toUInt8].toByteArray.size + 0 by simp,
      hr, ih, Nat.pow_succ, Nat.mul_comm (256 ^ k), Nat.mod_mul]
    simp

theorem readLE_leBytes {k n : Nat} (h : n < 256 ^ k) : readLE (leBytes k n) 0 k = n := by
  rw [readLE_leBytes_mod, Nat.mod_eq_of_lt h]

theorem leBytes_readLE {src : ByteArray} {i k : Nat} (h : i + k ≤ src.size) :
    leBytes k (readLE src i k) = src.extract i (i + k) := by
  induction k generalizing i with
  | zero => simp [leBytes, pushLE]
  | succ k ih =>
    have hb := (byteAt src i).toNat_lt
    have hlow : (readLE src i (k + 1)).toUInt8 = byteAt src i := by
      rw [readLE, ← UInt8.toNat_inj]
      simp
    have hrest : readLE src i (k + 1) / 256 = readLE src (i + 1) k := by rw [readLE]; omega
    rw [leBytes_succ, hlow, hrest, ih (by omega), byteAt_of_lt (by omega),
      ← ByteArray.extract_add_one (by omega),
      extract_append_extract_of_le (by omega) (by omega), Nat.add_assoc, Nat.add_comm 1 k]

theorem leBytes_byteAt {src : ByteArray} {i : Nat} (h : i < src.size) :
    leBytes 1 (byteAt src i).toNat = src.extract i (i + 1) := leBytes_readLE h

theorem readLE_lt (src : ByteArray) (i k : Nat) : readLE src i k < 256 ^ k := by
  induction k generalizing i with
  | zero => simp [readLE]
  | succ k ih =>
    have hb := (byteAt src i).toNat_lt
    have hr := ih (i + 1)
    rw [readLE, Nat.pow_succ]
    omega

/-- The bytes of `src` from `i` on begin with `bytes`. -/
structure HasAt (src : ByteArray) (i : Nat) (bytes : ByteArray) : Prop where
  le : i + bytes.size ≤ src.size
  eq : src.extract i (i + bytes.size) = bytes

theorem hasAt_append {src a b : ByteArray} {i : Nat} :
    HasAt src i (a ++ b) ↔ HasAt src i a ∧ HasAt src (i + a.size) b := by
  have split : src.extract i (i + (a ++ b).size) =
      src.extract i (i + a.size) ++ src.extract (i + a.size) (i + a.size + b.size) := by
    rw [extract_append_extract_of_le (by omega) (by omega), ByteArray.size_append, Nat.add_assoc]
  constructor
  · rintro ⟨hle, he⟩
    rw [ByteArray.size_append] at hle
    rw [split, ByteArray.append_eq_append_iff_of_size_eq_left (by rw [ByteArray.size_extract]; omega)] at he
    exact ⟨⟨by omega, he.1⟩, ⟨by omega, he.2⟩⟩
  · rintro ⟨⟨_, ha⟩, ⟨hle, hb⟩⟩
    exact ⟨by rw [ByteArray.size_append]; omega, by rw [split, ha, hb]⟩

theorem hasAt_empty {src : ByteArray} {i : Nat} : HasAt src i ByteArray.empty ↔ i ≤ src.size :=
  ⟨fun h => h.le, fun h => ⟨h, by simp⟩⟩

theorem hasAt_singleton {src : ByteArray} {i : Nat} {b : UInt8} :
    HasAt src i [b].toByteArray ↔ i < src.size ∧ byteAt src i = b := by
  constructor
  · rintro ⟨hle, he⟩
    rw [List.size_toByteArray, List.length_singleton] at hle he
    have hi : i < src.size := by omega
    rw [ByteArray.extract_add_one (by omega)] at he
    exact ⟨hi, by simpa [byteAt_of_lt hi] using he⟩
  · rintro ⟨hi, hb⟩
    rw [byteAt_of_lt hi] at hb
    refine ⟨?_, by simp [ByteArray.extract_add_one hi, hb]⟩
    rw [List.size_toByteArray, List.length_singleton]
    omega

theorem hasAt_extract {src : ByteArray} {i j : Nat} (hi : i ≤ j) (hj : j ≤ src.size) :
    HasAt src i (src.extract i j) := by
  have hs : i + (src.extract i j).size = j := by rw [ByteArray.size_extract]; omega
  exact ⟨by omega, by rw [hs]⟩

theorem hasAt_leBytes {src : ByteArray} {i k n : Nat} (hn : n < 256 ^ k) :
    HasAt src i (leBytes k n) ↔ i + k ≤ src.size ∧ readLE src i k = n := by
  constructor
  · rintro ⟨hle, he⟩
    rw [size_leBytes] at hle he
    have hs : (src.extract 0 i).size = i := by rw [ByteArray.size_extract]; omega
    have hsplit : src.extract 0 i ++ (leBytes k n ++ dropBytes src (i + k)) = src := by
      rw [← he, extract_append_dropBytes (by omega) hle,
        extract_append_dropBytes (by omega) (by omega), dropBytes_zero]
    have hr := readLE_append (src.extract 0 i) (leBytes k n ++ dropBytes src (i + k)) 0 k
    rw [hsplit, hs, Nat.add_zero, readLE_append_left _ (by rw [size_leBytes]; omega),
      readLE_leBytes hn] at hr
    exact ⟨hle, hr⟩
  · rintro ⟨hle, hr⟩
    exact ⟨by rwa [size_leBytes], by rw [size_leBytes, ← leBytes_readLE hle, hr]⟩

theorem HasAt.unique {src a b : ByteArray} {i : Nat} (ha : HasAt src i a) (hb : HasAt src i b)
    (hs : a.size = b.size) : a = b := by
  rw [← ha.eq, ← hb.eq, hs]

theorem hasAt_self (src : ByteArray) : HasAt src 0 src := ⟨by omega, by simp⟩

theorem HasAt.eq_of_size {src a : ByteArray} (h : HasAt src 0 a) (hs : a.size = src.size) : a = src :=
  h.unique (hasAt_self src) hs

theorem hasAt_of_dropBytes {src a b : ByteArray} {i : Nat} (hi : i ≤ src.size)
    (h : dropBytes src i = a ++ b) :
    HasAt src i a := by
  have hs : (a ++ b).size = src.size - i := by rw [← h, size_dropBytes]
  have hab : HasAt src i (a ++ b) := by
    rw [← h]
    exact hasAt_extract hi (Nat.le_refl _)
  exact (hasAt_append.mp hab).1

end LempelZiv
