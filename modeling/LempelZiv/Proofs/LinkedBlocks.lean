import LempelZiv.Proofs.FarHistory
import LempelZiv.Proofs.Records

namespace LempelZiv

theorem decompressInto_behind_eq_ok_iff {src near more : ByteArray} {limit n : Nat} (far : ByteArray)
    (hreach : maxDistance ≤ near.size) :
    decompressInto src (far ++ near) limit = (.ok n, far ++ near ++ more) ↔
      decompressInto src near limit = (.ok n, near ++ more) := by
  rw [decompressInto_behind far hreach, ByteArray.append_assoc]
  simp only [Prod.ext_iff, ByteArray.append_right_inj]

namespace Descriptor

/-- The content so far that the matches of the next block may reach. -/
def reach (d : Descriptor) (out : ByteArray) : ByteArray :=
  if d.independent then ByteArray.empty else out

theorem reach_cut (d : Descriptor) (out : ByteArray) :
    ∃ far, d.reach out = far ++ d.history out ∧
      (far = ByteArray.empty ∨ maxDistance ≤ (d.history out).size) := by
  unfold reach history
  by_cases hind : d.independent
  · refine ⟨ByteArray.empty, ?_, .inl rfl⟩
    simp only [if_pos hind, ByteArray.empty_append]
  have hcut : out.extract 0 (out.size - linkedHistory) ++
      out.extract (out.size - linkedHistory) out.size = out := by
    rw [extract_append_extract_of_le (Nat.zero_le _) (Nat.sub_le _ _), ByteArray.extract_zero_size]
  refine ⟨out.extract 0 (out.size - linkedHistory), ?_, ?_⟩
  · simp only [if_neg hind, hcut]
  by_cases hshort : out.size ≤ linkedHistory
  · left
    rw [Nat.sub_eq_zero_of_le hshort]
    exact ByteArray.size_eq_zero_iff.mp (by simp)
  · right
    simp only [if_neg hind, ByteArray.size_extract]
    rw [linkedHistory] at *
    rw [maxDistance]
    omega

/-- The decoded bytes that a reader keeps are all that a match of the next block can reach. -/
theorem adds_reach_iff {d : Descriptor} {b : Record} {most : Nat} {out more : ByteArray} :
    b.Adds most (d.reach out) more ↔ b.Adds most (d.history out) more := by
  obtain ⟨far, hcut, hfar⟩ := d.reach_cut out
  unfold Record.Adds
  rcases hfar with hnone | hreach
  · rw [hcut, hnone, ByteArray.empty_append]
  · rw [hcut, decompressInto_behind_eq_ok_iff far hreach]

/-- The blocks in turn lead from the content `out` to the content `result`, and those of a linked frame
may reach the whole content before them. -/
inductive Unfolds (d : Descriptor) : ByteArray → List Record → ByteArray → Prop
  | nil {out : ByteArray} : Unfolds d out [] out
  | cons {out more result : ByteArray} {b : Record} {bs : List Record} (fits : b.Fits d.blockSize.bytes)
      (adds : b.Adds d.blockSize.bytes (d.reach out) more) (rest : Unfolds d (out ++ more) bs result) :
      Unfolds d out (b :: bs) result

/-- What is left behind the content `out` does not begin with a block. -/
def NoRecord (d : Descriptor) (out left : ByteArray) : Prop :=
  ∀ (b : Record) (more tail : ByteArray), left = b.bytes d.blockChecksum ++ tail →
    b.Fits d.blockSize.bytes → ¬b.Adds d.blockSize.bytes (d.reach out) more

theorem unfolds_iff_decodes {d : Descriptor} {out result : ByteArray} {bs : List Record} :
    d.Unfolds out bs result ↔ d.Decodes out bs result := by
  constructor
  · intro h
    induction h with
    | nil => exact .nil
    | cons fits adds _ ih => exact .cons fits (adds_reach_iff.mp adds) ih
  · intro h
    induction h with
    | nil => exact .nil
    | cons fits adds _ ih => exact .cons fits (adds_reach_iff.mpr adds) ih

end Descriptor

end LempelZiv
