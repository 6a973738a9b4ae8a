import LempelZiv.Proofs.BlockLanguage

namespace LempelZiv

/-- The match repeats bytes of `src` at `start`, and stays inside. -/
structure Sequence.StandsAt (s : Sequence) (src : ByteArray) (start : Nat) : Prop where
  offset_le : s.offset ≤ start
  end_le : start + s.length ≤ src.size
  equal : ∀ i < s.length, byteAt src (start - s.offset + i) = byteAt src (start + i)

/-- Sequences that are the bytes of `src` from `anchor` to `stop`, each match as `rule` wants it. -/
inductive Covers (src : ByteArray) (rule : (start : Nat) → Match → Prop) :
    (anchor stop : Nat) → List Sequence → Prop
  | nil {stop : Nat} (le : stop ≤ src.size) : Covers src rule stop stop []
  | cons {anchor start stop : Nat} {s : Sequence} {ss : List Sequence} (le : anchor ≤ start)
      (literals : s.literals = src.extract anchor start) (stands : s.StandsAt src start)
      (kept : rule start ⟨s.offset, s.length⟩)
      (rest : Covers src rule (start + s.length) stop ss) : Covers src rule anchor stop (s :: ss)

variable {src : ByteArray} {rule : Nat → Match → Prop} {anchor stop : Nat} {ss : List Sequence}

theorem Covers.le (h : Covers src rule anchor stop ss) : anchor ≤ stop ∧ stop ≤ src.size := by
  induction h with
  | nil le => exact ⟨Nat.le_refl _, le⟩
  | cons le _ _ _ _ ih => exact ⟨by omega, ih.2⟩

theorem Sequence.StandsAt.expand {s : Sequence} {start : Nat} (h : s.StandsAt src start)
    (hle : anchor ≤ start)
    (hl : s.literals = src.extract anchor start) :
    s.expand (src.extract 0 anchor) = src.extract 0 (start + s.length) := by
  rw [Sequence.expand, hl, extract_append_extract_of_le (Nat.zero_le _) hle]
  exact copyBack_extract h.offset_le h.end_le h.equal s.offset_pos

theorem Covers.expandAll_eq (h : Covers src rule anchor stop ss) :
    expandAll (src.extract 0 anchor) ss = src.extract 0 stop := by
  induction h with
  | nil _ => rfl
  | cons le literals stands _ _ ih => rw [expandAll_cons, stands.expand le literals, ih]

theorem Covers.within (h : Covers src rule anchor stop ss) : Within anchor ss := by
  induction h with
  | nil _ => trivial
  | @cons anchor start stop s ss le literals stands _ _ ih =>
    have hs : anchor + s.literals.size = start := by
      have hend := stands.end_le
      rw [literals, ByteArray.size_extract]
      omega
    rw [Within, hs]
    exact ⟨stands.offset_le, ih⟩

theorem Covers.sized (h : Covers src rule anchor stop ss) :
    ∀ s ∈ ss, s.literals.size ≤ src.size ∧ s.length ≤ src.size := by
  induction h with
  | nil _ => exact fun s hs => (nomatch hs)
  | cons le literals stands _ _ ih =>
    intro s hs
    rcases List.mem_cons.mp hs with rfl | hs
    · have hend := stands.end_le
      rw [literals, ByteArray.size_extract]
      omega
    · exact ih s hs

theorem Covers.append {mid : Nat} {ts : List Sequence} (hs : Covers src rule anchor mid ss)
    (ht : Covers src rule mid stop ts) : Covers src rule anchor stop (ss ++ ts) := by
  induction hs with
  | nil _ => exact ht
  | cons le literals stands kept _ ih => exact .cons le literals stands kept (ih ht)

/-- A block whose sequences and last literals are the bytes of `src` decodes to it. -/
theorem Covers.decompress {spare : Nat} (h : Covers src rule 0 stop ss) (hspare : spare < 16)
    (hsrc : src.size < sizeLimit)
    {limit : Nat} (hlimit : src.size ≤ limit) :
    LempelZiv.decompress (Parse.bytes ⟨ss, dropBytes src stop, spare, hspare⟩) limit = .ok src := by
  have hexpand : Parse.expand ⟨ss, dropBytes src stop, spare, hspare⟩ ByteArray.empty = src := by
    have hall := h.expandAll_eq
    rw [ByteArray.extract_same] at hall
    rw [Parse.expand, hall, extract_append_dropBytes (Nat.zero_le _) h.le.2, dropBytes_zero]
  have hsize := Parse.size_expand ⟨ss, dropBytes src stop, spare, hspare⟩ ByteArray.empty
  rw [hexpand, ByteArray.size_empty, Nat.zero_add] at hsize
  have hsized : ∀ s ∈ ss, s.literals.size < sizeLimit ∧ s.length < sizeLimit := by
    intro s hs
    obtain ⟨hl, hn⟩ := h.sized s hs
    exact ⟨by omega, by omega⟩
  have htail : (dropBytes src stop).size < sizeLimit := by
    rw [size_dropBytes]
    omega
  have hok := @decompressInto_of_parse ByteArray.empty limit
    ⟨ss, dropBytes src stop, spare, hspare⟩ h.within
    (by rwa [← hsize]) htail hsized
  rw [LempelZiv.decompress, hok, hexpand]

end LempelZiv
