import LempelZiv.Proofs.BlockLanguage
import LempelZiv.Proofs.BlockRoundTrip

namespace LempelZiv

/-- What the format wants of a match at `start` in a block for the bytes from `lo` to `hi`: its source is not
the first of them, and the last of them are literals. -/
structure Match.Lawful (m : Match) (window lo hi start : Nat) : Prop where
  offset_pos : 1 ≤ m.offset
  offset_le : m.offset ≤ window
  source_gt : lo + m.offset < start
  minMatch_le : minMatch ≤ m.length
  length_le : m.length ≤ maxMatchLength
  start_le : start + matchMargin ≤ hi
  end_le : start + m.length + lastLiterals ≤ hi

/-- The block is the bytes of `src` in order, each match as `rule` wants it, and it ends in literals. -/
structure Parse.Spells (p : Parse) (src : ByteArray) (rule : (start : Nat) → Match → Prop) : Prop where
  covers : ∃ stop, Covers src rule 0 stop p.sequences ∧ p.tail = dropBytes src stop
  spare_eq : p.spare = 0
  tail_ge : min lastLiterals src.size ≤ p.tail.size

theorem Parse.eq_of_bytes_eq {p q : Parse} (h : q.bytes = p.bytes) : q = p := by
  have hq : HasAt p.bytes 0 q.bytes := h ▸ hasAt_self q.bytes
  have hsize : 0 + q.bytes.size = p.bytes.size := by simp [h]
  exact Parse.unique hq hsize (hasAt_self p.bytes) (Nat.zero_add _)

variable {src : ByteArray} {rule rule' : Nat → Match → Prop} {anchor stop : Nat} {ss : List Sequence}

theorem Covers.imp (himp : ∀ start (s : Sequence), rule start ⟨s.offset, s.length⟩ →
    rule' start ⟨s.offset, s.length⟩) (h : Covers src rule anchor stop ss) :
    Covers src rule' anchor stop ss := by
  induction h with
  | nil le => exact .nil le
  | cons le literals stands kept _ ih => exact .cons le literals stands (himp _ _ kept) ih

/-- Where no match comes near the end, the literals after the last of them are enough to end a block. -/
theorem Covers.stop_le (hend : ∀ start m, rule start m → start + m.length + lastLiterals ≤ src.size)
    (h : Covers src rule anchor stop ss) : stop = anchor ∨ stop + lastLiterals ≤ src.size := by
  induction h with
  | nil => exact .inl rfl
  | @cons _ start _ s _ _ _ _ kept _ ih =>
    have hle : start + s.length + lastLiterals ≤ src.size := hend _ _ kept
    rcases ih with heq | hlater
    · exact .inr (by omega)
    · exact .inr hlater

/-- Sequences that cover the input, and the literals after them, are a block for it. -/
theorem Covers.spells (hend : ∀ start m, rule start m → start + m.length + lastLiterals ≤ src.size)
    (h : Covers src rule 0 stop ss) : Parse.Spells ⟨ss, dropBytes src stop, 0, by decide⟩ src rule := by
  refine ⟨⟨stop, h, rfl⟩, rfl, ?_⟩
  have hstop := h.stop_le hend
  simp only [size_dropBytes]
  omega

/-- A match of a sequence has an offset and a length that can be written, so its place decides. -/
theorem Match.PlacedIn.lawful {s : Sequence} {size window start : Nat}
    (h : Match.PlacedIn ⟨s.offset, s.length⟩ size window start) :
    Match.Lawful ⟨s.offset, s.length⟩ window 0 size start := by
  have hsource := h.offset_lt
  exact ⟨s.offset_pos, h.offset_le, by omega, s.minMatch_le, h.length_le, h.start_le, h.end_le⟩

/-- Packing ends every block as the format wants it, whatever the search has found. -/
theorem packChunk_lawful (src : ByteArray) (o : BlockOptions) (hsize : src.size < 2 ^ 32) :
    o.params.windowSize ≤ maxDistance ∧ ∃ p : Parse, packChunk src o = .ok p.bytes ∧
      (∀ q : Parse, q.bytes = p.bytes → q = p) ∧
      p.Spells src fun start m => m.Lawful o.params.windowSize 0 src.size start := by
  obtain ⟨ss, stop, hcovers, hpack, _⟩ := packChunk_covers o hsize
  have hlawful : Covers src (fun start m => m.Lawful o.params.windowSize 0 src.size start) 0 stop ss :=
    hcovers.imp fun _ _ h => h.lawful
  have hwindow : o.params.windowSize ≤ maxDistance := (o.level.params_sane o.variant).windowSize_le
  exact ⟨hwindow, _, hpack, fun q h => Parse.eq_of_bytes_eq h, hlawful.spells fun start m h => h.end_le⟩

/-- Of fourteen equal bytes only the third can begin a match. -/
theorem packChunk_lawful_at_margin :
    (⟨#[7, 7, 7, 7, 7, 7, 7, 7, 7, 7, 7, 7, 7, 7]⟩ : ByteArray).size < 2 ^ 32 ∧
      ∃ p : Parse,
        packChunk ⟨#[7, 7, 7, 7, 7, 7, 7, 7, 7, 7, 7, 7, 7, 7]⟩ ⟨Level.highest, .improved⟩ = .ok p.bytes ∧
        p.Spells ⟨#[7, 7, 7, 7, 7, 7, 7, 7, 7, 7, 7, 7, 7, 7]⟩ fun start m => m.Lawful 65535 0 14 start := by
  have hsize : (⟨#[7, 7, 7, 7, 7, 7, 7, 7, 7, 7, 7, 7, 7, 7]⟩ : ByteArray).size < 2 ^ 32 := by decide
  obtain ⟨_, p, hpack, _, hspells⟩ := packChunk_lawful _ ⟨Level.highest, .improved⟩ hsize
  exact ⟨hsize, p, hpack, hspells⟩

end LempelZiv
