import LempelZiv.Proofs.Copy
import LempelZiv.Proofs.Lengths

namespace LempelZiv

/-- A block by its parts: sequences, the literals after the last of them, and what stands in the half of
the last token that no match uses. -/
structure Parse where
  sequences : List Sequence
  tail : ByteArray
  spare : Nat
  spare_lt : spare < 16

/-- Writes the sequences in turn, then the literals. -/
def Parse.write {σ : Type} [ByteSink σ] (p : Parse) (sink : σ) : Except Fault σ := do
  let sink ← p.sequences.foldlM (fun sink s => s.write sink) sink
  let sink ← putToken sink p.tail.size p.spare
  putAll sink p.tail

/-- What the sequences make of the bytes before them. -/
def expandAll (out : ByteArray) (ss : List Sequence) : ByteArray := ss.foldl Sequence.expand out

def Parse.expand (p : Parse) (out : ByteArray) : ByteArray := expandAll out p.sequences ++ p.tail

/-- The number of bytes that the sequences add. -/
def expandedSize (ss : List Sequence) : Nat := (ss.map fun s => s.literals.size + s.length).sum

def Parse.expandedSize (p : Parse) : Nat := LempelZiv.expandedSize p.sequences + p.tail.size

/-- No match reaches back over more than the bytes present, of which there are `present` at first. -/
def Within : (present : Nat) → List Sequence → Prop
  | _, [] => True
  | present, s :: ss => s.offset ≤ present + s.literals.size ∧
      Within (present + s.literals.size + s.length) ss

instance Within.decidable : (present : Nat) → (ss : List Sequence) → Decidable (Within present ss)
  | _, [] => isTrue trivial
  | present, s :: ss =>
    have := Within.decidable (present + s.literals.size + s.length) ss
    inferInstanceAs (Decidable (_ ∧ _))

def Sequence.bytes (s : Sequence) : ByteArray :=
  tokenBytes s.literals.size (min (s.length - minMatch) nibbleLimit) ++ s.literals ++ leBytes 2 s.offset
    ++ extension (s.length - minMatch)

def sequencesBytes : List Sequence → ByteArray
  | [] => ByteArray.empty
  | s :: ss => s.bytes ++ sequencesBytes ss

def Parse.bytes (p : Parse) : ByteArray :=
  sequencesBytes p.sequences ++ tokenBytes p.tail.size p.spare ++ p.tail

def Parse.last (tail : ByteArray) (spare : Nat) (h : spare < 16) : Parse := ⟨[], tail, spare, h⟩

def Parse.cons (s : Sequence) (p : Parse) : Parse := { p with sequences := s :: p.sequences }

/-- Blocks are built from their end. -/
@[induction_eliminator, cases_eliminator]
theorem Parse.building {motive : Parse → Prop}
    (last : ∀ tail spare (h : spare < 16), motive (.last tail spare h))
    (cons : ∀ s p, motive p → motive (.cons s p)) (p : Parse) : motive p := by
  obtain ⟨ss, tail, spare, h⟩ := p
  induction ss with
  | nil => exact last tail spare h
  | cons s ss ih => exact cons s ⟨ss, tail, spare, h⟩ ih

theorem Parse.bytes_last {tail : ByteArray} {spare : Nat} (h : spare < 16) :
    (Parse.last tail spare h).bytes = tokenBytes tail.size spare ++ tail := by
  rw [Parse.bytes, Parse.last, sequencesBytes, ByteArray.empty_append]

theorem Parse.bytes_cons (s : Sequence) (p : Parse) : (p.cons s).bytes = s.bytes ++ p.bytes := by
  rw [Parse.bytes, Parse.cons, sequencesBytes, Parse.bytes, ByteArray.append_assoc, ByteArray.append_assoc,
    ByteArray.append_assoc]

theorem hasAt_last {src tail : ByteArray} {ip spare : Nat} {h : spare < 16} :
    HasAt src ip (Parse.last tail spare h).bytes ↔
      HasAt src ip (tokenBytes tail.size spare) ∧ HasAt src (ip + 1 + (extension tail.size).size) tail := by
  rw [Parse.bytes_last, hasAt_append, size_tokenBytes, Nat.add_assoc]

theorem Parse.size_bytes_last {tail : ByteArray} {spare : Nat} (h : spare < 16) :
    (Parse.last tail spare h).bytes.size = 1 + (extension tail.size).size + tail.size := by
  rw [Parse.bytes_last, ByteArray.size_append, size_tokenBytes]

theorem hasAt_sequence {src : ByteArray} {ip : Nat} {s : Sequence} : HasAt src ip s.bytes ↔
    HasAt src ip (tokenBytes s.literals.size (min (s.length - minMatch) nibbleLimit)) ∧
    HasAt src (ip + 1 + (extension s.literals.size).size) s.literals ∧
    HasAt src (ip + 1 + (extension s.literals.size).size + s.literals.size) (leBytes 2 s.offset) ∧
    HasAt src (ip + 1 + (extension s.literals.size).size + s.literals.size + 2)
      (extension (s.length - minMatch)) := by
  simp only [Sequence.bytes, hasAt_append, ByteArray.size_append, size_tokenBytes, size_leBytes,
    and_assoc, Nat.add_assoc]

theorem Sequence.size_bytes (s : Sequence) : s.bytes.size =
    1 + (extension s.literals.size).size + s.literals.size + 2 +
      (extension (s.length - minMatch)).size := by
  simp only [Sequence.bytes, ByteArray.size_append, size_tokenBytes, size_leBytes]

theorem sequencesBytes_append (ss ts : List Sequence) :
    sequencesBytes (ss ++ ts) = sequencesBytes ss ++ sequencesBytes ts := by
  induction ss with
  | nil => simp [sequencesBytes]
  | cons s ss ih => rw [List.cons_append, sequencesBytes, sequencesBytes, ih, ByteArray.append_assoc]

theorem Parse.append_bytes {ss : List Sequence} {tail : ByteArray} {spare : Nat} (done : List Sequence)
    (h : spare < 16) : sequencesBytes done ++ Parse.bytes ⟨ss, tail, spare, h⟩ =
      Parse.bytes ⟨done ++ ss, tail, spare, h⟩ := by
  simp only [Parse.bytes, sequencesBytes_append, ByteArray.append_assoc]

theorem expandAll_cons (out : ByteArray) (s : Sequence) (ss : List Sequence) :
    expandAll out (s :: ss) = expandAll (s.expand out) ss := rfl

theorem expandedSize_cons (s : Sequence) (ss : List Sequence) :
    expandedSize (s :: ss) = s.literals.size + s.length + expandedSize ss := rfl

theorem Parse.expandedSize_last (tail : ByteArray) {spare : Nat} (h : spare < 16) :
    (Parse.last tail spare h).expandedSize = tail.size := Nat.zero_add _

theorem Parse.expandedSize_cons (s : Sequence) (p : Parse) :
    (p.cons s).expandedSize = s.literals.size + s.length + p.expandedSize := by
  rw [expandedSize, cons, LempelZiv.expandedSize_cons, Nat.add_assoc, expandedSize]

theorem size_expandAll (out : ByteArray) (ss : List Sequence) :
    (expandAll out ss).size = out.size + expandedSize ss := by
  induction ss generalizing out with
  | nil => rfl
  | cons s ss ih => rw [expandAll_cons, ih, Sequence.size_expand, expandedSize_cons]; omega

theorem Parse.size_expand (p : Parse) (out : ByteArray) :
    (p.expand out).size = out.size + p.expandedSize := by
  rw [Parse.expand, ByteArray.size_append, size_expandAll, Parse.expandedSize, Nat.add_assoc]

theorem expandAll_eq_append (out : ByteArray) (ss : List Sequence) :
    ∃ more, expandAll out ss = out ++ more ∧ more.size = expandedSize ss := by
  induction ss generalizing out with
  | nil => exact ⟨ByteArray.empty, by simp [expandAll], rfl⟩
  | cons s ss ih =>
    obtain ⟨copied, hc, hs⟩ := copyBack_append (out ++ s.literals) s.offset s.length
    obtain ⟨more, hm, hms⟩ := ih (s.expand out)
    refine ⟨s.literals ++ copied ++ more, ?_, ?_⟩
    · rw [expandAll_cons, hm, Sequence.expand, hc, ByteArray.append_assoc, ByteArray.append_assoc,
        ByteArray.append_assoc]
    · rw [ByteArray.size_append, ByteArray.size_append, hs, hms, expandedSize_cons]

theorem Parse.expand_eq_append (p : Parse) (out : ByteArray) :
    ∃ more, p.expand out = out ++ more ∧ more.size = p.expandedSize := by
  obtain ⟨more, hm, hs⟩ := expandAll_eq_append out p.sequences
  exact ⟨more ++ p.tail, by rw [Parse.expand, hm, ByteArray.append_assoc],
    by rw [ByteArray.size_append, hs, Parse.expandedSize]⟩

theorem Sequence.write_eq (s : Sequence) (sink : ByteArray) : s.write sink = .ok (sink ++ s.bytes) := by
  have hw : s.write sink =
      (putToken sink s.literals.size (min (s.length - minMatch) nibbleLimit) >>= fun sink =>
        if nibbleLimit ≤ s.length - minMatch then
          putLength (sink ++ s.literals ++ leBytes 2 s.offset) (s.length - minMatch - nibbleLimit)
        else .ok (sink ++ s.literals ++ leBytes 2 s.offset)) := rfl
  rw [hw, putToken_eq]
  change (if nibbleLimit ≤ s.length - minMatch then putLength _ _ else _) = _
  simp only [Sequence.bytes, extension, ← ByteArray.append_assoc]
  split
  next => rw [putLength_eq]
  next => rw [ByteArray.append_empty]

theorem write_sequences_eq (ss : List Sequence) (sink : ByteArray) :
    ss.foldlM (fun sink s => s.write sink) sink =
      (.ok (sink ++ sequencesBytes ss) : Except Fault ByteArray) := by
  induction ss generalizing sink with
  | nil => simp [sequencesBytes, pure, Except.pure]
  | cons s ss ih =>
    rw [List.foldlM_cons, Sequence.write_eq]
    change ss.foldlM (fun sink (s : Sequence) => s.write sink) (sink ++ s.bytes) = _
    rw [ih, sequencesBytes, ByteArray.append_assoc]

theorem Parse.write_eq (p : Parse) (sink : ByteArray) : p.write sink = .ok (sink ++ p.bytes) := by
  rw [Parse.write, write_sequences_eq]
  change (putToken (sink ++ sequencesBytes p.sequences) p.tail.size p.spare >>= fun sink =>
    .ok (sink ++ p.tail)) = _
  rw [putToken_eq]
  change Except.ok _ = _
  simp only [Parse.bytes, ByteArray.append_assoc]

theorem Parse.write_empty_eq_ok_iff {p : Parse} {src : ByteArray} :
    p.write ByteArray.empty = .ok src ↔ p.bytes = src := by
  rw [Parse.write_eq, ByteArray.empty_append, Except.ok.injEq]

end LempelZiv
