import LempelZiv.Parallel.Join
import LempelZiv.Proofs.Cutting
import LempelZiv.Proofs.Splicing

namespace LempelZiv

/-- Chunk number `i` of the input. -/
def chunkAt (input : ByteArray) (chunkSize i : Nat) : ByteArray :=
  input.extract (i * chunkSize) ((i + 1) * chunkSize)

/-- The match stands where a block made of one chunk alone may have it. -/
def Match.InChunk (m : Match) (input : ByteArray) (chunkSize window start : Nat) : Prop :=
  ∃ i, i * chunkSize ≤ start ∧ m.PlacedIn (chunkAt input chunkSize i).size window (start - i * chunkSize)

/-- Bodies of the chunks from number `i` on. Only the last has the literals behind its sequences. -/
inductive Bodies (input : ByteArray) (chunkSize window : Nat) : Nat → List ChunkBody → Prop
  | last {i stop : Nat} {ss : List Sequence} (inside : i * chunkSize < input.size)
      (ends : input.size ≤ (i + 1) * chunkSize)
      (covers : Covers (chunkAt input chunkSize i)
        (fun start m => m.PlacedIn (chunkAt input chunkSize i).size window start) 0 stop ss) :
      Bodies input chunkSize window i
        [⟨Parse.bytes ⟨ss, dropBytes (chunkAt input chunkSize i) stop, 0, by decide⟩, 0⟩]
  | more {i stop : Nat} {ss : List Sequence} {bodies : List ChunkBody}
      (inside : (i + 1) * chunkSize < input.size)
      (covers : Covers (chunkAt input chunkSize i)
        (fun start m => m.PlacedIn (chunkAt input chunkSize i).size window start) 0 stop ss)
      (rest : Bodies input chunkSize window (i + 1) bodies) :
      Bodies input chunkSize window i
        (⟨sequencesBytes ss, (chunkAt input chunkSize i).size - stop⟩ :: bodies)

variable {src : ByteArray} {rule : Nat → Match → Prop} {anchor stop : Nat} {ss : List Sequence}

theorem Sequence.StandsAt.shift {s : Sequence} {lo hi start : Nat}
    (h : s.StandsAt (src.extract lo hi) start)
    (hlo : lo ≤ src.size) : s.StandsAt src (lo + start) := by
  have hoffset := h.offset_le
  have hend := h.end_le
  rw [ByteArray.size_extract] at hend
  refine ⟨by omega, by omega, ?_⟩
  intro i hi
  have hequal := h.equal i hi
  rw [byteAt_extract (by omega), byteAt_extract (by omega)] at hequal
  rwa [Nat.add_sub_assoc hoffset, Nat.add_assoc, Nat.add_assoc]

theorem Covers.shift {rule' : Nat → Match → Prop} {lo hi : Nat} (hlo : lo ≤ src.size)
    (hrule : ∀ start m, rule start m → rule' (lo + start) m)
    (h : Covers (src.extract lo hi) rule anchor stop ss) :
    Covers src rule' (lo + anchor) (lo + stop) ss := by
  have hsize : (src.extract lo hi).size = min hi src.size - lo := ByteArray.size_extract
  induction h with
  | nil le => exact .nil (by omega)
  | @cons _ _ _ s _ le literals stands kept rest ih =>
    have hend := stands.end_le
    have hmin := s.minMatch_le
    rw [minMatch] at hmin
    refine .cons (by omega) ?_ (stands.shift hlo) (hrule _ _ kept) (by rwa [Nat.add_assoc])
    rw [literals, ByteArray.extract_extract, Nat.min_eq_left (by omega)]

theorem Covers.lead {start : Nat} {s : Sequence} (hle : start ≤ anchor)
    (h : Covers src rule anchor stop (s :: ss)) :
    Covers src rule start stop (s.lead (src.extract start anchor) :: ss) := by
  cases h with
  | @cons _ place _ _ _ le literals stands kept rest =>
    refine .cons (by omega) ?_ ⟨stands.offset_le, stands.end_le, stands.equal⟩ kept rest
    rw [Sequence.lead, literals, extract_append_extract_of_le hle le]

theorem Covers.literals_lt (h : Covers src rule anchor stop ss) (hsrc : src.size < sizeLimit) :
    ∀ s ∈ ss, s.literals.size < sizeLimit := by
  intro s hs
  have hsize := (h.sized s hs).1
  omega

variable {input : ByteArray} {chunkSize window : Nat}

/-- Covering a chunk covers the input there, and every match stays in its chunk. -/
theorem Covers.ofChunk {i : Nat} (hi : i * chunkSize ≤ input.size)
    (h : Covers (chunkAt input chunkSize i)
      (fun start m => m.PlacedIn (chunkAt input chunkSize i).size window start) 0 stop ss) :
    Covers input (fun start m => m.InChunk input chunkSize window start) (i * chunkSize)
      (i * chunkSize + stop) ss := by
  refine h.shift hi ?_
  intro start m hm
  exact ⟨i, Nat.le_add_right _ _, by rwa [Nat.add_sub_cancel_left]⟩

theorem Covers.splice_open {carryFrom start : Nat} {done : List Sequence} {s : Sequence}
    (hs : s.literals.size < sizeLimit) (hle : carryFrom ≤ start) (hdone : Covers src rule 0 carryFrom done)
    (h : Covers src rule start stop (s :: ss)) :
    ∃ ts, splice (sequencesBytes done) (src.extract carryFrom start) (sequencesBytes (s :: ss)) =
      .ok (sequencesBytes ts) ∧ Covers src rule 0 stop ts := by
  refine ⟨done ++ s.lead (src.extract carryFrom start) :: ss, ?_, hdone.append (h.lead hle)⟩
  rw [sequencesBytes, splice_sequences _ _ _ hs, sequencesBytes_append, sequencesBytes]

theorem Covers.splice_closed {carryFrom start : Nat} {done : List Sequence}
    (hss : ∀ s ∈ ss, s.literals.size < sizeLimit) (htail : (dropBytes src stop).size < sizeLimit)
    (hle : carryFrom ≤ start) (hdone : Covers src rule 0 carryFrom done)
    (h : Covers src rule start stop ss) :
    ∃ ts last, splice (sequencesBytes done) (src.extract carryFrom start)
        (Parse.bytes ⟨ss, dropBytes src stop, 0, by decide⟩) =
          .ok (Parse.bytes ⟨ts, dropBytes src last, 0, by decide⟩) ∧
      Covers src rule 0 last ts := by
  cases ss with
  | nil =>
    cases h with
    | nil le =>
      refine ⟨done, carryFrom, ?_, hdone⟩
      have hsplice := splice_last (sequencesBytes done) (src.extract carryFrom stop)
        (by decide : 0 < 16) htail
      rwa [extract_append_dropBytes hle le, Parse.last, Parse.last, Parse.append_bytes,
        List.append_nil] at hsplice
  | cons s ss =>
    refine ⟨done ++ s.lead (src.extract carryFrom start) :: ss, stop, ?_, hdone.append (h.lead hle)⟩
    have hsplice := splice_sequences (sequencesBytes done) (src.extract carryFrom start)
      (Parse.bytes ⟨ss, dropBytes src stop, 0, by decide⟩) (hss s List.mem_cons_self)
    rwa [← Parse.bytes_cons, ← Parse.bytes_cons, Parse.cons, Parse.append_bytes] at hsplice

theorem size_chunkAt {i : Nat} (h : (i + 1) * chunkSize ≤ input.size) :
    (chunkAt input chunkSize i).size = chunkSize := by
  rw [chunkAt, ByteArray.size_extract]
  rw [Nat.succ_mul] at *
  omega

theorem dropBytes_chunkAt {i : Nat} (stop : Nat) (hinside : i * chunkSize < input.size)
    (hends : input.size ≤ (i + 1) * chunkSize) :
    dropBytes (chunkAt input chunkSize i) stop = dropBytes input (i * chunkSize + stop) := by
  have hsize : (chunkAt input chunkSize i).size = input.size - i * chunkSize := by
    rw [chunkAt, ByteArray.size_extract]
    omega
  have hend : min (i * chunkSize + (input.size - i * chunkSize)) ((i + 1) * chunkSize) =
    input.size := by omega
  rw [dropBytes, hsize, chunkAt, ByteArray.extract_extract, hend, dropBytes]

/-- Joining goes on from sequences that cover the input up to `carryFrom`, and ends with a block that
covers all of it. -/
theorem joinFrom_chunks {i carryFrom : Nat} {bodies : List ChunkBody} {done : List Sequence}
    (hchunks : ∀ i, (chunkAt input chunkSize i).size < sizeLimit)
    (hbodies : Bodies input chunkSize window i bodies)
    (hdone : Covers input (fun start m => m.InChunk input chunkSize window start) 0 carryFrom done)
    (hcarry : carryFrom ≤ i * chunkSize) :
    ∃ ss stop, joinFrom input chunkSize i carryFrom (sequencesBytes done) bodies =
        .ok (Parse.bytes ⟨ss, dropBytes input stop, 0, by decide⟩) ∧
      Covers input (fun start m => m.InChunk input chunkSize window start) 0 stop ss := by
  induction hbodies generalizing carryFrom done with
  | @last i stop ss inside ends covers =>
    have htail : (dropBytes input (i * chunkSize + stop)).size < sizeLimit := by
      have hchunk := hchunks i
      rw [← dropBytes_chunkAt stop inside ends, size_dropBytes]
      omega
    obtain ⟨ts, last, hsplice, hts⟩ :=
      hdone.splice_closed (covers.literals_lt (hchunks i)) htail hcarry (covers.ofChunk (Nat.le_of_lt inside))
    have hbody :
        ¬(Parse.bytes ⟨ss, dropBytes (chunkAt input chunkSize i) stop, 0, by decide⟩).isEmpty = true := by
      rw [isEmpty_iff, Parse.bytes, ByteArray.size_append, ByteArray.size_append, size_tokenBytes]
      omega
    refine ⟨ts, last, ?_, hts⟩
    rw [joinFrom, if_neg hbody, if_pos hcarry, dropBytes_chunkAt stop inside ends, hsplice]
    rfl
  | @more i stop ss bodies inside covers rest ih =>
    have hnext : (i + 1) * chunkSize = i * chunkSize + chunkSize := Nat.succ_mul i chunkSize
    have hchunk : (chunkAt input chunkSize i).size = chunkSize := size_chunkAt (Nat.le_of_lt inside)
    have hstop := covers.le.2
    rw [joinFrom]
    cases ss with
    | nil =>
      -- A chunk without matches writes nothing, and its bytes wait for the next sequence.
      rw [if_pos (by rfl)]
      exact ih hdone (by omega)
    | cons s ss =>
      have hbody : ¬(sequencesBytes (s :: ss)).isEmpty = true := by
        rw [isEmpty_iff, sequencesBytes, ByteArray.size_append, s.size_bytes]
        omega
      have hs := covers.literals_lt (hchunks i) s List.mem_cons_self
      obtain ⟨ts, hsplice, hts⟩ := hdone.splice_open hs hcarry (covers.ofChunk (by omega))
      have hpending : subSize (min (i * chunkSize + chunkSize) input.size)
          ((chunkAt input chunkSize i).size - stop) =
          .ok (i * chunkSize + stop) := by
        rw [subSize_eq_ok (by omega)]
        congr 1
        omega
      rw [if_neg hbody, if_pos hcarry]
      simp only [hsplice, hpending]
      exact ih hts (by omega)

theorem joinFrom_covers {i carryFrom : Nat} {bodies : List ChunkBody} {done : List Sequence}
    (hsize : input.size < sizeLimit) (hbodies : Bodies input chunkSize window i bodies)
    (hdone : Covers input (fun start m => m.InChunk input chunkSize window start) 0 carryFrom done)
    (hcarry : carryFrom ≤ i * chunkSize) :
    ∃ ss stop, joinFrom input chunkSize i carryFrom (sequencesBytes done) bodies =
        .ok (Parse.bytes ⟨ss, dropBytes input stop, 0, by decide⟩) ∧
      Covers input (fun start m => m.InChunk input chunkSize window start) 0 stop ss := by
  refine joinFrom_chunks ?_ hbodies hdone hcarry
  intro i
  rw [chunkAt, ByteArray.size_extract]
  omega

end LempelZiv
