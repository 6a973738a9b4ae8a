import Mathlib.Data.List.Sort
import LempelZiv.Proofs.Gathering

namespace LempelZiv

/-- The data in pieces of `most` bytes, of which the last may be shorter. -/
def pieces (most : Nat) (data : ByteArray) : List ByteArray :=
  (List.range ((data.size + most - 1) / most)).map fun i => data.extract (i * most) ((i + 1) * most)

/-- The data from `start` on, cut at some later points. -/
def cutAt (data : ByteArray) (start : Nat) : (points : List Nat) → List ByteArray
  | [] => [dropBytes data start]
  | p :: points => data.extract start p :: cutAt data p points

/-- How much data there was at each call that flushes, if there were `done` bytes before the first call. -/
def flushPoints (done : Nat) : List Call → List Nat
  | [] => []
  | .write data :: calls => flushPoints (done + data.size) calls
  | .flushBlock :: calls => done :: flushPoints done calls
  | .flush :: calls => done :: flushPoints done calls

/-- The data between the calls that flush, behind what waits at the first call. -/
def stretches (waiting : ByteArray) : List Call → List ByteArray
  | [] => [waiting]
  | .write data :: calls => stretches (waiting ++ data) calls
  | .flushBlock :: calls => waiting :: stretches ByteArray.empty calls
  | .flush :: calls => waiting :: stretches ByteArray.empty calls

/-- The points behind `start`, each once. -/
def distinctFrom (start : Nat) : (points : List Nat) → List Nat
  | [] => []
  | p :: points => if p = start then distinctFrom start points else p :: distinctFrom p points

variable {most : Nat} {data : ByteArray}

theorem pieces_empty (hpos : 0 < most) : pieces most ByteArray.empty = [] := by
  have hcount : (0 + most - 1) / most = 0 := Nat.div_eq_of_lt (by omega)
  rw [pieces, ByteArray.size_empty, hcount, List.range_zero, List.map_nil]

theorem pieces_of_lt (hpos : 0 < data.size) (hlt : data.size < most) : pieces most data = [data] := by
  have hcount : (data.size + most - 1) / most = 1 := by
    have hsum : data.size + most - 1 = data.size - 1 + most := by omega
    rw [hsum, Nat.add_div_right _ (by omega), Nat.div_eq_of_lt (by omega)]
  have hall : data.extract 0 most = data := by
    have h := @ByteArray.extract_zero_max_size data most
    rwa [Nat.max_eq_left (Nat.le_of_lt hlt)] at h
  simp [pieces, hcount, hall]

theorem pieces_append {a : ByteArray} (b : ByteArray) (hpos : 0 < most) (ha : a.size = most) :
    pieces most (a ++ b) = a :: pieces most b := by
  have hcount : ((a ++ b).size + most - 1) / most = (b.size + most - 1) / most + 1 := by
    have hsum : (a ++ b).size + most - 1 = b.size + most - 1 + most := by
      rw [ByteArray.size_append]
      omega
    rw [hsum, Nat.add_div_right _ hpos]
  have hfirst : (a ++ b).extract 0 most = a := ByteArray.extract_append_eq_left ha.symm
  have hlater : ∀ i, (a ++ b).extract ((i + 1) * most) ((i + 1 + 1) * most) =
      b.extract (i * most) ((i + 1) * most) := by
    intro i
    have h := @ByteArray.extract_append_size_add' a b (i * most) ((i + 1) * most) most ha.symm
    rwa [Nat.add_comm most, Nat.add_comm most, ← Nat.succ_mul, ← Nat.succ_mul] at h
  rw [pieces, hcount, List.range_succ_eq_map, List.map_cons, List.map_map, pieces]
  have htail : List.map ((fun i => (a ++ b).extract (i * most) ((i + 1) * most)) ∘ Nat.succ)
      (List.range ((b.size + most - 1) / most)) = pieces most b :=
    List.map_congr_left fun i _ => hlater i
  simp [hfirst, htail, pieces]

theorem stretches_append {a : ByteArray} (b : ByteArray) (hpos : 0 < most) (ha : a.size = most)
    (calls : List Call) : (stretches (a ++ b) calls).flatMap (pieces most) =
      a :: (stretches b calls).flatMap (pieces most) := by
  induction calls generalizing b with
  | nil => simp [stretches, pieces_append b hpos ha]
  | cons c calls ih =>
    cases c with
    | write data =>
      rw [stretches, stretches, ByteArray.append_assoc]
      exact ih (b ++ data)
    | flushBlock => simp [stretches, pieces_append b hpos ha]
    | flush => simp [stretches, pieces_append b hpos ha]

/-- Full blocks at the start are pieces of their own, and what follows is cut as if they were not there. -/
theorem stretches_cutBlocks (hpos : 0 < most) (data : ByteArray) (calls : List Call) :
    (stretches data calls).flatMap (pieces most) =
      (cutBlocks most data).1 ++ (stretches (cutBlocks most data).2 calls).flatMap (pieces most) := by
  induction hn : data.size using Nat.strongRecOn generalizing data with
  | ind n ih =>
    by_cases h : data.size < most
    · rw [cutBlocks_of_lt h, List.nil_append]
    · have hcut : data.extract 0 most ++ dropBytes data most = data := extract_zero_append_dropBytes (by omega)
      have hfull : (data.extract 0 most).size = most := by
        rw [ByteArray.size_extract]
        omega
      have hlater := ih (dropBytes data most).size (by rw [size_dropBytes]; omega) _ rfl
      rw [← hcut, cutBlocks_append _ hpos hfull, stretches_append _ hpos hfull, hlater, List.cons_append]

namespace Gathered

/-- What waits at a flush is one piece, or nothing. -/
theorem flushed_pieces {g : Gathered} (h : g.Sized most) :
    g.flushed.blocks = g.blocks ++ pieces most g.rest := by
  have hlt := h.rest_lt
  rw [flushed_blocks]
  split
  next hempty =>
    have hrest := ByteArray.size_eq_zero_iff.mp (isEmpty_iff.mp hempty)
    rw [hrest, pieces_empty (by omega)]
  next hfull =>
    rw [isEmpty_iff] at hfull
    rw [pieces_of_lt (by omega) hlt]

/-- The blocks that some calls gather are the pieces of the data between the flushes. -/
theorem foldl_step_pieces {g : Gathered} (h : g.Sized most) (calls : List Call) :
    (calls.foldl (step most) g).flushed.blocks =
      g.blocks ++ (stretches g.rest calls).flatMap (pieces most) := by
  induction calls generalizing g with
  | nil => simp [stretches, flushed_pieces h]
  | cons c calls ih =>
    have hpos : 0 < most := Nat.lt_of_le_of_lt (Nat.zero_le _) h.rest_lt
    have hlater := ih (step_sized h c)
    rw [List.foldl_cons, hlater]
    cases c with
    | write data =>
      have hcut := stretches_cutBlocks hpos (g.rest ++ data) calls
      rw [stretches, hcut, step, List.append_assoc]
    | flushBlock => simp [stretches, step, flushed_pieces h, flushed_rest]
    | flush => simp [stretches, step, flushed_pieces h, flushed_rest]

end Gathered

/-- Between flushes stands what lies between their points in the data. -/
theorem stretches_eq_cutAt (before waiting : ByteArray) (calls : List Call) :
    stretches waiting calls = cutAt (before ++ (waiting ++ joined (calls.map Call.data))) before.size
      (flushPoints (before.size + waiting.size) calls) := by
  induction calls generalizing before waiting with
  | nil =>
    have hdrop := dropBytes_append before waiting
    simp [stretches, flushPoints, cutAt, joined, hdrop]
  | cons c calls ih =>
    -- A flush ends the stretch, and the data so far is what stands before the next one.
    have hflush : waiting :: stretches ByteArray.empty calls =
        cutAt (before ++ (waiting ++ joined (calls.map Call.data))) before.size
          ((before.size + waiting.size) :: flushPoints (before.size + waiting.size) calls) := by
      have hlater := ih (before ++ waiting) ByteArray.empty
      have hfirst : (before ++ (waiting ++ joined (calls.map Call.data))).extract before.size
          (before.size + waiting.size) = waiting := by
        have h := @ByteArray.extract_append_size_add before (waiting ++ joined (calls.map Call.data)) 0
          waiting.size
        rw [Nat.add_zero] at h
        rw [h, ByteArray.extract_append_eq_left rfl]
      rw [cutAt, hfirst, hlater]
      simp [ByteArray.append_assoc]
    cases c with
    | write data =>
      have hlater := ih before (waiting ++ data)
      rw [stretches, hlater]
      simp [flushPoints, joined, Call.data, ByteArray.append_assoc, Nat.add_assoc]
    | flushBlock => simpa [stretches, flushPoints, joined, Call.data] using hflush
    | flush => simpa [stretches, flushPoints, joined, Call.data] using hflush

theorem le_flushPoints {done p : Nat} {calls : List Call} (h : p ∈ flushPoints done calls) : done ≤ p := by
  induction calls generalizing done with
  | nil => simp [flushPoints] at h
  | cons c calls ih =>
    cases c with
    | write data =>
      have hle := ih h
      omega
    | flushBlock =>
      rcases List.mem_cons.mp h with rfl | hlater
      · exact Nat.le_refl _
      · exact ih hlater
    | flush =>
      rcases List.mem_cons.mp h with rfl | hlater
      · exact Nat.le_refl _
      · exact ih hlater

theorem flushPoints_sorted (done : Nat) (calls : List Call) : (flushPoints done calls).Pairwise (· ≤ ·) := by
  induction calls generalizing done with
  | nil => exact .nil
  | cons c calls ih =>
    cases c with
    | write data => exact ih _
    | flushBlock => exact .cons (fun p hp => le_flushPoints hp) (ih _)
    | flush => exact .cons (fun p hp => le_flushPoints hp) (ih _)

/-- A second cut at a point adds an empty part, which has no pieces. -/
theorem cutAt_distinctFrom (hpos : 0 < most) (start : Nat) (points : List Nat) :
    (cutAt data start points).flatMap (pieces most) =
      (cutAt data start (distinctFrom start points)).flatMap (pieces most) := by
  induction points generalizing start with
  | nil => rfl
  | cons p points ih =>
    rw [distinctFrom]
    split
    next heq => simp [cutAt, heq, ByteArray.extract_same, pieces_empty hpos, ← ih]
    next => simp [cutAt, ← ih]

theorem mem_distinctFrom {start x : Nat} {points : List Nat} (hsorted : (start :: points).Pairwise (· ≤ ·)) :
    x ∈ distinctFrom start points ↔ x ∈ points ∧ start < x := by
  induction points generalizing start with
  | nil => simp [distinctFrom]
  | cons p points ih =>
    obtain ⟨hstart, hlater⟩ := List.pairwise_cons.mp hsorted
    have hp := hstart p List.mem_cons_self
    rw [distinctFrom]
    split
    next heq =>
      subst heq
      rw [ih hlater, List.mem_cons]
      constructor
      · rintro ⟨hx, hlt⟩
        exact ⟨.inr hx, hlt⟩
      · rintro ⟨rfl | hx, hlt⟩
        · exact absurd hlt (Nat.lt_irrefl _)
        · exact ⟨hx, hlt⟩
    next hne =>
      rw [List.mem_cons, ih hlater, List.mem_cons]
      have hleast : x ∈ points → p ≤ x := (List.pairwise_cons.mp hlater).1 x
      constructor
      · rintro (rfl | ⟨hx, hlt⟩)
        · exact ⟨.inl rfl, by omega⟩
        · exact ⟨.inr hx, by omega⟩
      · rintro ⟨rfl | hx, hlt⟩
        · exact .inl rfl
        · have hle := hleast hx
          rcases Nat.eq_or_lt_of_le hle with heq | hless
          · exact .inl heq.symm
          · exact .inr ⟨hx, hless⟩

theorem distinctFrom_sorted {start : Nat} {points : List Nat} (hsorted : (start :: points).Pairwise (· ≤ ·)) :
    (distinctFrom start points).Pairwise (· < ·) := by
  induction points generalizing start with
  | nil => exact .nil
  | cons p points ih =>
    obtain ⟨_, hlater⟩ := List.pairwise_cons.mp hsorted
    rw [distinctFrom]
    split
    next heq => exact ih (heq ▸ hlater)
    next => exact .cons (fun x hx => ((mem_distinctFrom hlater).mp hx).2) (ih hlater)

/-- How often and in which calls the data was flushed at a point does not matter. -/
theorem cutAt_flushPoints_congr (hpos : 0 < most) {calls calls' : List Call}
    (h : ∀ p, p ∈ flushPoints 0 calls' ↔ p ∈ flushPoints 0 calls) :
    (cutAt data 0 (flushPoints 0 calls')).flatMap (pieces most) =
      (cutAt data 0 (flushPoints 0 calls)).flatMap (pieces most) := by
  have hsorted : ∀ calls, (0 :: flushPoints 0 calls).Pairwise (· ≤ ·) := fun calls =>
    .cons (fun p _ => Nat.zero_le p) (flushPoints_sorted 0 calls)
  have hsame : distinctFrom 0 (flushPoints 0 calls') = distinctFrom 0 (flushPoints 0 calls) := by
    refine (distinctFrom_sorted (hsorted calls')).eq_of_mem_iff (distinctFrom_sorted (hsorted calls)) ?_
    intro p
    rw [mem_distinctFrom (hsorted calls'), mem_distinctFrom (hsorted calls), h]
  rw [cutAt_distinctFrom hpos, hsame, ← cutAt_distinctFrom hpos]

end LempelZiv
