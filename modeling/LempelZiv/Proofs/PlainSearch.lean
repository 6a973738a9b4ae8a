import LempelZiv.Proofs.ChainSearch

namespace LempelZiv

/-- How many bytes from `i` and from `j` on are equal, `limit` at most. -/
def equalBytes (input : ByteArray) (i j : Nat) : (limit : Nat) → Nat
  | 0 => 0
  | limit + 1 => if byteAt input i = byteAt input j then equalBytes input (i + 1) (j + 1) limit + 1 else 0

/-- The most bytes that a match at `pos` can have. -/
def longestAt (input : ByteArray) (pos : Nat) : Nat := min (input.size - pos) maxMatchLength

/-- How many bytes at `pos` repeat those from `q` on. -/
def repeatLength (input : ByteArray) (q pos : Nat) : Nat := equalBytes input q pos (longestAt input pos)

/-- The hash of a position that does not stand too near the end. -/
def hashOf (params : SearchParams) (input : ByteArray) (pos : Nat) : Option Nat :=
  (if params.hashesFive then hash5 input pos params.hashLog else hash4 input pos params.hashLog).toOption

/-- The positions in the tables when `pos` is searched after others, the newest first. -/
def enteredBefore (params : SearchParams) (searched : List Nat) (pos : Nat) : List Nat :=
  if params.insertCovered then (List.range pos).reverse else searched.reverse

/-- Those of the positions with the hash `k`. -/
def bucket (params : SearchParams) (input : ByteArray) (k : Nat) (entered : List Nat) : List Nat :=
  entered.filter fun q => hashOf params input q = some k

/-- Those from `floor` on that stand before `pos`, but for position 0. -/
def inWindow (floor pos : Nat) (qs : List Nat) : List Nat := qs.filter fun q => max 1 floor ≤ q ∧ q < pos

/-- Those in the window with the hash of `pos`. -/
def candidates (params : SearchParams) (input : ByteArray) (entered : List Nat) (pos : Nat) : List Nat :=
  match hashOf params input pos with
  | none => []
  | some k => inWindow (pos - params.windowSize) pos (bucket params input k entered)

/-- Takes the candidates in turn and keeps the longest match, the first of equals. -/
def scan (input : ByteArray) (pos goodEnough : Nat) : List Nat → (best : Option Match) → Option Match
  | [], best => best
  | q :: qs, best =>
    let length := repeatLength input q pos
    if minMatch ≤ length ∧ ∀ m ∈ best, m.length < length then
      if goodEnough ≤ length then some ⟨pos - q, length⟩
      else scan input pos goodEnough qs (some ⟨pos - q, length⟩)
    else scan input pos goodEnough qs best

/-- The match of `pos` after searches at other positions, without tables. -/
def plainSearch (params : SearchParams) (input : ByteArray) (searched : List Nat) (pos : Nat) : Option Match :=
  scan input pos params.goodEnough
    ((candidates params input (enteredBefore params searched pos) pos).take params.maxAttempts) none

/-- The longest of the repeats that start in the window and are long enough, the nearest of equals. -/
structure LongestRepeat (params : SearchParams) (input : ByteArray) (pos : Nat) (found : Option Match) :
    Prop where
  genuine : ∀ m ∈ found, m.Genuine params input pos
  longest : ∀ q, 1 ≤ q → q < pos → pos ≤ q + params.windowSize →
    minMatch ≤ repeatLength input q pos →
    ∃ m ∈ found, repeatLength input q pos ≤ m.length ∧
      (repeatLength input q pos = m.length → m.offset ≤ pos - q)

variable {params : SearchParams} {input : ByteArray} {pos goodEnough : Nat} {entered : List Nat}
  {best : Option Match}

theorem equalBytes_agreeFor (input : ByteArray) (i j limit : Nat) :
    AgreeFor input i j limit (equalBytes input i j limit) := by
  induction limit generalizing i j with
  | zero => exact ⟨Nat.le_refl 0, fun _ hk => absurd hk (Nat.not_lt_zero _), fun h => absurd h (Nat.lt_irrefl 0)⟩
  | succ limit ih =>
    rw [equalBytes]
    split
    next heq =>
      have hone : ∀ k < 1, byteAt input (i + k) = byteAt input (j + k) := by
        intro k hk
        rwa [Nat.lt_one_iff.mp hk]
      rw [Nat.add_comm (equalBytes _ _ _ _)]
      exact AgreeFor.add (Nat.le_add_left 1 limit) hone (ih (i + 1) (j + 1))
    next hne => exact agreeFor_zero hne

theorem repeatLength_agreeFor (input : ByteArray) (q pos : Nat) :
    AgreeFor input q pos (longestAt input pos) (repeatLength input q pos) :=
  equalBytes_agreeFor input q pos (longestAt input pos)

theorem repeatLength_le (input : ByteArray) (q pos : Nat) : repeatLength input q pos ≤ longestAt input pos :=
  (repeatLength_agreeFor input q pos).le

theorem genuine_of_repeat {q : Nat} (hpos : 1 ≤ q) (hlt : q < pos) (hwindow : pos ≤ q + params.windowSize)
    (hmin : minMatch ≤ repeatLength input q pos) :
    (⟨pos - q, repeatLength input q pos⟩ : Match).Genuine params input pos := by
  refine ⟨Nat.sub_pos_of_lt hlt, (by omega : pos - q < pos), (by omega : pos - q ≤ params.windowSize), hmin, ?_⟩
  change AgreeFor input (pos - (pos - q)) pos (longestAt input pos) _
  rw [Nat.sub_sub_self (Nat.le_of_lt hlt)]
  exact repeatLength_agreeFor input q pos

/-- What has come of the candidates so far: the longest match with one of them, the nearest of equals. -/
structure Leads (input : ByteArray) (pos : Nat) (seen : Nat → Prop) (best : Option Match) : Prop where
  from_seen : ∀ m ∈ best, ∃ q, seen q ∧ minMatch ≤ m.length ∧
    m = ⟨pos - q, repeatLength input q pos⟩
  longest : ∀ q, seen q → minMatch ≤ repeatLength input q pos →
    ∃ m ∈ best, repeatLength input q pos ≤ m.length ∧
      (repeatLength input q pos = m.length → m.offset ≤ pos - q)

theorem Leads.congr {seen seen' : Nat → Prop} (h : Leads input pos seen best) (hseen : ∀ q, seen q ↔ seen' q) :
    Leads input pos seen' best := by
  refine ⟨?_, fun q hq => h.longest q ((hseen q).mpr hq)⟩
  intro m hm
  obtain ⟨q, hq, hmatch⟩ := h.from_seen m hm
  exact ⟨q, (hseen q).mp hq, hmatch⟩

/-- A longer match than that before is the longest so far. -/
theorem Leads.accept {seen : Nat → Prop} {q : Nat} (h : Leads input pos seen best)
    (hmin : minMatch ≤ repeatLength input q pos)
    (hlonger : ∀ m ∈ best, m.length < repeatLength input q pos) :
    Leads input pos (fun x => seen x ∨ x = q) (some ⟨pos - q, repeatLength input q pos⟩) := by
  refine ⟨?_, ?_⟩
  · rintro m ⟨⟩
    exact ⟨q, .inr rfl, hmin, rfl⟩
  · rintro q' (hq' | rfl) hmin'
    · obtain ⟨m, hm, hle, _⟩ := h.longest q' hq' hmin'
      have hlt := hlonger m hm
      refine ⟨_, rfl, Nat.le_of_lt (Nat.lt_of_le_of_lt hle hlt), ?_⟩
      intro heq
      change repeatLength input q' pos = repeatLength input q pos at heq
      omega
    · exact ⟨_, rfl, Nat.le_refl _, fun _ => Nat.le_refl _⟩

/-- A match that is no longer than that before stands farther off. -/
theorem Leads.pass {seen : Nat → Prop} {q : Nat} (h : Leads input pos seen best) (hseen : ∀ x, seen x → q < x)
    (hshort : ¬(minMatch ≤ repeatLength input q pos ∧
      ∀ m ∈ best, m.length < repeatLength input q pos)) :
    Leads input pos (fun x => seen x ∨ x = q) best := by
  refine ⟨?_, ?_⟩
  · intro m hm
    obtain ⟨q', hq', hmatch⟩ := h.from_seen m hm
    exact ⟨q', .inl hq', hmatch⟩
  · rintro q' (hq' | rfl) hmin
    · exact h.longest q' hq' hmin
    · have hsome : ∃ m ∈ best, repeatLength input q' pos ≤ m.length := by
        by_contra hnone
        exact hshort ⟨hmin, fun m hm => Nat.lt_of_not_le fun hle => hnone ⟨m, hm, hle⟩⟩
      obtain ⟨m, hm, hle⟩ := hsome
      refine ⟨m, hm, hle, fun _ => ?_⟩
      obtain ⟨x, hx, _, rfl⟩ := h.from_seen m hm
      have hlt := hseen x hx
      exact (by omega : pos - x ≤ pos - q')

/-- A scan that stops at no match that could be longer finds the longest. -/
theorem scan_leads {seen : Nat → Prop} {qs : List Nat}
    (hgood : ∀ q ∈ qs, goodEnough ≤ repeatLength input q pos → longestAt input pos ≤ repeatLength input q pos)
    (hbest : Leads input pos seen best) (hqs : qs.Pairwise (· > ·)) (hseen : ∀ x, seen x → ∀ q ∈ qs, q < x) :
    Leads input pos (fun x => seen x ∨ x ∈ qs) (scan input pos goodEnough qs best) := by
  induction qs generalizing best seen with
  | nil => exact hbest.congr fun x => ⟨.inl, fun h => h.resolve_right List.not_mem_nil⟩
  | cons q qs ih =>
    obtain ⟨hq, hqs⟩ := List.pairwise_cons.mp hqs
    have hgood' := fun q' hq' => hgood q' (List.mem_cons_of_mem q hq')
    have hlater : ∀ x, seen x ∨ x = q → ∀ q' ∈ qs, q' < x := by
      rintro x (hx | rfl) q' hq'
      · exact hseen x hx q' (List.mem_cons_of_mem q hq')
      · exact hq q' hq'
    have hall : ∀ x, ((seen x ∨ x = q) ∨ x ∈ qs) ↔ (seen x ∨ x ∈ q :: qs) := by
      intro x
      rw [List.mem_cons, or_assoc]
    rw [scan]
    split
    next haccept =>
      have hfirst := hbest.accept haccept.1 haccept.2
      split
      next hstop =>
        -- No match is longer than this one, so that what the scan leaves out cannot be better.
        have hlongest := hgood q List.mem_cons_self hstop
        refine Leads.congr ⟨?_, ?_⟩ hall
        · intro m hm
          obtain ⟨x, hx, hmatch⟩ := hfirst.from_seen m hm
          exact ⟨x, .inl hx, hmatch⟩
        · rintro x (hx | hx) hmin
          · exact hfirst.longest x hx hmin
          · have hmost := repeatLength_le input x pos
            have hlt := hq x hx
            exact ⟨_, rfl, Nat.le_trans hmost hlongest, fun _ => (by omega : pos - q ≤ pos - x)⟩
      next => exact (ih hgood' hfirst hqs hlater).congr hall
    next hshort =>
      exact (ih hgood' (hbest.pass (fun x hx => hseen x hx q List.mem_cons_self) hshort) hqs hlater).congr hall

theorem bucket_cons_self {k : Nat} (h : hashOf params input pos = some k) :
    bucket params input k (pos :: entered) = pos :: bucket params input k entered :=
  List.filter_cons_of_pos (decide_eq_true h)

theorem bucket_cons_of_ne {k : Nat} (h : hashOf params input pos ≠ some k) :
    bucket params input k (pos :: entered) = bucket params input k entered :=
  List.filter_cons_of_neg fun hp => h (of_decide_eq_true hp)

theorem inWindow_cons {floor q : Nat} (qs : List Nat) (h : max 1 floor ≤ q) (hlt : q < pos) :
    inWindow floor pos (q :: qs) = q :: inWindow floor pos qs :=
  List.filter_cons_of_pos (decide_eq_true ⟨h, hlt⟩)

/-- Behind a position before the window are only others before it. -/
theorem inWindow_eq_nil {floor q : Nat} {qs : List Nat} (hqs : (q :: qs).Pairwise (· > ·))
    (h : q = 0 ∨ q < floor) : inWindow floor pos (q :: qs) = [] := by
  refine List.filter_eq_nil_iff.mpr ?_
  intro x hx
  have hle : x ≤ q := by
    rcases List.mem_cons.mp hx with rfl | hx
    · exact Nat.le_refl _
    · exact Nat.le_of_lt ((List.pairwise_cons.mp hqs).1 x hx)
  rw [decide_eq_true_eq]
  omega

theorem mem_candidates {q : Nat} : q ∈ candidates params input entered pos ↔
    q ∈ entered ∧ ∃ k, hashOf params input pos = some k ∧ hashOf params input q = some k ∧
      max 1 (pos - params.windowSize) ≤ q ∧ q < pos := by
  rw [candidates]
  split
  next hnone =>
    refine ⟨fun h => absurd h List.not_mem_nil, ?_⟩
    rintro ⟨_, k, hk, _⟩
    rw [hnone] at hk
    cases hk
  next k hk =>
    rw [inWindow, bucket, List.mem_filter, List.mem_filter, decide_eq_true_eq, decide_eq_true_eq, and_assoc]
    refine and_congr_right fun _ => ⟨fun h => ⟨k, hk, h⟩, ?_⟩
    rintro ⟨k', hk', h⟩
    rw [hk] at hk'
    cases hk'
    exact h

theorem candidates_descending (h : entered.Pairwise (· > ·)) :
    (candidates params input entered pos).Pairwise (· > ·) := by
  rw [candidates]
  split
  next => exact .nil
  next => exact (h.filter _).filter _

theorem range_descending (n : Nat) : (List.range n).reverse.Pairwise (· > ·) :=
  List.pairwise_reverse.mpr List.pairwise_lt_range

/-- Positions that agree in four bytes have one hash of four bytes. -/
theorem hashOf_congr {q : Nat} (hfour : params.hashesFive = false) (hpos : 1 ≤ params.hashLog)
    (hle : params.hashLog ≤ 32) (hroom : pos + 3 < input.size) (hroom' : q + 3 < input.size)
    (hequal : ∀ k < minMatch, byteAt input (q + k) = byteAt input (pos + k)) :
    ∃ k, hashOf params input pos = some k ∧ hashOf params input q = some k := by
  have hbyte : ∀ k (hk : k < 4), input[q + k] = input[pos + k] := by
    intro k hk
    have h := hequal k hk
    rwa [byteAt_of_lt (by omega), byteAt_of_lt (by omega)] at h
  have hword : wordAt input q hroom' = wordAt input pos hroom := by
    have h₀ := hbyte 0 (by decide)
    have h₁ := hbyte 1 (by decide)
    have h₂ := hbyte 2 (by decide)
    have h₃ := hbyte 3 (by decide)
    simp only [Nat.add_zero] at h₀
    rw [wordAt, wordAt, h₀, h₁, h₂, h₃]
  have hfive : ¬params.hashesFive = true := Bool.eq_false_iff.mp hfour
  obtain ⟨k, hk, _⟩ := Chains.highBits_ok (wordAt input pos hroom * hashPrime) hpos hle
  refine ⟨k, ?_, ?_⟩
  · rw [hashOf, if_neg hfive, hash4, dif_pos hroom, hk]
    rfl
  · rw [hashOf, if_neg hfive, hash4, dif_pos hroom', hword, hk]
    rfl

/-- The plain search finds the longest repeat if nothing cuts it short. -/
theorem plainSearch_longest {searched : List Nat} (hpos : 1 ≤ params.hashLog) (hle : params.hashLog ≤ 32)
    (hcovered : params.insertCovered = true) (hfour : params.hashesFive = false)
    (hattempts : (candidates params input (enteredBefore params searched pos) pos).length ≤ params.maxAttempts)
    (hgood : ∀ q ∈ candidates params input (enteredBefore params searched pos) pos,
      params.goodEnough ≤ repeatLength input q pos → longestAt input pos ≤ repeatLength input q pos) :
    LongestRepeat params input pos (plainSearch params input searched pos) := by
  have hentered : enteredBefore params searched pos = (List.range pos).reverse := if_pos hcovered
  have hnothing : Leads input pos (fun _ => False) none := ⟨fun _ hm => (nomatch hm), fun _ hq => hq.elim⟩
  have hdescending : (candidates params input (enteredBefore params searched pos) pos).Pairwise (· > ·) := by
    rw [hentered]
    exact candidates_descending (range_descending pos)
  have hleads := scan_leads hgood hnothing hdescending fun _ hx => hx.elim
  rw [plainSearch, List.take_of_length_le hattempts]
  refine ⟨?_, ?_⟩
  · intro m hm
    obtain ⟨q, hq, hmin, rfl⟩ := hleads.from_seen m hm
    obtain ⟨_, k, _, _, hfrom, hlt⟩ := mem_candidates.mp (hq.resolve_left id)
    exact genuine_of_repeat (by omega) hlt (by omega) hmin
  · intro q hq hlt hwindow hmin
    refine hleads.longest q (.inr (mem_candidates.mpr ⟨?_, ?_⟩)) hmin
    · rw [hentered]
      exact List.mem_reverse.mpr (List.mem_range.mpr hlt)
    · have hmost := repeatLength_le input q pos
      have hroom : pos + 3 < input.size := by
        have hfew : longestAt input pos ≤ input.size - pos := Nat.min_le_left _ _
        simp only [minMatch] at hmin
        omega
      obtain ⟨k, hk, hk'⟩ := hashOf_congr hfour hpos hle hroom (by omega)
        fun i hi => (repeatLength_agreeFor input q pos).equal i (Nat.lt_of_lt_of_le hi hmin)
      exact ⟨k, hk, hk', by omega, hlt⟩

end LempelZiv
