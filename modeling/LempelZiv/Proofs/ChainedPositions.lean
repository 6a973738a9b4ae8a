import LempelZiv.Proofs.ChainSteps
import LempelZiv.Proofs.PlainSearch

namespace LempelZiv

/-- From `head` the links lead through the positions in turn, and then to 0. -/
def Linked (links : Array Nat) : (head : Nat) → List Nat → Prop
  | head, [] => head = 0
  | head, q :: qs => head = q ∧ ∃ next, links[q]? = some next ∧ Linked links next qs

theorem Linked.set {links : Array Nat} {head pos n : Nat} {qs : List Nat} (h : Linked links head qs)
    (hp : pos < links.size) (hqs : ∀ q ∈ qs, q < pos) : Linked (links.set pos n hp) head qs := by
  induction qs generalizing head with
  | nil => exact h
  | cons q qs ih =>
    obtain ⟨rfl, next, hnext, hrest⟩ := h
    have hlt := hqs head List.mem_cons_self
    refine ⟨rfl, next, ?_, ih hrest fun q hq => hqs q (List.mem_cons_of_mem _ hq)⟩
    rw [Array.getElem?_set, if_neg (Nat.ne_of_gt hlt)]
    exact hnext

namespace Chains

/-- The tables hold the positions, the newest first: each chain leads through those of its hash. -/
structure Holds (c : Chains) (params : SearchParams) (input : ByteArray) (entered : List Nat) : Prop where
  serves : c.Over params input
  descending : entered.Pairwise (· > ·)
  chained : ∀ k (hk : k < c.heads.size),
    Linked c.links c.heads[k] (bucket params input k entered)

variable {c c' : Chains} {params : SearchParams} {input : ByteArray} {entered searched : List Nat} {pos : Nat}

theorem hashOf_of_hashable {k : Nat} (hc : c.Over params input) (hhash : c.hash pos = .ok k) :
    hashOf params input pos = some k := by
  rw [hash, hc.params_eq, hc.input_eq] at hhash
  rw [hashOf, hhash]
  rfl

theorem hashOf_of_not_hashable (hc : c.Over params input) (hnot : c.hashable pos = false) :
    hashOf params input pos = none := by
  rw [hashable, remaining, hc.input_eq, hc.params_eq, SearchParams.hashWidth, decide_eq_false_iff_not] at hnot
  rw [hashOf]
  split at hnot
  next hfive =>
    rw [if_pos hfive, hash5, dif_neg (by omega)]
    rfl
  next hfour =>
    rw [if_neg hfour, hash4, dif_neg (by omega)]
    rfl

theorem Holds.next (h : c.Holds params input entered) (next : Nat) :
    ({ c with next } : Chains).Holds params input entered :=
  ⟨h.serves.next next, h.descending, h.chained⟩

theorem Holds.cons_of_none (h : c.Holds params input entered) (hlater : ∀ q ∈ entered, q < pos)
    (hnone : hashOf params input pos = none) : c.Holds params input (pos :: entered) := by
  refine ⟨h.serves, List.pairwise_cons.mpr ⟨hlater, h.descending⟩, ?_⟩
  intro k hk
  have hother : hashOf params input pos ≠ some k := by
    rw [hnone]
    exact (Option.some_ne_none k).symm
  rw [bucket_cons_of_ne hother]
  exact h.chained k hk

/-- A later position comes in front of its chain, and the others stay as they are. -/
theorem Holds.insert (h : c.Holds params input entered) (hlater : ∀ q ∈ entered, q < pos) :
    ∃ c', c.insert pos = .ok c' ∧ c'.Holds params input (pos :: entered) := by
  obtain ⟨c', hinsert, hc'⟩ := insert_over pos h.serves
  refine ⟨c', hinsert, ?_⟩
  rcases insert_eq_ok hinsert with ⟨hnot, rfl⟩ | ⟨k, hk, hp, _, hhash, rfl⟩
  · exact h.cons_of_none hlater (hashOf_of_not_hashable h.serves hnot)
  refine ⟨hc', List.pairwise_cons.mpr ⟨hlater, h.descending⟩, ?_⟩
  intro j hj
  have hj' : j < c.heads.size := by
    change j < (c.heads.set k pos hk).size at hj
    rwa [Array.size_set] at hj
  have hkept : Linked (c.links.set pos c.heads[k] hp) c.heads[j] (bucket params input j entered) :=
    (h.chained j hj').set hp fun q hq => hlater q (List.mem_filter.mp hq).1
  change Linked (c.links.set pos c.heads[k] hp) (c.heads.set k pos hk)[j] _
  have hhashOf := hashOf_of_hashable h.serves hhash
  by_cases heq : k = j
  · subst heq
    rw [bucket_cons_self hhashOf, Array.getElem_set_self]
    exact ⟨rfl, _, Array.getElem?_set_self hp, hkept⟩
  · have hother : hashOf params input pos ≠ some j := by
      rw [hhashOf]
      exact fun he => heq (Option.some.inj he)
    rw [bucket_cons_of_ne hother, Array.getElem_set_ne hk hj' heq]
    exact hkept

theorem insertNext_holds (n : Nat) (h : c.Holds params input entered) (hlater : ∀ q ∈ entered, q < c.next) :
    ∃ c', insertNext n c = .ok c' ∧ c'.next = c.next + n ∧
      c'.Holds params input ((List.range' c.next n).reverse ++ entered) := by
  induction n generalizing c entered with
  | zero => exact ⟨c, rfl, rfl, h⟩
  | succ n ih =>
    obtain ⟨c₁, hinsert, h₁⟩ := h.insert hlater
    have hnext := insert_next hinsert
    obtain ⟨c', hrest, hnext', h'⟩ := ih (h₁.next (c₁.next + 1)) (by
      intro q hq
      rcases List.mem_cons.mp hq with rfl | hq
      · exact hnext ▸ Nat.lt_succ_self _
      · exact hnext ▸ Nat.lt_succ_of_lt (hlater q hq))
    refine ⟨c', ?_, ?_, ?_⟩
    · rw [insertNext, hinsert]
      exact hrest
    · rw [hnext']
      change c₁.next + 1 + n = _
      rw [hnext]
      omega
    · change c'.Holds params input ((List.range' (c₁.next + 1) n).reverse ++ c.next :: entered) at h'
      rw [hnext] at h'
      rwa [List.range'_succ, List.reverse_cons, List.append_assoc]

/-- When a match is as long as there can be one, the rest of the candidates does not count. -/
theorem scan_of_longest {goodEnough : Nat} {m : Match} (qs : List Nat) (hm : longestAt input pos ≤ m.length) :
    scan input pos goodEnough qs (some m) = some m := by
  induction qs with
  | nil => rfl
  | cons q qs ih =>
    have hle := repeatLength_le input q pos
    have hshort : ¬(minMatch ≤ repeatLength input q pos ∧
        ∀ m' ∈ some m, m'.length < repeatLength input q pos) := by
      rintro ⟨_, hall⟩
      have hlt := hall m rfl
      omega
    rw [scan, if_neg hshort]
    exact ih

variable {floor goodEnough attempts candidate bestLength : Nat} {best : Option Match}

/-- A step of a walk by the length of the repeat alone: the byte that is compared first is among those of any
longer match. -/
theorem walk_succ (hc : c.Over params input) (hgo : ¬(candidate = 0 ∨ candidate < floor))
    (hlt : candidate < c.links.size) (hback : candidate < pos) (hroom : bestLength < longestAt input pos) :
    c.walk ⟨pos, floor, longestAt input pos, goodEnough⟩ (attempts + 1) candidate bestLength best =
      if bestLength < repeatLength input candidate pos then
        if goodEnough ≤ repeatLength input candidate pos then
          .ok (some ⟨pos - candidate, repeatLength input candidate pos⟩)
        else c.walk ⟨pos, floor, longestAt input pos, goodEnough⟩ attempts c.links[candidate]
          (repeatLength input candidate pos) (some ⟨pos - candidate, repeatLength input candidate pos⟩)
      else c.walk ⟨pos, floor, longestAt input pos, goodEnough⟩ attempts c.links[candidate] bestLength best := by
  have hfew : longestAt input pos ≤ c.input.size - pos := by
    rw [hc.input_eq]
    exact Nat.min_le_left _ _
  have hread : pos + bestLength < c.input.size := by omega
  obtain ⟨n, hcommon, hagree⟩ :=
    commonPrefix_agreeFor hback (by omega : pos + longestAt input pos ≤ c.input.size)
  have hn : n = repeatLength input candidate pos := by
    rw [hc.input_eq] at hagree
    exact hagree.unique (repeatLength_agreeFor input candidate pos)
  rw [walk, if_neg hgo, dif_pos hlt, dif_pos hback, dif_pos hread, ← hn]
  by_cases hlonger : bestLength < n
  · have hbyte : c.input[candidate + bestLength] = c.input[pos + bestLength] := by
      have h := hagree.equal bestLength hlonger
      rwa [byteAt_of_lt (by omega), byteAt_of_lt hread] at h
    simp only [if_pos hbyte, hcommon]
  · simp only [hcommon, if_neg hlonger, ite_self]

theorem walk_zero (w : Walk) : c.walk w attempts 0 bestLength best = .ok best := by
  cases attempts with
  | zero => rfl
  | succ attempts => rw [walk, if_pos (.inl rfl)]

/-- A walk along a chain is the scan of its positions. That it stops at a match to the end of the input, whatever
is wanted, loses nothing. -/
theorem walk_eq_scan {chain : List Nat} (hc : c.Over params input) (hlinked : Linked c.links candidate chain)
    (hchain : chain.Pairwise (· > ·)) (hbefore : ∀ q ∈ chain, q < pos)
    (hroom : bestLength < longestAt input pos)
    (hbest : ∀ n, bestLength < n ↔ minMatch ≤ n ∧ ∀ m ∈ best, m.length < n) :
    c.walk ⟨pos, floor, longestAt input pos, min goodEnough (longestAt input pos)⟩ attempts candidate bestLength
      best = .ok (scan input pos goodEnough ((inWindow floor pos chain).take attempts) best) := by
  induction attempts generalizing candidate bestLength best chain with
  | zero => rfl
  | succ attempts ih =>
    cases chain with
    | nil =>
      rw [walk, if_pos (.inl hlinked)]
      rfl
    | cons q qs =>
      obtain ⟨rfl, next, hnext, hrest⟩ := hlinked
      by_cases hstop : candidate = 0 ∨ candidate < floor
      · rw [walk, if_pos hstop, inWindow_eq_nil hchain hstop]
        rfl
      have hback := hbefore candidate List.mem_cons_self
      obtain ⟨hlt, rfl⟩ := Array.getElem?_eq_some_iff.mp hnext
      have hqs := (List.pairwise_cons.mp hchain).2
      have hbefore' : ∀ q ∈ qs, q < pos := fun q hq => hbefore q (List.mem_cons_of_mem _ hq)
      rw [walk_succ hc hstop hlt hback hroom, inWindow_cons qs (by omega) hback, List.take_succ_cons, scan]
      generalize hn : repeatLength input candidate pos = n
      have hmost : n ≤ longestAt input pos := hn ▸ repeatLength_le input candidate pos
      by_cases hlonger : bestLength < n
      case neg =>
        rw [if_neg hlonger, if_neg ((hbest n).not.mp hlonger)]
        exact ih hrest hqs hbefore' hroom hbest
      have haccept := (hbest n).mp hlonger
      rw [if_pos hlonger, if_pos haccept]
      by_cases hgood : goodEnough ≤ n
      · rw [if_pos (by omega), if_pos hgood]
      rw [if_neg hgood]
      -- The walk stops here and the scan goes on, but no later candidate is longer.
      by_cases hfull : longestAt input pos ≤ n
      · rw [if_pos (by omega), scan_of_longest _ hfull]
      rw [if_neg (by omega)]
      refine ih hrest hqs hbefore' (by omega) ?_
      intro x
      constructor
      · intro hx
        refine ⟨Nat.le_trans haccept.1 (Nat.le_of_lt hx), ?_⟩
        rintro m ⟨⟩
        exact hx
      · rintro ⟨_, hall⟩
        exact hall _ rfl

theorem bucket_descending {k : Nat} (h : entered.Pairwise (· > ·)) :
    (bucket params input k entered).Pairwise (· > ·) := h.filter _

theorem search_eq_scan (h : c.Holds params input entered) (hbefore : ∀ q ∈ entered, q < pos)
    (hroom : minMatch ≤ input.size - pos) :
    c.search pos = .ok (scan input pos params.goodEnough
      ((candidates params input entered pos).take params.maxAttempts) none) := by
  have hleast : minMatch - 1 < longestAt input pos := by
    rw [longestAt]
    simp only [minMatch, maxMatchLength] at *
    omega
  rw [search, candidates]
  by_cases hhashable : c.hashable pos = true
  case neg =>
    have hnot := Bool.eq_false_iff.mpr hhashable
    rw [newest, if_neg hhashable, hashOf_of_not_hashable h.serves hnot, List.take_nil]
    rfl
  obtain ⟨_, k, hhash, hk⟩ := hash_ok h.serves hhashable
  have hnothing : ∀ n, minMatch - 1 < n ↔ minMatch ≤ n ∧ ∀ m ∈ (none : Option Match), m.length < n := by
    intro n
    constructor
    · intro hlt
      exact ⟨Nat.le_of_pred_lt hlt, fun m hm => absurd hm (Option.not_mem_none m)⟩
    · rintro ⟨hle, _⟩
      exact Nat.lt_of_lt_of_le (by decide) hle
  have hwalk : c.walk ⟨pos, pos - params.windowSize, longestAt input pos,
      min params.goodEnough (longestAt input pos)⟩ params.maxAttempts c.heads[k] (minMatch - 1) none = .ok _ :=
    walk_eq_scan h.serves (h.chained k hk) (bucket_descending h.descending)
      (fun q hq => hbefore q (List.mem_filter.mp hq).1) hleast hnothing
  rw [hashOf_of_hashable h.serves hhash]
  rw [newest, if_pos hhashable, hhash]
  simp only [dif_pos hk]
  by_cases hzero : c.heads[k] = 0
  · rw [hzero, walk_zero] at hwalk
    rw [if_pos hzero]
    exact hwalk
  · rw [if_neg hzero]
    simp only [remaining, h.serves.input_eq, h.serves.params_eq]
    exact hwalk

/-- The tables are those of a session that has searched the positions in turn. -/
structure Follows (c : Chains) (params : SearchParams) (input : ByteArray) (searched : List Nat) : Prop where
  next_le : ∀ pos, (∀ p ∈ searched, p < pos) → c.next ≤ pos
  holds : c.Holds params input (enteredBefore params searched c.next)

theorem enteredBefore_lt (hlater : ∀ p ∈ searched, p < pos) :
    ∀ q ∈ enteredBefore params searched pos, q < pos := by
  intro q hq
  rw [enteredBefore] at hq
  split at hq
  next => exact List.mem_range.mp (List.mem_reverse.mp hq)
  next => exact hlater q (List.mem_reverse.mp hq)

theorem enteredBefore_succ (params : SearchParams) (searched : List Nat) (pos : Nat) :
    enteredBefore params (searched ++ [pos]) (pos + 1) = pos :: enteredBefore params searched pos := by
  rw [enteredBefore, enteredBefore]
  split
  next => rw [List.range_succ, List.reverse_append, List.reverse_singleton, List.singleton_append]
  next => rw [List.reverse_append, List.reverse_singleton, List.singleton_append]

theorem range_append_range' {m n : Nat} (h : m ≤ n) :
    List.range m ++ List.range' m (n - m) = List.range n := by
  have happend := @List.range'_append_1 0 m (n - m)
  rwa [Nat.zero_add, Nat.add_sub_cancel' h, ← List.range_eq_range', ← List.range_eq_range'] at happend

/-- Before a search all is in the tables that belongs there. -/
theorem catchUp_holds (h : c.Follows params input searched) (hlater : ∀ p ∈ searched, p < pos) :
    ∃ c', c.catchUp pos = .ok c' ∧ c'.next = pos ∧
      c'.Holds params input (enteredBefore params searched pos) := by
  have hle := h.next_le pos hlater
  have hholds := h.holds
  have hparams := h.holds.serves.params_eq
  rw [catchUp]
  by_cases hcovered : params.insertCovered = true
  · have hbefore : ∀ q ∈ (List.range c.next).reverse, q < c.next := fun q hq =>
      List.mem_range.mp (List.mem_reverse.mp hq)
    rw [enteredBefore, if_pos hcovered] at hholds
    obtain ⟨c', hinsert, hnext, h'⟩ := insertNext_holds (pos - c.next) hholds hbefore
    rw [if_pos (hparams ▸ hcovered), enteredBefore, if_pos hcovered]
    refine ⟨c', hinsert, by omega, ?_⟩
    rwa [← List.reverse_append, range_append_range' hle] at h'
  · rw [enteredBefore, if_neg hcovered] at hholds
    rw [if_neg (hparams ▸ hcovered), enteredBefore, if_neg hcovered]
    refine ⟨_, rfl, ?_, ?_⟩
    · split
      next => rfl
      next => omega
    · split
      next => exact hholds.next pos
      next => exact hholds

theorem not_hashable_of_short (h : c.remaining pos < minMatch) : c.hashable pos = false := by
  rw [hashable, SearchParams.hashWidth, decide_eq_false_iff_not]
  simp only [minMatch] at h
  split <;> omega

/-- Near the end nothing is found and nothing is inserted. -/
theorem Follows.snoc_of_short (h : c.Follows params input searched) (hlater : ∀ p ∈ searched, p < pos)
    (hshort : c.remaining pos < minMatch) :
    plainSearch params input searched pos = none ∧ c.Follows params input (searched ++ [pos]) := by
  have hnone := hashOf_of_not_hashable h.holds.serves (not_hashable_of_short hshort)
  refine ⟨?_, ?_, ?_⟩
  · rw [plainSearch, candidates, hnone, List.take_nil]
    rfl
  · intro p hp
    exact h.next_le p fun q hq => hp q (List.mem_append_left _ hq)
  · have hholds := h.holds
    rw [enteredBefore] at hholds ⊢
    split at hholds
    next hcovered =>
      rw [if_pos hcovered]
      exact hholds
    next hcovered =>
      rw [if_neg hcovered, List.reverse_append, List.reverse_singleton, List.singleton_append]
      exact hholds.cons_of_none (fun q hq => hlater q (List.mem_reverse.mp hq)) hnone

/-- A search behind all others of its session gives what the plain search gives. -/
theorem find_follows (h : c.Follows params input searched) (hlater : ∀ p ∈ searched, p < pos) :
    ∃ c', c.find pos = .ok (plainSearch params input searched pos, c') ∧
      c'.Follows params input (searched ++ [pos]) := by
  by_cases hroom : c.remaining pos < minMatch
  · obtain ⟨hnone, hfollows⟩ := h.snoc_of_short hlater hroom
    rw [hnone]
    exact ⟨c, if_pos hroom, hfollows⟩
  obtain ⟨c₁, hcatch, hnext, h₁⟩ := catchUp_holds h hlater
  have hbefore : ∀ q ∈ enteredBefore params searched pos, q < pos := enteredBefore_lt hlater
  have hleft : minMatch ≤ input.size - pos := by
    rw [remaining, h.holds.serves.input_eq] at hroom
    exact Nat.le_of_not_lt hroom
  have hsearch := search_eq_scan h₁ hbefore hleft
  obtain ⟨c₂, hinsert, hnext₂, h₂⟩ := insertNext_holds (pos + 1 - c₁.next) h₁ (hnext ▸ hbefore)
  refine ⟨c₂, find_eq_ok hroom hcatch hsearch hinsert, ?_, ?_⟩
  · intro p hp
    have hlt := hp pos (List.mem_append_right _ List.mem_cons_self)
    omega
  · have hone : pos + 1 - pos = 1 := by omega
    rw [hnext, hone] at h₂
    rw [hnext₂, hnext, hone, enteredBefore_succ]
    exact h₂

end Chains

end LempelZiv
