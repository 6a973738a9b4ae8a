import LempelZiv.Proofs.FinderRuns
import LempelZiv.Proofs.ChainedPositions

namespace LempelZiv

namespace Chains

variable {c c' : Chains} {params : SearchParams} {input : ByteArray} {searched : List Nat} {pos length : Nat}

theorem reset_follows {before : ByteArray} (hc : c.Over params before) (hreset : c.reset input = .ok c') :
    c'.Follows params input [] := by
  have hc' := reset_keeps_over hc hreset
  obtain ⟨_, rfl⟩ := reset_eq_ok hreset
  have hnothing : enteredBefore params [] 0 = [] := by
    rw [enteredBefore]
    split <;> rfl
  refine ⟨fun pos _ => Nat.zero_le pos, ?_⟩
  change Holds _ params input (enteredBefore params [] 0)
  rw [hnothing]
  refine ⟨hc', .nil, ?_⟩
  intro k hk
  exact (Array.mem_replicate.mp (Array.getElem_mem hk)).2

theorem better_follows (h : c.Follows params input searched) (hlater : ∀ p ∈ searched, p < pos + 1)
    (hasks : ¬(params.lazyCutoff ≤ length ∨ input.size - pos < 2)) :
    ∃ c', c'.Follows params input (searched ++ [pos + 1]) ∧
      c.better pos length = match plainSearch params input searched (pos + 1) with
        | none => .ok (none, c')
        | some m => (addSize length params.lazyMargin).map fun bar =>
          (if bar < m.length then some m else none, c') := by
  obtain ⟨c', hfind, h'⟩ := find_follows h hlater
  have hasks' : ¬(c.params.lazyCutoff ≤ length ∨ c.remaining pos < 2) := by
    rwa [remaining, h.holds.serves.params_eq, h.holds.serves.input_eq]
  refine ⟨c', h', ?_⟩
  cases hplain : plainSearch params input searched (pos + 1) with
  | none =>
    rw [hplain] at hfind
    exact better_of_none hasks' hfind
  | some m =>
    rw [hplain] at hfind
    have hbetter := better_of_some hasks' hfind
    rwa [h'.holds.serves.params_eq] at hbetter

end Chains

namespace Finder

/-- Where the query searches, if it does. -/
def Query.searches (f : Finder) : Query → List Nat
  | .find pos => [pos]
  | .choose length =>
    if f.params.lazyCutoff ≤ length ∨ f.chains.remaining f.cursor < 2 then [] else [f.cursor + 1]
  | _ => []

/-- Where the queries search, in turn. -/
def searches (f : Finder) : List Query → List Nat
  | [] => []
  | q :: qs => q.searches f ++ match f.ask q with
    | .ok (_, f') => f'.searches qs
    | .error _ => []

/-- The choice beside a match of `length` bytes, when `next` is what the search one byte later gives. -/
def choiceBeside (params : SearchParams) (length : Nat) : (next : Option Match) → LazyChoice
  | none => .keep
  | some next => if length + params.lazyMargin < next.length then .defer next else .keep

variable {f f' fresh used start : Finder} {q : Query} {history session : List Query} {response : Response}
  {params : SearchParams} {input : ByteArray} {searched : List Nat} {pos length : Nat}

theorem find_eq_plain (h : f.chains.Follows params input searched) (hlater : ∀ p ∈ searched, p < pos) :
    ∃ f', f.find pos = .ok (plainSearch params input searched pos, f') ∧
      f'.chains.Follows params input (searched ++ [pos]) := by
  obtain ⟨c, hfind, hc⟩ := Chains.find_follows h hlater
  refine ⟨{ f with chains := c }, ?_, hc⟩
  rw [find, hfind]
  rfl

theorem choose_eq_plain (h : f.chains.Follows params input searched) (hlater : ∀ p ∈ searched, p < f.cursor + 1)
    (hasks : ¬(params.lazyCutoff ≤ length ∨ input.size - f.cursor < 2))
    (hbar : length + params.lazyMargin < sizeLimit) :
    ∃ f', f.choose length =
      .ok (choiceBeside params length (plainSearch params input searched (f.cursor + 1)), f') := by
  obtain ⟨c, _, hbetter⟩ := Chains.better_follows h hlater hasks
  rw [choose, hbetter]
  cases plainSearch params input searched (f.cursor + 1) with
  | none => exact ⟨_, rfl⟩
  | some m =>
    refine ⟨{ f with chains := c }, ?_⟩
    simp only [addSize_eq_ok hbar, choiceBeside]
    by_cases hlonger : length + params.lazyMargin < m.length
    · simp only [Except.map, if_pos hlonger]
    · simp only [Except.map, if_neg hlonger]

theorem choose_follows {choice : LazyChoice} (h : f.chains.Follows params input searched)
    (hchoose : f.choose length = .ok (choice, f'))
    (hlater : ∀ p ∈ searched, ∀ p' ∈ (Query.choose length).searches f, p < p') :
    f'.chains.Follows params input (searched ++ (Query.choose length).searches f) := by
  obtain ⟨⟨next, c⟩, hbetter, heq⟩ := map_eq_ok_iff.mp hchoose
  cases heq
  rw [Query.searches] at hlater ⊢
  split at hlater
  next hkeep =>
    rw [if_pos hkeep, List.append_nil]
    have hsame : f.chains.better f.cursor length = .ok (none, f.chains) := if_pos hkeep
    rw [hsame] at hbetter
    cases hbetter
    exact h
  next hasks =>
    rw [if_neg hasks]
    have hasks' : ¬(params.lazyCutoff ≤ length ∨ input.size - f.cursor < 2) := by
      rw [← h.holds.serves.params_eq, ← h.holds.serves.input_eq]
      exact hasks
    obtain ⟨c', h', hbetter'⟩ := Chains.better_follows h (fun p hp => hlater p hp _ List.mem_cons_self) hasks'
    rw [hbetter'] at hbetter
    split at hbetter
    next =>
      cases hbetter
      exact h'
    next =>
      obtain ⟨_, _, heq⟩ := map_eq_ok_iff.mp hbetter
      cases heq
      exact h'

/-- What is no search leaves the tables as they are. -/
theorem ask_follows (h : f.chains.Follows params input searched) (hask : f.ask q = .ok (response, f'))
    (hreset : ∀ x, q ≠ .reset x) (hinsert : ∀ p, q ≠ .insert p)
    (hlater : ∀ p ∈ searched, ∀ p' ∈ q.searches f, p < p') :
    f'.chains.Follows params input (searched ++ q.searches f) := by
  cases q with
  | reset x => exact absurd rfl (hreset x)
  | insert p => exact absurd rfl (hinsert p)
  | find pos =>
    obtain ⟨f₁, hfind, h₁⟩ := find_eq_plain h fun p hp => hlater p hp pos List.mem_cons_self
    rw [ask, hfind] at hask
    cases hask
    exact h₁
  | choose length =>
    obtain ⟨⟨choice, f₁⟩, hchoose, heq⟩ := map_eq_ok_iff.mp hask
    cases heq
    exact choose_follows h hchoose hlater
  | advance n =>
    obtain ⟨f₁, hadvance, heq⟩ := map_eq_ok_iff.mp hask
    obtain ⟨_, _, rfl⟩ := map_eq_ok_iff.mp hadvance
    cases heq
    simpa only [Query.searches, List.append_nil] using h
  | newest pos =>
    obtain ⟨_, _, heq⟩ := map_eq_ok_iff.mp hask
    cases heq
    simpa only [Query.searches, List.append_nil] using h
  | previous pos =>
    cases hask
    simpa only [Query.searches, List.append_nil] using h
  | position =>
    cases hask
    simpa only [Query.searches, List.append_nil] using h
  | atEnd =>
    cases hask
    simpa only [Query.searches, List.append_nil] using h
  | params =>
    cases hask
    simpa only [Query.searches, List.append_nil] using h

/-- Searches behind each other keep the tables those of one session. -/
theorem Runs.follows (hrun : f.Runs session f') (h : f.chains.Follows params input searched)
    (hreset : ∀ x, .reset x ∉ session) (hinsert : ∀ p, .insert p ∉ session)
    (hlater : (searched ++ f.searches session).Pairwise (· < ·)) :
    f'.chains.Follows params input (searched ++ f.searches session) := by
  induction session generalizing f searched with
  | nil =>
    rw [runs_nil.mp hrun, searches, List.append_nil]
    exact h
  | cons q qs ih =>
    obtain ⟨response, f₁, hask, hrest⟩ := runs_cons.mp hrun
    rw [searches, hask, ← List.append_assoc] at hlater ⊢
    have hfirst := List.pairwise_append.mp (List.pairwise_append.mp hlater).1
    have h₁ := ask_follows h hask (fun x heq => hreset x (heq ▸ List.mem_cons_self))
      (fun p heq => hinsert p (heq ▸ List.mem_cons_self)) hfirst.2.2
    exact ih hrest h₁ (fun x hx => hreset x (List.mem_cons_of_mem q hx))
      (fun p hp => hinsert p (List.mem_cons_of_mem q hp)) hlater

/-- In a session whose searches go forward, what a search finds is what the scan of the earlier positions finds,
whatever the finder was used for before. If the scan is not cut short it is the longest repeat in the window. -/
theorem find_eq_plainSearch (hpos : 1 ≤ params.hashLog) (hle : params.hashLog ≤ 32)
    (hnew : new params = .ok fresh) (hhistory : fresh.Runs history used) (hstart : used.reset input = .ok start)
    (hsession : start.Runs session f) (hreset : ∀ x, .reset x ∉ session) (hinsert : ∀ p, .insert p ∉ session)
    (hlater : (start.searches session ++ [pos]).Pairwise (· < ·)) :
    (∃ f', f.find pos = .ok (plainSearch params input (start.searches session) pos, f')) ∧
    (∀ length, pos = f.cursor + 1 → ¬(params.lazyCutoff ≤ length ∨ input.size - f.cursor < 2) →
      length + params.lazyMargin < sizeLimit →
      ∃ f', f.choose length =
        .ok (choiceBeside params length (plainSearch params input (start.searches session) pos), f')) ∧
    (params.insertCovered = true → params.hashesFive = false →
      (candidates params input (enteredBefore params (start.searches session) pos) pos).length ≤
        params.maxAttempts →
      (∀ q ∈ candidates params input (enteredBefore params (start.searches session) pos) pos,
        params.goodEnough ≤ repeatLength input q pos → longestAt input pos ≤ repeatLength input q pos) →
      LongestRepeat params input pos (plainSearch params input (start.searches session) pos)) := by
  have hfresh := over_of_new hpos hle hnew
  have hbegun : start.chains.Follows params input [] := by
    obtain ⟨c, hreset, rfl⟩ := map_eq_ok_iff.mp hstart
    exact Chains.reset_follows (hhistory.over hfresh) hreset
  obtain ⟨hforward, _, hbehind⟩ := List.pairwise_append.mp hlater
  have hfollows : f.chains.Follows params input (start.searches session) :=
    hsession.follows hbegun hreset hinsert hforward
  have hlast : ∀ p ∈ start.searches session, p < pos := fun p hp => hbehind p hp pos List.mem_cons_self
  refine ⟨?_, ?_, plainSearch_longest hpos hle⟩
  · obtain ⟨f', hfind, _⟩ := find_eq_plain hfollows hlast
    exact ⟨f', hfind⟩
  · rintro length rfl hasks hbar
    exact choose_eq_plain hfollows hlast hasks hbar

theorem find_eq_plainSearch_over_old_links :
    let params : SearchParams := { hashLog := 3 }
    let fresh : Finder := ⟨⟨params, ByteArray.empty, #[0, 0, 0, 0, 0, 0, 0, 0], #[], 0⟩, 0⟩
    let before : ByteArray := ⟨#[97, 97, 97, 97, 97, 97, 97, 97, 97, 97, 97, 97]⟩
    let used : Finder :=
      ⟨⟨params, before, #[0, 7, 0, 0, 0, 0, 0, 0], #[0, 0, 0, 7, 0, 0, 0, 3, 0, 0, 0, 0], 0⟩, 0⟩
    let input : ByteArray := ⟨#[95, 97, 98, 99, 100, 95, 97, 98, 99, 100]⟩
    let start : Finder :=
      ⟨⟨params, input, #[0, 0, 0, 0, 0, 0, 0, 0], #[0, 0, 0, 7, 0, 0, 0, 3, 0, 0, 0, 0], 0⟩, 0⟩
    let f : Finder :=
      ⟨⟨params, input, #[0, 0, 0, 1, 0, 0, 0, 0], #[0, 0, 0, 7, 0, 0, 0, 3, 0, 0, 0, 0], 2⟩, 5⟩
    new params = .ok fresh ∧ fresh.Runs [.reset before, .insert 7, .insert 3, .insert 7] used ∧
      used.reset input = .ok start ∧ start.Runs [.find 1, .advance 5] f ∧
      (start.searches [.find 1, .advance 5] ++ [6]).Pairwise (· < ·) ∧
      (∃ f', f.find 6 = .ok (some ⟨5, 4⟩, f')) ∧ (∃ f', f.choose 1 = .ok (.defer ⟨5, 4⟩, f')) ∧
      LongestRepeat params input 6 (some ⟨5, 4⟩) := by
  intro params fresh before used input start f
  have hnew : new params = .ok fresh := by cbv
  have hused : fresh.Runs [.reset before, .insert 7, .insert 3, .insert 7] used :=
    ⟨[.done, .done, .done, .done], by cbv⟩
  have hstart : used.reset input = .ok start := by cbv
  have hsession : start.Runs [.find 1, .advance 5] f := ⟨[.found none, .done], by cbv⟩
  have hsearches : start.searches [.find 1, .advance 5] = [1] := by cbv
  have hlater : (start.searches [.find 1, .advance 5] ++ [6]).Pairwise (· < ·) := by
    rw [hsearches]
    decide
  have hplain : plainSearch params input (start.searches [.find 1, .advance 5]) 6 = some ⟨5, 4⟩ := by
    rw [hsearches]
    cbv
  have hfew : (candidates params input
      (enteredBefore params (start.searches [.find 1, .advance 5]) 6) 6).length ≤ params.maxAttempts := by
    rw [hsearches]
    cbv
  have hmost : longestAt input 6 ≤ params.goodEnough := by cbv
  obtain ⟨hfind, hchoose, hlongest⟩ := find_eq_plainSearch (by decide) (by decide) hnew hused hstart hsession
    (by simp) (by simp) hlater
  rw [hplain] at hfind hchoose hlongest
  exact ⟨hnew, hused, hstart, hsession, hlater, hfind, hchoose 1 (by cbv) (by cbv) (by cbv),
    hlongest (by cbv) (by cbv) hfew fun _ _ hstop => Nat.le_trans hmost hstop⟩

end Finder

end LempelZiv
