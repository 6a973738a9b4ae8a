import LempelZiv.Proofs.FinderRuns

namespace LempelZiv

namespace Chains

/-- Heads that do not stand before `next`, and links that do not lead backwards, are among those given. -/
structure Allows (c : Chains) (next : Nat) (ahead : Nat → Prop) (crooked : Nat → Nat → Prop) : Prop where
  heads : ∀ q ∈ c.heads, q ≠ 0 → q < next ∨ ahead q
  links : ∀ p q, c.links[p]? = some q → q ≠ 0 → q < p ∨ crooked p q

variable {c c' : Chains} {pos next next' : Nat} {ahead ahead' : Nat → Prop}
  {crooked crooked' : Nat → Nat → Prop}

theorem Allows.imp (h : c.Allows next ahead crooked) (hle : next ≤ next') (hahead : ∀ q, ahead q → ahead' q)
    (hcrooked : ∀ p q, crooked p q → crooked' p q) : c.Allows next' ahead' crooked' where
  heads q hq hne := (h.heads q hq hne).imp (fun hlt => Nat.lt_of_lt_of_le hlt hle) (hahead q)
  links p q hpq hne := (h.links p q hpq hne).imp_right (hcrooked p q)

/-- An insertion makes one head and one link, which leads from the new position to the head before. -/
theorem Allows.insert (h : c.Allows next ahead crooked) (hok : c.insert pos = .ok c')
    (hahead : pos < next ∨ ahead pos)
    (hlink : ∀ q, c.newest pos = .ok (some q) → q < pos ∨ crooked pos q) : c'.Allows next ahead crooked := by
  rcases insert_eq_ok hok with ⟨_, rfl⟩ | ⟨k, hk, hp, hhashable, hhash, rfl⟩
  · exact h
  refine ⟨?_, ?_⟩
  · intro q (hq : q ∈ c.heads.set k pos hk) hne
    rcases Array.mem_or_eq_of_mem_set hq with hq | rfl
    · exact h.heads q hq hne
    · exact hahead
  · intro p q (hpq : (c.links.set pos c.heads[k] hp)[p]? = some q) hne
    rw [Array.getElem?_set] at hpq
    split at hpq
    next heq =>
      cases hpq
      subst heq
      exact hlink _ (newest_eq_some.mpr ⟨hhashable, k, hk, hhash, rfl, hne⟩)
    next => exact h.links p q hpq hne

/-- When searches insert a position all heads stand before it, but for those that were ahead of it. -/
theorem Allows.enters (ahead : Nat → Nat → Prop) (hmono : ∀ m n q, m ≤ n → ahead m q → ahead n q)
    (hcrooked : ∀ p q, ahead p q → crooked p q) (h : c.Allows c.next (ahead c.next) crooked)
    (henters : c.Enters c') : c'.Allows c'.next (ahead c'.next) crooked := by
  induction henters with
  | done => exact h
  | @insert c c₁ _ hinsert _ ih =>
    apply ih
    have hmore : c.Allows (c.next + 1) (ahead (c.next + 1)) crooked :=
      h.imp (Nat.le_succ _) (fun q => hmono _ _ q (Nat.le_succ _)) (fun _ _ => id)
    have hinserted : c₁.Allows (c.next + 1) (ahead (c.next + 1)) crooked := by
      refine hmore.insert hinsert (.inl (Nat.lt_succ_self _)) ?_
      intro q hq
      obtain ⟨_, k, hk, _, rfl, hne⟩ := newest_eq_some.mp hq
      exact (h.heads _ (Array.getElem_mem hk) hne).imp_right (hcrooked _ _)
    rw [← insert_next hinsert] at hinserted
    exact ⟨hinserted.heads, hinserted.links⟩
  | pass hle _ ih =>
    have hmore := h.imp hle (fun q => hmono _ _ q hle) (fun _ _ => id)
    exact ih ⟨hmore.heads, hmore.links⟩

theorem Allows.reset {input : ByteArray} (h : c.Allows next ahead crooked) (hok : c.reset input = .ok c') :
    c'.Allows c'.next ahead' crooked := by
  obtain ⟨_, rfl⟩ := reset_eq_ok hok
  refine ⟨?_, ?_⟩
  · intro q hq hne
    exact absurd (Array.mem_replicate.mp hq).2 hne
  · intro p q (hpq : (c.links ++ _)[p]? = some q) hne
    rw [Array.getElem?_append] at hpq
    split at hpq
    next => exact h.links p q hpq hne
    next =>
      rw [Array.getElem?_replicate] at hpq
      split at hpq
      next =>
        cases hpq
        exact absurd rfl hne
      next => cases hpq

theorem empty_allows {params : SearchParams} (h : empty params = .ok c) : c.Allows c.next ahead crooked := by
  rw [empty] at h
  split at h
  next =>
    cases h
    refine ⟨?_, ?_⟩
    · intro q hq hne
      exact absurd (Array.mem_replicate.mp hq).2 hne
    · intro p q hpq
      cases hpq
  next => cases h

end Chains

namespace Finder

variable {fresh f f' : Finder} {qs : List Query} {params : SearchParams} {p q n : Nat}

/-- One of the queries inserts `pos` from outside, into a finder of which `P` holds. -/
def Inserted (fresh : Finder) (qs : List Query) (pos : Nat) (P : Finder → Prop) : Prop :=
  ∃ before after f, qs = before ++ .insert pos :: after ∧ fresh.Runs before f ∧ P f

/-- The first `n` positions of the chain that goes through `pos`, from there on. -/
def trail (f : Finder) : (n : Nat) → (pos : Nat) → List Nat
  | 0, _ => []
  | n + 1, pos =>
    pos :: match f.previous pos with
      | some q => f.trail n q
      | none => []

theorem Inserted.imp {P P' : Finder → Prop} (hP : ∀ g, P g → P' g) (h : fresh.Inserted qs p P) :
    fresh.Inserted qs p P' := by
  obtain ⟨before, after, g, heq, hrun, hg⟩ := h
  exact ⟨before, after, g, heq, hrun, hP g hg⟩

theorem Inserted.snoc {P : Finder → Prop} (last : Query) (h : fresh.Inserted qs p P) :
    fresh.Inserted (qs ++ [last]) p P := by
  obtain ⟨before, after, f, rfl, hrun, hP⟩ := h
  exact ⟨before, after ++ [last], f, List.append_assoc _ _ _, hrun, hP⟩

theorem Runs.allows (hnew : new params = .ok fresh) (hrun : fresh.Runs qs f) :
    f.chains.Allows f.chains.next (fun q => fresh.Inserted qs q (fun g => g.chains.next ≤ f.chains.next))
      (fun p q => fresh.Inserted qs p (fun g => g.newest p = .ok (some q)) ∨
        fresh.Inserted qs q (fun g => g.chains.next ≤ p)) := by
  -- From the last query back: what was inserted is told by the queries before it.
  induction qs using List.reverseRecOn generalizing f with
  | nil =>
    obtain ⟨c, hc, rfl⟩ := map_eq_ok_iff.mp hnew
    rw [runs_nil.mp hrun]
    exact Chains.empty_allows hc
  | append_singleton qs last ih =>
    obtain ⟨f₁, response, hbefore, hask⟩ := runs_snoc.mp hrun
    have h := (ih hbefore).imp (Nat.le_refl _) (fun _ => Inserted.snoc last)
      (fun _ _ => Or.imp (Inserted.snoc last) (Inserted.snoc last))
    cases ask_changes hask with
    | reset hreset => exact h.reset hreset
    | search _ henters =>
      refine Chains.Allows.enters (fun n q => fresh.Inserted (qs ++ [last]) q fun g => g.chains.next ≤ n)
        ?_ (fun _ _ => Or.inr) h henters
      intro m n q hle
      exact Inserted.imp fun g hg => Nat.le_trans hg hle
    | @insert pos _ _ hinsert =>
      rw [Chains.insert_next hinsert]
      refine h.insert hinsert (.inr ⟨qs, [], f₁, rfl, hbefore, Nat.le_refl _⟩) ?_
      intro q hnewest
      exact .inr (.inl ⟨qs, [], f₁, rfl, hbefore, hnewest⟩)

theorem previous_eq_some : f.previous p = some q ↔ f.chains.links[p]? = some q ∧ q ≠ 0 := by
  rw [previous, Chains.previous, Option.filter_eq_some_iff, decide_eq_true_eq]

theorem trail_descending (h : ∀ p q, f.previous p = some q → q < p) :
    (f.trail n p).Pairwise (· > ·) ∧ ∀ q ∈ f.trail n p, q ≤ p := by
  induction n generalizing p with
  | zero => exact ⟨.nil, fun q hq => absurd hq List.not_mem_nil⟩
  | succ n ih =>
    rw [trail]
    cases hprevious : f.previous p with
    | none =>
      refine ⟨List.pairwise_singleton _ _, ?_⟩
      intro q hq
      rw [List.mem_singleton.mp hq]
    | some q =>
      have hlt := h p q hprevious
      obtain ⟨hrest, hle⟩ := ih (p := q)
      refine ⟨List.pairwise_cons.mpr ⟨?_, hrest⟩, ?_⟩
      · intro q' hq'
        exact Nat.lt_of_le_of_lt (hle q' hq') hlt
      · intro q' hq'
        rcases List.mem_cons.mp hq' with rfl | hq'
        · exact Nat.le_refl _
        · exact Nat.le_of_lt (Nat.lt_of_le_of_lt (hle q' hq') hlt)

/-- Whatever has been done with a finder, a link leads backwards, unless it goes from a position that was
inserted from outside to the head that it met there, or to one that was inserted from outside when no search had
come to where it starts. Where all was inserted by searches no chain comes to a position twice. -/
theorem previous_lt_or_inserted (hnew : new params = .ok fresh) (hrun : fresh.Runs qs f) :
    (∀ p q, f.previous p = some q →
      q < p ∨ fresh.Inserted qs p (fun g => g.newest p = .ok (some q)) ∨
        fresh.Inserted qs q (fun g => g.chains.next ≤ p)) ∧
    ((∀ p, .insert p ∉ qs) → ∀ n p, (f.trail n p).Pairwise (· > ·)) := by
  have hlinks : ∀ p q, f.previous p = some q →
      q < p ∨ fresh.Inserted qs p (fun g => g.newest p = .ok (some q)) ∨
        fresh.Inserted qs q (fun g => g.chains.next ≤ p) := by
    intro p q hprevious
    obtain ⟨hlink, hne⟩ := previous_eq_some.mp hprevious
    exact (hrun.allows hnew).links p q hlink hne
  refine ⟨hlinks, ?_⟩
  intro hnone n p
  have hnot : ∀ p P, ¬fresh.Inserted qs p P := by
    rintro p P ⟨before, after, f, rfl, _⟩
    exact hnone p (List.mem_append_right _ List.mem_cons_self)
  refine (trail_descending ?_).1
  intro p q hprevious
  rcases hlinks p q hprevious with hlt | hinserted | hinserted
  · exact hlt
  · exact absurd hinserted (hnot _ _)
  · exact absurd hinserted (hnot _ _)

theorem previous_lt_or_inserted_ahead_of_search :
    let fresh : Finder := ⟨⟨{ hashLog := 3 }, ByteArray.empty, #[0, 0, 0, 0, 0, 0, 0, 0], #[], 0⟩, 0⟩
    let input : ByteArray := ⟨#[95, 97, 98, 99, 100, 95, 97, 98, 99, 100]⟩
    let qs : List Query := [.reset input, .insert 6, .find 6]
    let f : Finder :=
      ⟨⟨{ hashLog := 3 }, input, #[3, 2, 4, 6, 0, 0, 5, 0], #[0, 6, 0, 0, 0, 0, 1, 0, 0, 0], 7⟩, 0⟩
    new { hashLog := 3 } = .ok fresh ∧ fresh.Runs qs f ∧
      (∀ p q, f.previous p = some q →
        q < p ∨ fresh.Inserted qs p (fun g => g.newest p = .ok (some q)) ∨
          fresh.Inserted qs q (fun g => g.chains.next ≤ p)) ∧
      ((∀ p, .insert p ∉ qs) → ∀ n p, (f.trail n p).Pairwise (· > ·)) := by
  intro fresh input qs f
  have hnew : new { hashLog := 3 } = .ok fresh := by cbv
  have hrun : fresh.Runs qs f := ⟨[.done, .done, .found (some ⟨5, 4⟩)], by cbv⟩
  exact ⟨hnew, hrun, previous_lt_or_inserted hnew hrun⟩

/-- An insertion from outside does not keep searches from inserting the position again. Then the links go round
in a circle, from 1 to 6 and from 6 to 1. -/
theorem links_in_a_circle :
    ((new { hashLog := 3 }).bind fun f =>
      (f.askAll [.reset ⟨#[95, 97, 98, 99, 100, 95, 97, 98, 99, 100]⟩, .insert 6, .find 6, .previous 1,
        .previous 6]).map Prod.fst) =
      .ok [.done, .done, .found (some ⟨5, 4⟩), .points (some 6), .points (some 1)] := by
  cbv

end Finder

end LempelZiv
