import LempelZiv.Proofs.FinderRuns

namespace LempelZiv

namespace Chains

/-- The tables with other links. -/
abbrev withLinks (c : Chains) (links : Array Nat) : Chains := { c with links }

/-- Both tables with these links and with their own serve the input, and the ways from the heads are the same:
they lead through positions whose links agree. -/
structure Shares (c : Chains) (params : SearchParams) (input : ByteArray) (links : Array Nat)
    (live : Nat → Prop) : Prop where
  serves : c.Over params input
  serves_other : (c.withLinks links).Over params input
  heads : ∀ q ∈ c.heads, q = 0 ∨ live q
  links : ∀ p, live p → ∃ q, c.links[p]? = some q ∧ links[p]? = some q ∧ (q = 0 ∨ live q)

variable {c : Chains} {params : SearchParams} {input : ByteArray} {links : Array Nat} {live : Nat → Prop}
  {pos : Nat}

theorem Shares.next (h : c.Shares params input links live) (next : Nat) :
    ({ c with next } : Chains).Shares params input links live :=
  ⟨h.serves.next next, h.serves_other.next next, h.heads, h.links⟩

theorem insert_shares (pos : Nat) (h : c.Shares params input links live) :
    ∃ c' links' live', c.insert pos = .ok c' ∧ (c.withLinks links).insert pos = .ok (c'.withLinks links') ∧
      c'.Shares params input links' live' := by
  obtain ⟨c', hinsert, hc'⟩ := insert_over pos h.serves
  obtain ⟨d', hinsert', hd'⟩ := insert_over pos h.serves_other
  rcases insert_eq_ok hinsert with ⟨hnot, rfl⟩ | ⟨k, hk, hp, hhashable, hhash, rfl⟩
  · rcases insert_eq_ok hinsert' with ⟨_, rfl⟩ | ⟨_, _, _, hhashable, _⟩
    · exact ⟨_, links, live, hinsert, hinsert', h⟩
    · exact absurd (hhashable.symm.trans hnot) Bool.noConfusion
  · rcases insert_eq_ok hinsert' with ⟨hnot, _⟩ | ⟨k', hk', hp', _, hhash', rfl⟩
    · exact absurd (hhashable.symm.trans hnot) Bool.noConfusion
    · obtain rfl : k = k' := Except.ok.inj (hhash.symm.trans hhash')
      -- Both write the same link, so that the way from the new head is the same again.
      refine ⟨_, links.set pos c.heads[k] hp', fun p => p = pos ∨ live p, hinsert, hinsert', hc', hd', ?_, ?_⟩
      · intro q (hq : q ∈ c.heads.set k pos hk)
        rcases Array.mem_or_eq_of_mem_set hq with hq | rfl
        · exact (h.heads q hq).imp_right .inr
        · exact .inr (.inl rfl)
      · intro p hlive
        change ∃ q, (c.links.set pos c.heads[k] hp)[p]? = some q ∧ (links.set pos c.heads[k] hp')[p]? = some q ∧ _
        rw [Array.getElem?_set, Array.getElem?_set]
        by_cases heq : pos = p
        · rw [if_pos heq, if_pos heq]
          exact ⟨_, rfl, rfl, (h.heads _ (Array.getElem_mem hk)).imp_right .inr⟩
        · rw [if_neg heq, if_neg heq]
          obtain ⟨q, hq, hq', hnext⟩ := h.links p (hlive.resolve_left fun he => heq he.symm)
          exact ⟨q, hq, hq', hnext.imp_right .inr⟩

theorem insertNext_shares (n : Nat) (h : c.Shares params input links live) :
    ∃ c' links' live', insertNext n c = .ok c' ∧ insertNext n (c.withLinks links) = .ok (c'.withLinks links') ∧
      c'.Shares params input links' live' := by
  induction n generalizing c links live with
  | zero => exact ⟨c, links, live, rfl, rfl, h⟩
  | succ n ih =>
    obtain ⟨c₁, links₁, live₁, hinsert, hinsert', h₁⟩ := insert_shares c.next h
    have hnext : (c.withLinks links).next = c.next := rfl
    rw [insertNext, insertNext, hnext, hinsert, hinsert']
    exact ih (h₁.next (c₁.next + 1))

theorem catchUp_shares (pos : Nat) (h : c.Shares params input links live) :
    ∃ c' links' live', c.catchUp pos = .ok c' ∧ (c.withLinks links).catchUp pos = .ok (c'.withLinks links') ∧
      c'.Shares params input links' live' := by
  by_cases hcovered : c.params.insertCovered = true
  · have hall : c.catchUp pos = c.insertUpTo pos := if_pos hcovered
    have hall' : (c.withLinks links).catchUp pos = (c.withLinks links).insertUpTo pos := if_pos hcovered
    rw [hall, hall']
    exact insertNext_shares _ h
  · have hpass : c.catchUp pos = .ok _ := if_neg hcovered
    have hpass' : (c.withLinks links).catchUp pos = .ok _ := if_neg hcovered
    by_cases hlt : c.next < pos
    · have hlt' : (c.withLinks links).next < pos := hlt
      rw [hpass, hpass', if_pos hlt, if_pos hlt']
      exact ⟨_, links, live, rfl, rfl, h.next pos⟩
    · have hlt' : ¬(c.withLinks links).next < pos := hlt
      rw [hpass, hpass', if_neg hlt, if_neg hlt']
      exact ⟨c, links, live, rfl, rfl, h⟩

/-- A walk from a head comes along the same positions. -/
theorem walk_shares (w : Walk) (h : c.Shares params input links live) {attempts candidate bestLength : Nat}
    {best : Option Match} (hlive : candidate = 0 ∨ live candidate) :
    (c.withLinks links).walk w attempts candidate bestLength best =
      c.walk w attempts candidate bestLength best := by
  induction attempts generalizing candidate bestLength best with
  | zero => rfl
  | succ attempts ih =>
    rw [walk, walk]
    rcases hlive with rfl | hlive
    · rw [if_pos (.inl rfl), if_pos (.inl rfl)]
    obtain ⟨q, hq, hq', hnext⟩ := h.links candidate hlive
    obtain ⟨hlt, rfl⟩ := Array.getElem?_eq_some_iff.mp hq
    obtain ⟨hlt', heq⟩ := Array.getElem?_eq_some_iff.mp hq'
    have hlinks : (c.withLinks links).links[candidate] = c.links[candidate] := heq
    have hinside : candidate < (c.withLinks links).links.size := hlt'
    simp only [dif_pos hlt, dif_pos hinside, hlinks, ih hnext]

theorem search_shares (pos : Nat) (h : c.Shares params input links live) :
    (c.withLinks links).search pos = c.search pos := by
  have hnewest : (c.withLinks links).newest pos = c.newest pos := rfl
  rw [search, search, hnewest]
  obtain ⟨head, hhead, _⟩ := newest_ok pos h.serves
  rw [hhead]
  cases head with
  | none => rfl
  | some p =>
    obtain ⟨_, k, hk, _, rfl, _⟩ := newest_eq_some.mp hhead
    exact walk_shares _ h (h.heads _ (Array.getElem_mem hk))

theorem find_shares (pos : Nat) (h : c.Shares params input links live) :
    ∃ found c' links' live', c.find pos = .ok (found, c') ∧
      (c.withLinks links).find pos = .ok (found, c'.withLinks links') ∧ c'.Shares params input links' live' := by
  by_cases hroom : c.remaining pos < minMatch
  · exact ⟨none, c, links, live, if_pos hroom, if_pos hroom, h⟩
  obtain ⟨c₁, links₁, live₁, hcatch, hcatch', h₁⟩ := catchUp_shares pos h
  have hleft : minMatch ≤ input.size - pos := by
    rw [remaining, h.serves.input_eq] at hroom
    exact Nat.le_of_not_lt hroom
  obtain ⟨found, hsearch, _⟩ := search_genuine h₁.serves hleft
  obtain ⟨c₂, links₂, live₂, hinsert, hinsert', h₂⟩ := insertNext_shares (pos + 1 - c₁.next) h₁
  have hsearch' : (c₁.withLinks links₁).search pos = .ok found := (search_shares pos h₁).trans hsearch
  exact ⟨found, c₂, links₂, live₂, find_eq_ok hroom hcatch hsearch hinsert,
    find_eq_ok hroom hcatch' hsearch' hinsert', h₂⟩

/-- Reset to one input, any two tables of the same parameters differ in old links only, and no way leads there. -/
theorem reset_shares {d : Chains} {before before' : ByteArray} (hc : c.Over params before)
    (hd : d.Over params before') (hsize : input.size < 2 ^ 32) :
    ∃ c' links, c.reset input = .ok c' ∧ d.reset input = .ok (c'.withLinks links) ∧
      c'.Shares params input links (fun _ => False) := by
  obtain ⟨c', hreset, hc', _⟩ := reset_over hc hsize
  obtain ⟨d', hreset', hd', _⟩ := reset_over hd hsize
  obtain ⟨_, rfl⟩ := reset_eq_ok hreset
  obtain ⟨_, rfl⟩ := reset_eq_ok hreset'
  rw [hc.heads_size, hc.params_eq] at *
  rw [hd.heads_size, hd.params_eq] at *
  refine ⟨_, _, hreset, hreset', hc', hd', ?_, fun _ hlive => hlive.elim⟩
  intro q hq
  exact .inl (Array.mem_replicate.mp hq).2

/-- The outcomes of two computations are the same, but for links off the ways from the heads. -/
inductive SameBut (params : SearchParams) (input : ByteArray) {α : Type} :
    Except Fault (α × Chains) → Except Fault (α × Chains) → Prop where
  | error (e : Fault) : SameBut params input (.error e) (.error e)
  | ok {c : Chains} {links : Array Nat} {live : Nat → Prop} (a : α) (h : c.Shares params input links live) :
      SameBut params input (.ok (a, c)) (.ok (a, c.withLinks links))

theorem better_shares (pos length : Nat) (h : c.Shares params input links live) :
    SameBut params input (c.better pos length) ((c.withLinks links).better pos length) := by
  by_cases hasks : c.params.lazyCutoff ≤ length ∨ c.remaining pos < 2
  · have hkeep : c.better pos length = .ok (none, c) := if_pos hasks
    have hkeep' : (c.withLinks links).better pos length = .ok (none, c.withLinks links) := if_pos hasks
    rw [hkeep, hkeep']
    exact .ok none h
  · have hasks' : ¬((c.withLinks links).params.lazyCutoff ≤ length ∨
        (c.withLinks links).remaining pos < 2) := hasks
    obtain ⟨found, c', links', live', hfind, hfind', h'⟩ := find_shares (pos + 1) h
    cases found with
    | none =>
      rw [better_of_none hasks hfind, better_of_none hasks' hfind']
      exact .ok none h'
    | some m =>
      rw [better_of_some hasks hfind, better_of_some hasks' hfind']
      change SameBut params input (Except.map _ (addSize length c'.params.lazyMargin))
        (Except.map _ (addSize length c'.params.lazyMargin))
      cases addSize length c'.params.lazyMargin with
      | error e => exact .error e
      | ok bar => exact .ok _ h'

end Chains

namespace Finder

variable {params : SearchParams} {fresh used f : Finder} {q : Query} {qs : List Query} {input : ByteArray}
  {links : Array Nat} {live : Nat → Prop}

/-- The finder with other links. -/
abbrev withLinks (f : Finder) (links : Array Nat) : Finder := { f with chains := f.chains.withLinks links }

/-- The outcomes of two finders are the same, but for links off the ways from the heads. -/
inductive SameBut (params : SearchParams) :
    Except Fault (Response × Finder) → Except Fault (Response × Finder) → Prop where
  | error (e : Fault) : SameBut params (.error e) (.error e)
  | ok {f : Finder} {input : ByteArray} {links : Array Nat} {live : Nat → Prop} (response : Response)
      (h : f.chains.Shares params input links live) :
      SameBut params (.ok (response, f)) (.ok (response, f.withLinks links))

/-- Only a look at the links themselves could tell the two apart. -/
theorem ask_sameBut (h : f.chains.Shares params input links live) (hq : ∀ p, q ≠ .previous p) :
    SameBut params (f.ask q) ((f.withLinks links).ask q) := by
  cases q with
  | reset input' =>
    by_cases hsize : input'.size < 4294967296
    · obtain ⟨c', links', hreset, hreset', h'⟩ := Chains.reset_shares h.serves h.serves_other hsize
      simp only [ask, reset, hreset, hreset']
      exact @SameBut.ok params ⟨c', 0⟩ _ _ _ .done h'
    · have hrefuse : f.chains.reset input' = .error .assertion := if_neg hsize
      have hrefuse' : (f.chains.withLinks links).reset input' = .error .assertion := if_neg hsize
      simp only [ask, reset, hrefuse, hrefuse']
      exact .error .assertion
  | insert pos =>
    obtain ⟨c', links', live', hinsert, hinsert', h'⟩ := Chains.insert_shares pos h
    simp only [ask, insert, hinsert, hinsert']
    exact @SameBut.ok params ⟨c', f.cursor⟩ _ _ _ .done h'
  | find pos =>
    obtain ⟨found, c', links', live', hfind, hfind', h'⟩ := Chains.find_shares pos h
    simp only [ask, find, hfind, hfind']
    exact @SameBut.ok params ⟨c', f.cursor⟩ _ _ _ (.found found) h'
  | choose length =>
    have hbetter := Chains.better_shares f.cursor length h
    simp only [ask, choose]
    generalize f.chains.better f.cursor length = x at hbetter
    generalize (f.chains.withLinks links).better f.cursor length = y at hbetter
    cases hbetter with
    | error e => exact .error e
    | @ok c' links' live' next h' => exact @SameBut.ok params ⟨c', f.cursor⟩ _ _ _ (.chose _) h'
  | advance n =>
    simp only [ask, advance]
    cases addSize f.cursor n with
    | error e => exact .error e
    | ok p => exact @SameBut.ok params ⟨f.chains, min p f.chains.input.size⟩ _ _ _ .done h
  | newest pos =>
    obtain ⟨head, hnewest, _⟩ := Chains.newest_ok pos h.serves
    have hnewest' : (f.chains.withLinks links).newest pos = .ok head := hnewest
    simp only [ask, newest, hnewest, hnewest']
    exact .ok (.points head) h
  | previous pos => exact absurd rfl (hq pos)
  | position => exact .ok (.stands f.cursor) h
  | atEnd => exact .ok (.ends f.atEnd) h
  | params => exact .ok (.uses f.params) h

theorem responses_cons {response : Response} {f' : Finder} (h : f.ask q = .ok (response, f')) :
    (f.askAll (q :: qs)).map Prod.fst = ((f'.askAll qs).map Prod.fst).map (response :: ·) := by
  rw [askAll, h]
  change ((f'.askAll qs).map _).map Prod.fst = _
  cases f'.askAll qs <;> rfl

theorem responses_of_error {e : Fault} (h : f.ask q = .error e) :
    (f.askAll (q :: qs)).map Prod.fst = .error e := by
  rw [askAll, h]
  rfl

theorem askAll_sameBut (h : f.chains.Shares params input links live) (hqs : ∀ p, .previous p ∉ qs) :
    (f.askAll qs).map Prod.fst = ((f.withLinks links).askAll qs).map Prod.fst := by
  induction qs generalizing f input links live with
  | nil => rfl
  | cons q qs ih =>
    have hask := ask_sameBut h fun p heq => hqs p (heq ▸ List.mem_cons_self)
    generalize hx : f.ask q = x at hask
    generalize hy : (f.withLinks links).ask q = y at hask
    cases hask with
    | error e => rw [responses_of_error hx, responses_of_error hy]
    | ok response h' =>
      have hrest := ih h' fun p hp => hqs p (List.mem_cons_of_mem q hp)
      rw [responses_cons hx, responses_cons hy, hrest]

/-- Whatever a finder has been used for, reset to an input it answers as one just made and reset to it does. Only
a look at the link of a position can show what was there before. -/
theorem reset_forgets (hpos : 1 ≤ params.hashLog) (hle : params.hashLog ≤ 32) (hnew : new params = .ok fresh)
    (hused : fresh.Runs qs used) (hsize : input.size < 2 ^ 32) :
    ∃ f g, used.reset input = .ok f ∧ fresh.reset input = .ok g ∧
      ∀ later, (∀ p, .previous p ∉ later) → (f.askAll later).map Prod.fst = (g.askAll later).map Prod.fst := by
  have hfresh := over_of_new hpos hle hnew
  obtain ⟨c, links, hreset, hreset', hshares⟩ := Chains.reset_shares (hused.over hfresh) hfresh hsize
  refine ⟨⟨c, 0⟩, ⟨c.withLinks links, 0⟩, ?_, ?_, ?_⟩
  · rw [reset, hreset]
    rfl
  · rw [reset, hreset']
    rfl
  · intro later hlater
    exact @askAll_sameBut params ⟨c, 0⟩ later input links _ hshares hlater

theorem reset_forgets_longer_input :
    let fresh : Finder := ⟨⟨{ hashLog := 3 }, ByteArray.empty, #[0, 0, 0, 0, 0, 0, 0, 0], #[], 0⟩, 0⟩
    let before : ByteArray := ⟨#[97, 97, 97, 97, 97, 97, 97, 97, 97, 97, 97, 97]⟩
    let used : Finder :=
      ⟨⟨{ hashLog := 3 }, before, #[0, 7, 0, 0, 0, 0, 0, 0], #[0, 0, 0, 7, 0, 0, 0, 3, 0, 0, 0, 0], 0⟩, 0⟩
    let input : ByteArray := ⟨#[95, 97, 98, 99, 100, 95, 97, 98, 99, 100]⟩
    new { hashLog := 3 } = .ok fresh ∧ fresh.Runs [.reset before, .insert 7, .insert 3, .insert 7] used ∧
      input.size < 2 ^ 32 ∧
      ∃ f g, used.reset input = .ok f ∧ fresh.reset input = .ok g ∧
        ∀ later, (∀ p, .previous p ∉ later) → (f.askAll later).map Prod.fst = (g.askAll later).map Prod.fst := by
  intro fresh before used input
  have hnew : new { hashLog := 3 } = .ok fresh := by cbv
  have hused : fresh.Runs [.reset before, .insert 7, .insert 3, .insert 7] used :=
    ⟨[.done, .done, .done, .done], by cbv⟩
  exact ⟨hnew, hused, by decide, reset_forgets (by decide) (by decide) hnew hused (by decide)⟩

end Finder

end LempelZiv
