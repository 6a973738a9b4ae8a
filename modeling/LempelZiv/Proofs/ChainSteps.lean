import LempelZiv.Proofs.Checked
import LempelZiv.Proofs.ChainSearch

namespace LempelZiv

namespace Chains

variable {c c' : Chains} {params : SearchParams} {input : ByteArray} {pos : Nat}

theorem reset_eq_ok (h : c.reset input = .ok c') :
    input.size < 2 ^ 32 ∧ c' = { c with
      input := input
      heads := Array.replicate c.heads.size 0
      links := c.links ++ Array.replicate (input.size - c.links.size) 0
      next := 0 } := by
  rw [reset] at h
  split at h
  next hsize =>
    cases h
    exact ⟨hsize, rfl⟩
  next => cases h

/-- All that an insertion changes, if anything. -/
theorem insert_eq_ok (h : c.insert pos = .ok c') :
    c.hashable pos = false ∧ c' = c ∨
      ∃ k, ∃ hk : k < c.heads.size, ∃ hp : pos < c.links.size, c.hashable pos = true ∧ c.hash pos = .ok k ∧
        c' = { c with heads := c.heads.set k pos hk, links := c.links.set pos c.heads[k] hp } := by
  rw [insert] at h
  split at h
  next hhashable =>
    split at h
    next k hhash =>
      rw [link] at h
      split at h
      next hb =>
        cases h
        exact .inr ⟨k, hb.1, hb.2, hhashable, hhash, rfl⟩
      next => cases h
    next => cases h
  next hhashable =>
    cases h
    exact .inl ⟨Bool.eq_false_iff.mpr hhashable, rfl⟩

theorem insert_next (h : c.insert pos = .ok c') : c'.next = c.next := by
  rcases insert_eq_ok h with ⟨_, rfl⟩ | ⟨_, _, _, _, _, rfl⟩ <;> rfl

theorem newest_eq_some {q : Nat} :
    c.newest pos = .ok (some q) ↔ c.hashable pos = true ∧
      ∃ k, ∃ hk : k < c.heads.size, c.hash pos = .ok k ∧ c.heads[k] = q ∧ q ≠ 0 := by
  rw [newest]
  constructor
  · intro h
    split at h
    next hhashable =>
      split at h
      next k hhash =>
        split at h
        next hk =>
          split at h
          next => cases h
          next hne =>
            cases h
            exact ⟨hhashable, k, hk, hhash, rfl, hne⟩
        next => cases h
      next => cases h
    next => cases h
  · rintro ⟨hhashable, k, hk, hhash, rfl, hne⟩
    rw [if_pos hhashable, hhash]
    simp only [dif_pos hk, if_neg hne]

/-- What searches do to the tables: they insert the next position, or pass over some. -/
inductive Enters : Chains → Chains → Prop where
  | done {c : Chains} : Enters c c
  | insert {c c₁ c₂ : Chains} (hinsert : c.insert c.next = .ok c₁)
      (hrest : Enters { c₁ with next := c₁.next + 1 } c₂) : Enters c c₂
  | pass {c c₂ : Chains} {pos : Nat} (hle : c.next ≤ pos) (hrest : Enters { c with next := pos } c₂) :
      Enters c c₂

theorem Enters.trans {c₁ c₂ : Chains} (h : c.Enters c₁) (h' : c₁.Enters c₂) : c.Enters c₂ := by
  induction h with
  | done => exact h'
  | insert hinsert _ ih => exact .insert hinsert (ih h')
  | pass hle _ ih => exact .pass hle (ih h')

theorem insertNext_enters {n : Nat} (h : insertNext n c = .ok c') : c.Enters c' := by
  induction n generalizing c with
  | zero =>
    cases h
    exact .done
  | succ n ih =>
    rw [insertNext] at h
    split at h
    next c₁ hinsert => exact .insert hinsert (ih h)
    next => cases h

theorem catchUp_enters (h : c.catchUp pos = .ok c') : c.Enters c' := by
  rw [catchUp] at h
  split at h
  next => exact insertNext_enters h
  next =>
    cases h
    split
    next hlt => exact .pass (Nat.le_of_lt hlt) .done
    next => exact .done

theorem find_enters {found : Option Match} (h : c.find pos = .ok (found, c')) : c.Enters c' := by
  rw [find] at h
  split at h
  next =>
    cases h
    exact .done
  next =>
    obtain ⟨c₁, hcatch, h⟩ := bind_eq_ok_iff.mp h
    obtain ⟨best, _, h⟩ := bind_eq_ok_iff.mp h
    obtain ⟨c₂, hinsert, h⟩ := bind_eq_ok_iff.mp h
    cases h
    exact (catchUp_enters hcatch).trans (insertNext_enters hinsert)

theorem better_enters {length : Nat} {next : Option Match} (h : c.better pos length = .ok (next, c')) :
    c.Enters c' := by
  rw [better] at h
  split at h
  next =>
    cases h
    exact .done
  next =>
    obtain ⟨⟨found, c₁⟩, hfind, h⟩ := bind_eq_ok_iff.mp h
    cases found with
    | none =>
      cases h
      exact find_enters hfind
    | some m =>
      obtain ⟨bar, _, h⟩ := bind_eq_ok_iff.mp h
      cases h
      exact find_enters hfind

theorem find_eq_ok {c₁ c₂ : Chains} {found : Option Match} (hroom : ¬c.remaining pos < minMatch)
    (hcatch : c.catchUp pos = .ok c₁) (hsearch : c₁.search pos = .ok found)
    (hinsert : c₁.insertUpTo (pos + 1) = .ok c₂) : c.find pos = .ok (found, c₂) := by
  rw [find, if_neg hroom, hcatch]
  change (c₁.search pos >>= fun found => c₁.insertUpTo (pos + 1) >>= fun c => .ok (found, c)) = _
  rw [hsearch]
  change (c₁.insertUpTo (pos + 1) >>= fun c => .ok (found, c)) = _
  rw [hinsert]
  rfl

theorem better_of_none {length : Nat} (hasks : ¬(c.params.lazyCutoff ≤ length ∨ c.remaining pos < 2))
    (hfind : c.find (pos + 1) = .ok (none, c')) : c.better pos length = .ok (none, c') := by
  rw [better, if_neg hasks, hfind]
  rfl

theorem better_of_some {length : Nat} {m : Match}
    (hasks : ¬(c.params.lazyCutoff ≤ length ∨ c.remaining pos < 2))
    (hfind : c.find (pos + 1) = .ok (some m, c')) :
    c.better pos length = (addSize length c'.params.lazyMargin).map fun bar =>
      (if bar < m.length then some m else none, c') := by
  rw [better, if_neg hasks, hfind]
  change (addSize length c'.params.lazyMargin >>= fun bar =>
    .ok (if bar < m.length then some m else none, c')) = _
  cases addSize length c'.params.lazyMargin <;> rfl

theorem reset_keeps_over {before : ByteArray} (hc : c.Over params before) (h : c.reset input = .ok c') :
    c'.Over params input := by
  obtain ⟨c₁, hreset, hc₁, _⟩ := reset_over hc (reset_eq_ok h).1
  rw [h] at hreset
  cases hreset
  exact hc₁

theorem insert_keeps_over (hc : c.Over params input) (h : c.insert pos = .ok c') : c'.Over params input := by
  obtain ⟨c₁, hinsert, hc₁⟩ := insert_over pos hc
  rw [h] at hinsert
  cases hinsert
  exact hc₁

theorem Enters.over (h : c.Enters c') (hc : c.Over params input) : c'.Over params input := by
  induction h with
  | done => exact hc
  | insert hinsert _ ih => exact ih ((insert_keeps_over hc hinsert).next _)
  | pass _ _ ih => exact ih (hc.next _)

end Chains

end LempelZiv
