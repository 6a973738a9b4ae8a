import LempelZiv.Error

namespace LempelZiv

theorem bind_eq_ok_iff {ε α β : Type} {x : Except ε α} {f : α → Except ε β} {b : β} :
    x >>= f = .ok b ↔ ∃ a, x = .ok a ∧ f a = .ok b := by
  cases x with
  | error e => exact ⟨fun h => (nomatch h), fun ⟨_, h, _⟩ => (nomatch h)⟩
  | ok a => exact ⟨fun h => ⟨a, rfl, h⟩, fun ⟨_, ha, h⟩ => by cases ha; exact h⟩

theorem bind_eq_error_iff {ε α β : Type} {x : Except ε α} {f : α → Except ε β} {e : ε} :
    x >>= f = .error e ↔ x = .error e ∨ ∃ a, x = .ok a ∧ f a = .error e := by
  cases x with
  | error e' =>
    constructor
    · intro h
      cases h
      exact .inl rfl
    · rintro (h | ⟨_, h, _⟩) <;> cases h
      rfl
  | ok a =>
    refine ⟨fun h => .inr ⟨a, rfl, h⟩, ?_⟩
    rintro (h | ⟨_, ha, h⟩)
    · cases h
    · cases ha
      exact h

theorem map_eq_ok_iff {ε α β : Type} {x : Except ε α} {f : α → β} {b : β} :
    x.map f = .ok b ↔ ∃ a, x = .ok a ∧ f a = b := by
  cases x with
  | error e => exact ⟨fun h => (nomatch h), fun ⟨_, h, _⟩ => (nomatch h)⟩
  | ok a => exact ⟨fun h => ⟨a, rfl, Except.ok.inj h⟩, fun ⟨_, ha, h⟩ => by cases ha; exact congrArg _ h⟩

/-- A check that throws lets through what it does not apply to. -/
theorem check_eq_ok_iff {ε α β : Type} {c : Prop} [Decidable c] {e : ε} {f : α → Except ε β}
    {x : Except ε β} {b : β} :
    (if c then throw e >>= f else x) = .ok b ↔ ¬c ∧ x = .ok b := by
  by_cases h : c
  · rw [if_pos h]
    exact ⟨fun he => (nomatch he), fun he => absurd h he.1⟩
  · rw [if_neg h]
    exact ⟨fun he => ⟨h, he⟩, fun he => he.2⟩

theorem check_eq_error_iff {ε α β : Type} {c : Prop} [Decidable c] {e e' : ε} {f : α → Except ε β}
    {x : Except ε β} : (if c then throw e >>= f else x) = .error e' ↔ c ∧ e = e' ∨ ¬c ∧ x = .error e' := by
  by_cases h : c
  · rw [if_pos h]
    refine ⟨fun he => .inl ⟨h, Except.error.inj he⟩, ?_⟩
    rintro (⟨_, rfl⟩ | ⟨hn, _⟩)
    · rfl
    · exact absurd h hn
  · rw [if_neg h]
    exact ⟨fun he => .inr ⟨h, he⟩, fun he => he.elim (fun ⟨hc, _⟩ => absurd hc h) And.right⟩

theorem lift_eq_ok_iff {α : Type} {x : Except Fault α} {a : α} :
    (liftM x : Except Error α) = .ok a ↔ x = .ok a := by
  cases x with
  | error f => exact ⟨fun h => (nomatch h), fun h => (nomatch h)⟩
  | ok b => exact ⟨fun h => by cases h; rfl, fun h => by cases h; rfl⟩

theorem pure_eq_ok_iff {ε α : Type} {a b : α} : (pure a : Except ε α) = .ok b ↔ a = b :=
  ⟨fun h => Except.ok.inj h, fun h => congrArg _ h⟩

theorem addSize_eq_ok_iff {a b c : Nat} : addSize a b = .ok c ↔ c = a + b ∧ c < sizeLimit := by
  rw [addSize]
  split
  next h =>
    rw [Except.ok.injEq]
    exact ⟨fun he => ⟨he.symm, he ▸ h⟩, fun he => he.1.symm⟩
  next h => simp only [reduceCtorEq, false_iff]; exact fun he => h (he.1 ▸ he.2)

end LempelZiv
