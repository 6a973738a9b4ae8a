import LempelZiv.Factorization

namespace LempelZiv

/-- A sink that takes all it is given, seen as another sink: each write to it shows there as the same write. -/
structure SinkView (σ τ : Type) [ByteSink σ] [ByteSink τ] where
  see : σ → Except Fault τ
  put_see : ∀ s b, ∃ s', put s b = .ok s' ∧ see s' = see s >>= (put · b)
  putAll_see : ∀ s bytes, ∃ s', putAll s bytes = .ok s' ∧ see s' = see s >>= (putAll · bytes)

namespace SinkView

variable {σ τ : Type} [ByteSink σ] [ByteSink τ] {view : SinkView σ τ}

/-- What `step` does to the one sink shows as what `step'` does to the other. -/
def Shows (view : SinkView σ τ) (step : σ → Except Fault σ) (step' : τ → Except Fault τ) : Prop :=
  ∀ s, ∃ s', step s = .ok s' ∧ view.see s' = view.see s >>= step'

theorem Shows.bind {first rest : σ → Except Fault σ} {first' rest' : τ → Except Fault τ}
    (hfirst : view.Shows first first') (hrest : view.Shows rest rest') :
    view.Shows (fun s => first s >>= rest) (fun t => first' t >>= rest') := by
  intro s
  obtain ⟨s₁, hok₁, hsee₁⟩ := hfirst s
  obtain ⟨s₂, hok₂, hsee₂⟩ := hrest s₁
  refine ⟨s₂, ?_, ?_⟩
  · change first s >>= rest = _
    rw [hok₁]
    exact hok₂
  · rw [hsee₂, hsee₁, bind_assoc]

theorem shows_nothing : view.Shows .ok .ok := fun s => ⟨s, rfl, (bind_pure (view.see s)).symm⟩

theorem shows_put (b : UInt8) : view.Shows (put · b) (put · b) := fun s => view.put_see s b

theorem shows_putAll (bytes : ByteArray) : view.Shows (putAll · bytes) (putAll · bytes) :=
  fun s => view.putAll_see s bytes

theorem shows_putLength (n : Nat) : view.Shows (putLength · n) (putLength · n) := by
  induction n using Nat.strongRecOn with
  | ind n ih =>
    by_cases h : 255 ≤ n
    · obtain ⟨m, rfl⟩ := Nat.exists_eq_add_of_le' h
      simp only [putLength_add]
      exact (shows_put 255).bind (ih m (by omega))
    · simp only [putLength_of_lt _ (Nat.lt_of_not_le h)]
      exact shows_put _

theorem shows_extension (n : Nat) :
    view.Shows (fun s => if nibbleLimit ≤ n then putLength s (n - nibbleLimit) else pure s)
      (fun t => if nibbleLimit ≤ n then putLength t (n - nibbleLimit) else pure t) := by
  split
  next => exact shows_putLength _
  next => exact shows_nothing

theorem shows_putToken (n code : Nat) : view.Shows (putToken · n code) (putToken · n code) :=
  (shows_put _).bind (shows_extension n)

theorem shows_sequence (s : Sequence) : view.Shows s.write s.write :=
  (shows_putToken _ _).bind ((shows_putAll _).bind ((shows_putAll _).bind (shows_extension _)))

theorem shows_last (literals : ByteArray) : view.Shows (writeLast literals) (writeLast literals) :=
  (shows_putToken _ _).bind (shows_putAll _)

theorem shows_sequences (ss : List Sequence) :
    view.Shows (ss.foldlM fun s (t : Sequence) => t.write s) (ss.foldlM fun s (t : Sequence) => t.write s) := by
  induction ss with
  | nil => exact shows_nothing
  | cons s ss ih =>
    simp only [List.foldlM_cons]
    exact (shows_sequence s).bind ih

/-- A whole block shows as the same block. -/
theorem shows_writeClosed (f : Factorization) : view.Shows f.writeClosed f.writeClosed := by
  have hsequences : view.Shows (f.sequences.toList.foldlM fun s (t : Sequence) => t.write s)
      (f.sequences.toList.foldlM fun s (t : Sequence) => t.write s) := shows_sequences _
  have hparts := hsequences.bind (shows_last f.tail)
  simp only [← Factorization.writeClosed_eq_foldlM] at hparts
  exact hparts

end SinkView

end LempelZiv
