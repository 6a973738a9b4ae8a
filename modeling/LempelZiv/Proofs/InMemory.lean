import LempelZiv.Proofs.Uses

namespace LempelZiv

namespace Writer

variable {δ : Type}

/-- The writer as it would be on a sink that takes everything. -/
def inMemory (w : Writer δ) : Writer Memory :=
  ⟨⟨⟨⟩, w.sink.held, w.sink.flushes⟩, w.options, w.phase, w.buffer, w.digest, w.written, w.failed,
    w.notices⟩

/-- A step that succeeds on a device succeeds in memory, and leaves the writer alike. -/
def Mirrors (r : Outcome (Writer δ)) (m : Outcome (Writer Memory)) : Prop :=
  ∀ w, r = (.ok (), w) → m = (.ok (), w.inMemory)

theorem Mirrors.ok (w : Writer δ) : Mirrors (.ok (), w) (.ok (), w.inMemory) := by
  intro w' h
  cases h
  rfl

theorem Mirrors.error (e : Error) (w : Writer δ) (m : Outcome (Writer Memory)) :
    Mirrors (.error e, w) m := by
  intro w' h
  cases h

theorem Mirrors.andThen {r : Outcome (Writer δ)} {m : Outcome (Writer Memory)}
    {f : Writer δ → Outcome (Writer δ)} {g : Writer Memory → Outcome (Writer Memory)} (hr : Mirrors r m)
    (hf : ∀ w, Mirrors (f w) (g w.inMemory)) : Mirrors (r.andThen f) (m.andThen g) := by
  intro w h
  obtain ⟨w₁, h₁, h₂⟩ := Outcome.andThen_eq_ok h
  rw [hr w₁ h₁, Outcome.andThen_ok, hf w₁ w h₂]

theorem Mirrors.marked {r : Outcome (Writer δ)} {m : Outcome (Writer Memory)} (hr : Mirrors r m) :
    Mirrors (marked r) (marked m) := by
  obtain ⟨e | u, w⟩ := r
  · exact .error e _ _
  · rw [hr w rfl]
    exact .ok w

/-- What a step comes to in memory it comes to on the device, if it succeeds there. -/
theorem Mirrors.inMemory {r : Outcome (Writer δ)} {m : Outcome (Writer Memory)} {w : Writer δ}
    {P : Writer Memory → Prop} (hr : Mirrors r m) (hok : r = (.ok (), w))
    (hm : ∃ m', m = (.ok (), m') ∧ P m') : P w.inMemory := by
  obtain ⟨m', hm', h⟩ := hm
  rw [hr w hok] at hm'
  cases hm'
  exact h

variable [Device δ]

theorem emit_mirrors (bytes : ByteArray) (w : Writer δ) : Mirrors (emit bytes w) (emit bytes w.inMemory) := by
  intro w' h
  obtain ⟨sink, options, phase, buffer, digest, written, failed, notices⟩ := w
  rw [emit] at h
  rcases sink.writeAll_takes bytes with ⟨s, hok, hheld, hflushes, _⟩ | ⟨e, s, _, _, herror, _⟩
  case inr =>
    simp only [herror] at h
    cases h
  simp only [hok] at h
  cases h
  rcases Sink.writeAll_takes ⟨Memory.mk, sink.held, sink.flushes⟩ bytes with
    ⟨m, hok', hheld', hflushes', _⟩ | ⟨_, _, _, _, _, _, _, _, hbroken⟩
  case inr => exact absurd (memory_reliable _) hbroken
  have hm : m = ⟨⟨⟩, s.held, s.flushes⟩ := by
    obtain ⟨_, held, flushes⟩ := m
    rw [hheld, hflushes, ← hheld', ← hflushes']
  rw [inMemory, emit]
  simp only [hok', hm]
  rfl

theorem flushSink_mirrors (w : Writer δ) : Mirrors w.flushSink w.inMemory.flushSink := by
  intro w' h
  obtain ⟨d, hsink, _⟩ := w.sink.flush_answers
  rw [flushSink] at h
  rcases hflush : w.sink.flush with ⟨e | u, s⟩
  · rw [hflush] at h
    cases h
  · rw [hflush] at h hsink
    cases h
    cases hsink
    rfl

theorem writeHeader_mirrors (w : Writer δ) : Mirrors w.writeHeader w.inMemory.writeHeader := by
  rw [writeHeader, writeHeader]
  by_cases hfresh : w.phase = .fresh
  · rw [if_pos hfresh, if_pos (show w.inMemory.phase = .fresh from hfresh)]
    exact (emit_mirrors _ w).andThen fun w₁ => .ok _
  · rw [if_neg hfresh, if_neg (show ¬w.inMemory.phase = .fresh from hfresh)]
    exact .ok w

theorem emitBlock_mirrors (w : Writer δ) : Mirrors w.emitBlock w.inMemory.emitBlock := by
  have hparts : blockParts w.inMemory.options.block w.inMemory.buffer = blockParts w.options.block w.buffer := rfl
  rw [emitBlock, emitBlock, hparts]
  cases blockParts w.options.block w.buffer with
  | error f => exact .error _ _ _
  | ok parts =>
    refine (emit_mirrors _ (w.note _)).andThen fun w₁ => (emit_mirrors _ w₁).andThen fun w₂ => ?_
    change Mirrors _ (if w₂.options.blockChecksum then _ else _)
    cases w₂.options.blockChecksum with
    | false => exact .ok w₂
    | true => exact emit_mirrors _ w₂

theorem flushBlock_mirrors (w : Writer δ) : Mirrors w.flushBlock w.inMemory.flushBlock := by
  rw [flushBlock, flushBlock]
  change Mirrors _ (if w.buffer.isEmpty then _ else _)
  cases w.buffer.isEmpty with
  | true => exact .ok w
  | false => exact (emitBlock_mirrors w).andThen fun w₁ => .ok _

/-- One round of filling, from the whole of the writer. -/
theorem fill_round {w : Writer δ} {data : ByteArray} {i next : Nat} (h : i < data.size)
    (hnext : next = i + min (w.blockBytes - w.buffer.size) (data.size - i)) {w₁ : Writer δ}
    (hw₁ : w₁ = { w with phase := .begun, buffer := w.buffer ++ data.extract i next }) :
    w.fill data i =
      if w₁.buffer.size < w₁.blockBytes then w₁.fill data next
      else (marked w₁.emitBlock).andThen fun w => fill w.cleared data next := by
  obtain ⟨sink, options, phase, buffer, digest, written, failed, notices⟩ := w
  subst hnext hw₁
  rw [fill, dif_pos h]
  exact if_congr Iff.rfl rfl (andThen_eq _ _)

theorem fill_mirrors (w : Writer δ) (data : ByteArray) (i : Nat) :
    Mirrors (w.fill data i) (w.inMemory.fill data i) := by
  fun_induction fill w data i with
  | case1 i hlt sink options phase buffer digest written failed notices next w hroom ih =>
    have hround : (inMemory ⟨sink, options, phase, buffer, digest, written, failed, notices⟩).fill data i =
        if w.buffer.size < w.blockBytes then w.inMemory.fill data next
        else (marked w.inMemory.emitBlock).andThen fun w => fill w.cleared data next :=
      fill_round hlt rfl rfl
    rw [hround, if_pos hroom]
    exact ih
  | case2 i hlt sink options phase buffer digest written failed notices next w hfull e w' hblock =>
    exact .error _ _ _
  | case3 i hlt sink options phase buffer digest written failed notices next w hfull w' hblock ih =>
    have hround : (inMemory ⟨sink, options, phase, buffer, digest, written, failed, notices⟩).fill data i =
        if w.buffer.size < w.blockBytes then w.inMemory.fill data next
        else (marked w.inMemory.emitBlock).andThen fun w => fill w.cleared data next :=
      fill_round hlt rfl rfl
    rw [hround, if_neg hfull, (emitBlock_mirrors w).marked w' hblock, Outcome.andThen_ok]
    exact ih
  | case4 w i hend =>
    rw [fill_end hend]
    exact .ok w

theorem writeData_mirrors (w : Writer δ) (data : ByteArray) :
    Mirrors (w.writeData data) (w.inMemory.writeData data) := by
  rw [writeData, writeData]
  change Mirrors _ (if w.isClosed then _ else _)
  cases w.isClosed with
  | true => exact .error _ _ _
  | false => exact (writeHeader_mirrors w).marked.andThen fun w₁ =>
      fill_mirrors (w₁.counting data) data 0

theorem finishFrame_mirrors (w : Writer δ) : Mirrors w.finishFrame w.inMemory.finishFrame := by
  refine (writeHeader_mirrors w).andThen fun w₁ => (flushBlock_mirrors w₁).andThen fun w₂ =>
    (emit_mirrors _ w₂).andThen fun w₃ => .andThen ?_ flushSink_mirrors
  have hdigest : w₃.inMemory.digest = w₃.digest := rfl
  rw [hdigest]
  cases w₃.digest with
  | none => exact .ok w₃
  | some x => exact emit_mirrors _ w₃

theorem terminate_mirrors (w : Writer δ) :
    Mirrors (close.terminate w) (close.terminate w.inMemory) :=
  (finishFrame_mirrors w).marked.andThen fun _ => .ok _

theorem close_mirrors (w : Writer δ) : Mirrors w.close w.inMemory.close := by
  have hclosed : w.inMemory.isClosed = w.isClosed := rfl
  have hdeclared : w.inMemory.options.contentSize = w.options.contentSize := rfl
  have hwritten : w.inMemory.written = w.written := rfl
  rw [close, close, hclosed, hdeclared, hwritten]
  cases w.isClosed with
  | true => exact .ok w
  | false =>
    cases w.options.contentSize with
    | none => exact terminate_mirrors w
    | some declared =>
      by_cases hsize : declared = w.written
      · simp only [if_pos hsize]
        exact terminate_mirrors w
      · simp only [if_neg hsize]
        exact .error _ _ _

theorem perform_mirrors (w : Writer δ) (c : Call) : Mirrors (w.perform c) (w.inMemory.perform c) := by
  cases c with
  | write data => exact writeData_mirrors w data
  | flushBlock => exact flushBlock_mirrors w
  | flush =>
    rw [perform, perform, flush, flush]
    change Mirrors _ (if w.isClosed then _ else _)
    cases w.isClosed with
    | true => exact .ok w
    | false => exact (flushBlock_mirrors w).marked.andThen flushSink_mirrors

end Writer

end LempelZiv
