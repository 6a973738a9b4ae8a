import LempelZiv.Proofs.Parts

namespace LempelZiv

def zeros (n : Nat) : ByteArray := ⟨.replicate n 0⟩

theorem zeros_append (m n : Nat) : zeros m ++ zeros n = zeros (m + n) := by
  apply ByteArray.ext
  rw [ByteArray.data_append]
  exact Array.replicate_append_replicate

theorem leBytes_zero : leBytes 4 0 = zeros 4 := by decide

/-- What begins a run of zeros is one. -/
theorem eq_zeros_of_append {a b : ByteArray} {n : Nat} (h : zeros n = a ++ b) : a = zeros a.size := by
  have hdata := congrArg ByteArray.data h
  rw [ByteArray.data_append] at hdata
  have hzeros : a.data = .replicate a.data.size 0 := (Array.append_eq_replicate_iff.mp hdata.symm).2.1
  exact ByteArray.ext hzeros

def Use.data : Use → ByteArray
  | .call c => c.data
  | .close => ByteArray.empty

namespace Writer

variable {δ : Type} {w w' : Writer δ} {base : ByteArray} {n k : Nat}

/-- Nothing is missing of a frame without content checksum but its end mark, and `n` zeros stand where that goes. -/
structure MarkTorn (w : Writer δ) (base : ByteArray) (n : Nat) : Prop where
  phase_eq : w.phase = .begun
  buffer_eq : w.buffer = ByteArray.empty
  digest_eq : w.digest = none
  sized : ∀ declared, w.options.contentSize = some declared → declared = w.written
  held : w.sink.held = base ++ zeros n

/-- The frame is done: behind its blocks there are zeros enough for the end mark, and maybe more. -/
structure MarkWhole (w : Writer δ) (base : ByteArray) (n : Nat) : Prop where
  isClosed : w.isClosed = true
  buffer_eq : w.buffer = ByteArray.empty
  held : w.sink.held = base ++ zeros (n + 4)

theorem MarkTorn.mark_failed (h : w.MarkTorn base n) : ({ w with failed := true } : Writer δ).MarkTorn base n :=
  ⟨h.phase_eq, h.buffer_eq, h.digest_eq, h.sized, h.held⟩

theorem MarkTorn.not_closed (h : w.MarkTorn base n) : w.isClosed = false := by
  rw [Writer.isClosed, h.phase_eq]
  rfl

theorem endPart_eq_zeros (h : w.digest = none) : w.endPart = zeros 4 := by
  rw [endPart, h, leBytes_zero, ByteArray.append_empty]

variable [Device δ]

/-- Zeros that go out leave the frame as far as it was. -/
theorem MarkTorn.emits (h : w.MarkTorn base n) (hemits : w.Emits w' (zeros k) w.buffer) :
    w'.MarkTorn base (n + k) := by
  have hheld := hemits.held
  obtain ⟨sink, notices, hframe⟩ := hemits.frame
  rw [hframe] at hheld ⊢
  refine ⟨h.phase_eq, h.buffer_eq, h.digest_eq, h.sized, ?_⟩
  rw [hheld, h.held, ByteArray.append_assoc, zeros_append]

theorem MarkTorn.flushSink (h : w.MarkTorn base n) : w.flushSink.2.MarkTorn base n :=
  h.emits (k := 0) (flushSink_emits w).1

theorem MarkTorn.writeHeader_eq (h : w.MarkTorn base n) : w.writeHeader = (.ok (), w) := by
  rw [writeHeader, if_neg]
  rw [h.phase_eq]
  decide

theorem MarkTorn.flushBlock_eq (h : w.MarkTorn base n) : w.flushBlock = (.ok (), w) := by
  rw [flushBlock, if_pos]
  rw [h.buffer_eq]
  rfl

theorem MarkTorn.writeData_eq (h : w.MarkTorn base n) (data : ByteArray) :
    w.writeData data = (w.counting data).fill data 0 := by
  rw [writeData, h.not_closed, if_neg Bool.false_ne_true, h.writeHeader_eq, marked_ok, Outcome.andThen_ok]
  rfl

/-- Data of no bytes leaves the frame as far as it was. -/
theorem MarkTorn.writeData_none (h : w.MarkTorn base n) {data : ByteArray} (hnone : data.size = 0) :
    (w.writeData data).2.MarkTorn base n := by
  have hsame : (w.counting data).fill data 0 = (.ok (), w.counting data) := fill_end (by omega)
  rw [h.writeData_eq, hsame]
  refine ⟨h.phase_eq, h.buffer_eq, ?_, ?_, h.held⟩
  · change w.digest.map _ = none
    rw [h.digest_eq]
    rfl
  · change ∀ declared, w.options.contentSize = some declared → declared = w.written + data.size
    rw [hnone]
    exact h.sized

/-- A close that breaks off behind the blocks of a frame without content checksum leaves zeros there. -/
theorem close_tears_mark {o : FrameOptions} {before torn : ByteArray} {g : Gathered} {e : Error}
    (h : w.inMemory.Holds o before g) (hg : g.Sized o.blockSize.bytes) (hchecksum : o.contentChecksum = false)
    (hfailed : w.close = (.error e, w')) (hsize : ∀ declared written, e ≠ .contentSize declared written)
    (hheld : w'.sink.held = w.sink.held ++ (joined (w.parts .close) ++ torn)) :
    ∃ m, w'.MarkTorn (w.sink.held ++ joined (w.parts .close)) m := by
  obtain ⟨hterminate, hsized⟩ := close_error h.open_inMemory hfailed hsize
  rcases terminate_breaks h hg hterminate with ⟨i, taken, hi, hstops⟩ | ⟨w₂, taken, hbreaks⟩
  · -- Inside a part less would have arrived.
    exfalso
    have hsame := (ByteArray.append_right_inj _).mp (hstops.held.symm.trans hheld)
    have hless := size_joined_take_lt hi (hstops.less hi)
    rw [hsame, ByteArray.size_append] at hless
    omega
  · have hoptions : w₂.options = w.options := hbreaks.holds.options_eq.trans (Eq.symm h.options_eq)
    have hwritten : w₂.written = w.written := by
      have hcount : w₂.written = g.flushed.content.size := hbreaks.holds.written_eq
      rw [hcount, Gathered.flushed_content]
      exact h.written_eq.symm
    have hbuffer : w₂.buffer = ByteArray.empty := hbreaks.holds.rest_eq.trans Gathered.flushed_rest
    have hdigest : w₂.digest = none := by
      refine hbreaks.holds.digest_eq.trans ?_
      rw [hchecksum]
      rfl
    have htorn : w₂.MarkTorn (w.sink.held ++ joined (w.parts .close)) 0 := by
      refine ⟨hbreaks.phase_eq, hbuffer, hdigest, ?_, ?_⟩
      · rw [hoptions, hwritten]
        exact hsized
      · rw [hbreaks.held]
        exact ByteArray.append_empty.symm
    obtain ⟨missing, hfront⟩ := hbreaks.front
    obtain ⟨w₃, hemits, rfl⟩ := hbreaks.emits
    rw [endPart_eq_zeros hdigest] at hfront
    rw [eq_zeros_of_append hfront] at hemits
    exact ⟨_, (htorn.emits hemits).mark_failed⟩

/-- Sending the end mark again adds zeros: some of them, or all and the frame is done. -/
theorem MarkTorn.terminate (h : w.MarkTorn base n) :
    (∃ m, (close.terminate w).2.MarkTorn base m) ∨ (close.terminate w).2.MarkWhole base n := by
  have hend := end_sends w
  rw [endPart_eq_zeros h.digest_eq] at hend
  rw [close.terminate, finishFrame, h.writeHeader_eq, Outcome.andThen_ok, h.flushBlock_eq, Outcome.andThen_ok,
    ← Outcome.andThen_assoc]
  change w.Sends (zeros 4) w.buffer (Outcome.andThen _ _) at hend
  generalize Outcome.andThen (emit (leBytes 4 0) w) _ = r at hend ⊢
  cases hend with
  | @part e w₁ taken missing emits cut less =>
    rw [eq_zeros_of_append cut] at emits
    exact .inl ⟨_, (h.emits emits).mark_failed⟩
  | @all w₁ emits =>
    have h₂ := (h.emits emits).flushSink
    rw [Outcome.andThen_ok]
    rcases hflush : w₁.flushSink with ⟨e | u, w₂⟩
    · rw [hflush] at h₂
      exact .inl ⟨_, h₂.mark_failed⟩
    · rw [hflush] at h₂
      exact .inr ⟨rfl, h₂.buffer_eq, h₂.held⟩

theorem writeData_counts (w : Writer δ) (data : ByteArray) : w.written ≤ (w.writeData data).2.written ∧
    ((w.writeData data).1 = .ok () → (w.writeData data).2.written = w.written + data.size) := by
  rw [writeData]
  split
  next =>
    refine ⟨Nat.le_refl _, ?_⟩
    intro hok
    cases hok
  next =>
    have hheader := (writeHeader_grows w).marked.written_eq
    rcases hmarked : marked w.writeHeader with ⟨e | u, w₁⟩
    · rw [hmarked] at hheader
      refine ⟨Nat.le_of_eq hheader.symm, ?_⟩
      intro hok
      cases hok
    · rw [hmarked] at hheader
      have hfill := (fill_grows (w₁.counting data) data 0).written_eq
      change w₁.written = w.written at hheader
      change ((w₁.counting data).fill data 0).2.written = w₁.written + data.size at hfill
      rw [hheader] at hfill
      exact ⟨Nat.le.intro hfill.symm, fun _ => hfill⟩

theorem close_counts (w : Writer δ) : w.close.2.written = w.written := by
  have hterminate : (close.terminate w).2.written = w.written :=
    @Outcome.andThen_keeps (Writer δ) (fun w₁ => w₁.written = w.written) _ _ (finishFrame_grows w).marked.written_eq
      fun _ h => h
  rw [close]
  split
  next => rfl
  next =>
    split
    next =>
      split
      next => exact hterminate
      next => rfl
    next => exact hterminate

/-- No use takes data back, and one that succeeds has taken in all of its own. -/
theorem use_counts (w : Writer δ) (u : Use) : w.written ≤ (w.use u).2.written ∧
    ((w.use u).1 = .ok () → (w.use u).2.written = w.written + u.data.size) := by
  cases u with
  | close => exact ⟨Nat.le_of_eq (close_counts w).symm, fun _ => close_counts w⟩
  | call c =>
    cases c with
    | write data => exact writeData_counts w data
    | flushBlock =>
      have hsame := (flushBlock_grows w).written_eq
      exact ⟨Nat.le_of_eq hsame.symm, fun _ => hsame⟩
    | flush =>
      have hsame : w.flush.2.written = w.written := by
        rw [flush]
        split
        next => rfl
        next => exact ((flushBlock_grows w).marked.andThen flushSink_grows).written_eq
      exact ⟨Nat.le_of_eq hsame.symm, fun _ => hsame⟩

/-- What has the end mark missing keeps it so, or gets it, as long as no data is taken in. -/
theorem MarkTorn.use (h : w.MarkTorn base n) {u : Use} (hwritten : (w.use u).2.written = w.written) :
    (∃ m, (w.use u).2.MarkTorn base m) ∨ ∃ m, (w.use u).2.MarkWhole base m := by
  cases u with
  | close =>
    have hterminate := h.terminate.imp_right fun hwhole => Exists.intro n hwhole
    rw [Writer.use, close, h.not_closed, if_neg Bool.false_ne_true]
    split
    next declared hsome =>
      rw [if_pos (h.sized declared hsome)]
      exact hterminate
    next => exact hterminate
  | call c =>
    left
    cases c with
    | flushBlock =>
      rw [Writer.use, perform, h.flushBlock_eq]
      exact ⟨n, h⟩
    | flush =>
      rw [Writer.use, perform, flush, h.not_closed, if_neg Bool.false_ne_true, h.flushBlock_eq, marked_ok,
        Outcome.andThen_ok]
      exact ⟨n, h.flushSink⟩
    | write data =>
      -- Data would count, so there is none.
      have hcounted := (fill_grows (w.counting data) data 0).written_eq
      rw [Writer.use, perform] at hwritten ⊢
      rw [h.writeData_eq] at hwritten
      change _ = w.written + data.size at hcounted
      exact ⟨n, h.writeData_none (by omega)⟩

theorem written_le_useAll (w : Writer δ) (us : List Use) : w.written ≤ (w.useAll us).written := by
  induction us generalizing w with
  | nil => exact Nat.le_refl _
  | cons u us ih => exact Nat.le_trans (use_counts w u).1 (ih _)

theorem MarkTorn.useAll (h : w.MarkTorn base n) {us : List Use} (hwritten : (w.useAll us).written = w.written) :
    (∃ m, (w.useAll us).MarkTorn base m) ∨ ∃ m, (w.useAll us).MarkWhole base m := by
  induction us generalizing w n with
  | nil => exact .inl ⟨n, h⟩
  | cons u us ih =>
    have hfirst := (use_counts w u).1
    have hrest := written_le_useAll (w.use u).2 us
    rw [Writer.useAll] at hwritten ⊢
    have hsame : (w.use u).2.written = w.written := by omega
    rcases h.use hsame with ⟨m, htorn⟩ | ⟨m, hwhole⟩
    · exact ih htorn (hwritten.trans hsame.symm)
    · rw [(useAll_of_closed hwhole.isClosed us (.inl hwhole.buffer_eq)).1]
      exact .inr ⟨m, hwhole⟩

end Writer

end LempelZiv
