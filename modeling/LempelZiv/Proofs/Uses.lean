import Mathlib
import LempelZiv.Proofs.Writing

namespace LempelZiv

/-- What a writer can be asked to do, over and over. -/
inductive Use where
  | call (c : Call)
  | close

namespace Outcome

variable {σ : Type}

/-- What holds after the first step and is kept by the second holds in the end. -/
theorem andThen_keeps {P : σ → Prop} {r : Outcome σ} {f : σ → Outcome σ} (hr : P r.2)
    (hf : ∀ s, P s → P (f s).2) : P (r.andThen f).2 := by
  obtain ⟨e | u, s⟩ := r
  · exact hr
  · exact hf s hr

theorem andThen_eq_ok {r : Outcome σ} {f : σ → Outcome σ} {s' : σ} (h : r.andThen f = (.ok (), s')) :
    ∃ s, r = (.ok (), s) ∧ f s = (.ok (), s') := by
  obtain ⟨e | u, s⟩ := r
  · cases h
  · exact ⟨s, rfl, h⟩

theorem andThen_eq_error {r : Outcome σ} {f : σ → Outcome σ} {e : Error} {s' : σ}
    (h : r.andThen f = (.error e, s')) : r = (.error e, s') ∨ ∃ s, r = (.ok (), s) ∧ f s = (.error e, s') := by
  obtain ⟨e | u, s⟩ := r
  · exact .inl h
  · exact .inr ⟨s, rfl, h⟩

theorem andThen_assoc (r : Outcome σ) (f g : σ → Outcome σ) :
    (r.andThen f).andThen g = r.andThen fun s => (f s).andThen g := by
  obtain ⟨e | u, s⟩ := r
  · rfl
  · rfl

end Outcome

namespace Writer

variable {δ : Type}

/-- What no step before the end of a frame undoes: the sink keeps what it has, and what is open stays open. -/
structure Grows (w w' : Writer δ) : Prop where
  options_eq : w'.options = w.options
  written_eq : w'.written = w.written
  held : ∃ more, w'.sink.held = w.sink.held ++ more
  stays_open : w.phase ≠ .closed → w'.phase ≠ .closed

variable {w w₁ w₂ : Writer δ}

theorem Grows.refl (w : Writer δ) : w.Grows w :=
  ⟨rfl, rfl, ⟨ByteArray.empty, ByteArray.append_empty.symm⟩, id⟩

theorem Grows.trans (h₁ : w.Grows w₁) (h₂ : w₁.Grows w₂) : w.Grows w₂ := by
  obtain ⟨a, ha⟩ := h₁.held
  obtain ⟨b, hb⟩ := h₂.held
  refine ⟨h₂.options_eq.trans h₁.options_eq, h₂.written_eq.trans h₁.written_eq, ⟨a ++ b, ?_⟩,
    fun h => h₂.stays_open (h₁.stays_open h)⟩
  rw [hb, ha, ByteArray.append_assoc]

/-- A writer that differs only in what it holds back, and is in the middle of a frame. -/
theorem Grows.of_begun (hoptions : w₁.options = w.options) (hwritten : w₁.written = w.written)
    (hsink : w₁.sink = w.sink) (hbegun : w₁.phase = .begun) : w.Grows w₁ := by
  refine ⟨hoptions, hwritten, ⟨ByteArray.empty, ?_⟩, ?_⟩
  · rw [hsink, ByteArray.append_empty]
  · intro _ hclosed
    rw [hbegun] at hclosed
    cases hclosed

theorem Grows.andThen {r : Outcome (Writer δ)} {f : Writer δ → Outcome (Writer δ)} (hr : w.Grows r.2)
    (hf : ∀ w₁ : Writer δ, w₁.Grows (f w₁).2) : w.Grows (r.andThen f).2 :=
  Outcome.andThen_keeps hr fun w₁ h => h.trans (hf w₁)

theorem Grows.marked {r : Outcome (Writer δ)} (hr : w.Grows r.2) : w.Grows (marked r).2 := by
  obtain ⟨e | u, w₁⟩ := r
  · exact ⟨hr.options_eq, hr.written_eq, hr.held, hr.stays_open⟩
  · exact hr

theorem marked_eq_error {r : Outcome (Writer δ)} {e : Error} (h : marked r = (.error e, w)) :
    ∃ w₁, r = (.error e, w₁) ∧ w = { w₁ with failed := true } := by
  obtain ⟨e' | u, w₁⟩ := r
  · cases h
    exact ⟨w₁, rfl, rfl⟩
  · cases h

theorem marked_eq_ok {r : Outcome (Writer δ)} (h : marked r = (.ok (), w)) : r = (.ok (), w) := by
  obtain ⟨e | u, w₁⟩ := r
  · cases h
  · exact h

variable [Device δ]

theorem Emits.grows {bytes rest : ByteArray} (h : w.Emits w₁ bytes rest) : w.Grows w₁ := by
  have hheld := h.held
  obtain ⟨sink, notices, hframe⟩ := h.frame
  rw [hframe] at hheld ⊢
  exact ⟨rfl, rfl, ⟨bytes, hheld⟩, id⟩

theorem Sends.grows {bytes rest : ByteArray} {r : Outcome (Writer δ)} (h : w.Sends bytes rest r) :
    w.Grows r.2 := by
  cases h with
  | all emits => exact emits.grows
  | part emits => exact emits.grows

theorem emit_grows (bytes : ByteArray) (w : Writer δ) : w.Grows (emit bytes w).2 := (emit_sends w bytes).grows

theorem flushSink_grows (w : Writer δ) : w.Grows w.flushSink.2 := (flushSink_emits w).1.grows

theorem writeHeader_grows (w : Writer δ) : w.Grows w.writeHeader.2 := by
  rw [writeHeader]
  split
  next =>
    refine (emit_grows _ w).andThen fun w₁ => ?_
    exact .of_begun rfl rfl rfl rfl
  next => exact .refl w

theorem emitBlock_grows (w : Writer δ) : w.Grows w.emitBlock.2 := by
  rw [emitBlock]
  split
  next => exact .refl w
  next word payload _ =>
    have hnote := (emits_note w (.block w.buffer.size payload.size (storedFlag ≤ word))).grows
    exact hnote.trans ((emit_grows _ _).andThen fun w₁ => (emit_grows _ w₁).andThen fun w₂ =>
      (emit_checksum_sends w₂ payload).grows)

theorem flushBlock_grows (w : Writer δ) : w.Grows w.flushBlock.2 := by
  rw [flushBlock]
  split
  next => exact .refl w
  next => exact (emitBlock_grows w).andThen fun w₁ => .of_begun rfl rfl rfl rfl

theorem fill_grows (w : Writer δ) (data : ByteArray) (i : Nat) : w.Grows (w.fill data i).2 := by
  fun_induction fill w data i with
  | case1 i hlt sink options phase buffer digest written failed notices next w hroom ih =>
    have hstart : Grows ⟨sink, options, phase, buffer, digest, written, failed, notices⟩ w :=
      .of_begun rfl rfl rfl rfl
    exact hstart.trans ih
  | case2 i hlt sink options phase buffer digest written failed notices next w hfull e w' hblock =>
    have hstart : Grows ⟨sink, options, phase, buffer, digest, written, failed, notices⟩ w :=
      .of_begun rfl rfl rfl rfl
    have hgrows := (emitBlock_grows w).marked
    rw [hblock] at hgrows
    exact hstart.trans hgrows
  | case3 i hlt sink options phase buffer digest written failed notices next w hfull w' hblock ih =>
    have hstart : Grows ⟨sink, options, phase, buffer, digest, written, failed, notices⟩ w :=
      .of_begun rfl rfl rfl rfl
    have hgrows := (emitBlock_grows w).marked
    rw [hblock] at hgrows
    have hcleared : w'.Grows w'.cleared := .of_begun rfl rfl rfl rfl
    exact hstart.trans (hgrows.trans (hcleared.trans ih))
  | case4 => exact .refl _

theorem finishFrame_grows (w : Writer δ) : w.Grows w.finishFrame.2 := by
  rw [finishFrame]
  refine (writeHeader_grows w).andThen fun w₁ => (flushBlock_grows w₁).andThen fun w₂ =>
    (emit_grows _ w₂).andThen fun w₃ => .andThen ?_ flushSink_grows
  split
  next => exact emit_grows _ w₃
  next => exact .refl w₃

theorem emit_ok {bytes : ByteArray} (hok : emit bytes w = (.ok (), w₁)) : w.Emits w₁ bytes w.buffer :=
  (emit_sends w bytes).sent hok

theorem flushSink_ok (hok : w.flushSink = (.ok (), w₁)) : w.Emits w₁ ByteArray.empty w.buffer := by
  have h := (flushSink_emits w).1
  rw [hok] at h
  exact h

theorem flushBlock_buffer (hok : w.flushBlock = (.ok (), w₁)) : w₁.buffer = ByteArray.empty := by
  rw [flushBlock] at hok
  split at hok
  next hempty =>
    cases hok
    exact ByteArray.size_eq_zero_iff.mp (isEmpty_iff.mp hempty)
  next =>
    obtain ⟨w₂, _, hcleared⟩ := Outcome.andThen_eq_ok hok
    cases hcleared
    rfl

/-- A frame that is finished has nothing left in the buffer. -/
theorem finishFrame_buffer (hok : w.finishFrame = (.ok (), w₁)) : w₁.buffer = ByteArray.empty := by
  rw [finishFrame] at hok
  obtain ⟨_, _, hok⟩ := Outcome.andThen_eq_ok hok
  obtain ⟨w₂, hflushed, hok⟩ := Outcome.andThen_eq_ok hok
  obtain ⟨w₃, hend, hok⟩ := Outcome.andThen_eq_ok hok
  obtain ⟨w₄, hdigest, hsink⟩ := Outcome.andThen_eq_ok hok
  have hdigest' : w₄.buffer = w₃.buffer := by
    split at hdigest
    next => exact (emit_ok hdigest).buffer_eq
    next => cases hdigest; rfl
  rw [(flushSink_ok hsink).buffer_eq, hdigest', (emit_ok hend).buffer_eq, flushBlock_buffer hflushed]

theorem emitBlock_adds (hok : w.emitBlock = (.ok (), w₁)) : w.sink.held.size < w₁.sink.held.size := by
  rw [emitBlock] at hok
  split at hok
  next => cases hok
  next word payload _ =>
    obtain ⟨w₂, hword, hok⟩ := Outcome.andThen_eq_ok hok
    have hfirst : w₂.sink.held = w.sink.held ++ leBytes 4 word := (emit_ok hword).held
    have hgrows : w₂.Grows w₁ := by
      have h := (emit_grows payload w₂).andThen fun w₃ => (emit_checksum_sends w₃ payload).grows
      rw [hok] at h
      exact h
    obtain ⟨more, hmore⟩ := hgrows.held
    rw [hmore, hfirst, ByteArray.size_append, ByteArray.size_append, size_leBytes]
    omega

def use (w : Writer δ) : Use → Outcome (Writer δ)
  | .call c => w.perform c
  | .close => w.close

/-- The uses in turn, whatever comes of them. -/
def useAll (w : Writer δ) : List Use → Writer δ
  | [] => w
  | u :: us => (w.use u).2.useAll us

/-- What comes of the uses in turn. -/
def results (w : Writer δ) : List Use → List (Except Error Unit)
  | [] => []
  | u :: us => (w.use u).1 :: (w.use u).2.results us

end Writer

/-- What comes of a use of a writer that is closed and holds nothing back. -/
def Use.late : Use → Except Error Unit
  | .call (.write _) => .error .closed
  | .call .flushBlock => .ok ()
  | .call .flush => .ok ()
  | .close => .ok ()

namespace Writer

variable {δ : Type} [Device δ] {w w₁ : Writer δ}

theorem use_of_closed (hclosed : w.isClosed = true) (u : Use)
    (hu : w.buffer = ByteArray.empty ∨ u ≠ .call .flushBlock) : w.use u = (u.late, w) := by
  cases u with
  | close => exact if_pos hclosed
  | call c =>
    cases c with
    | write data => exact if_pos hclosed
    | flush => exact if_pos hclosed
    | flushBlock =>
      rcases hu with hempty | hother
      · have hnone : w.buffer.isEmpty = true := by
          rw [hempty]
          rfl
        exact if_pos hnone
      · exact absurd rfl hother

theorem useAll_of_closed (hclosed : w.isClosed = true) (us : List Use)
    (hus : w.buffer = ByteArray.empty ∨ Use.call .flushBlock ∉ us) :
    w.useAll us = w ∧ w.results us = us.map Use.late := by
  induction us with
  | nil => exact ⟨rfl, rfl⟩
  | cons u us ih =>
    have hu : w.buffer = ByteArray.empty ∨ u ≠ .call .flushBlock :=
      hus.imp_right fun h heq => h (heq ▸ List.mem_cons_self)
    have huse := use_of_closed hclosed u hu
    obtain ⟨hlast, hresults⟩ := ih (hus.imp_right fun h hmem => h (List.mem_cons_of_mem _ hmem))
    rw [useAll, results, huse, hlast, hresults]
    exact ⟨rfl, rfl⟩

/-- A closed writer holds nothing back. So it is unless the content had another size than declared. -/
def Settled (w : Writer δ) : Prop := w.phase = .closed → w.buffer = ByteArray.empty

theorem perform_open (hopen : w.phase ≠ .closed) (c : Call) : (w.perform c).2.phase ≠ .closed := by
  have hnot : w.isClosed = false := by
    rw [isClosed, decide_eq_false hopen]
  cases c with
  | write data =>
    rw [perform, writeData, hnot, if_neg Bool.false_ne_true]
    have hheader := (writeHeader_grows w).marked.stays_open hopen
    refine @Outcome.andThen_keeps (Writer δ) (fun w => w.phase ≠ .closed) _ _ hheader fun w₁ h₁ => ?_
    exact (fill_grows (w₁.counting data) data 0).stays_open h₁
  | flushBlock => exact (flushBlock_grows w).stays_open hopen
  | flush =>
    rw [perform, flush, hnot, if_neg Bool.false_ne_true]
    exact ((flushBlock_grows w).marked.andThen flushSink_grows).stays_open hopen

theorem terminate_settled (hopen : w.phase ≠ .closed) : (close.terminate w).2.Settled := by
  rw [close.terminate]
  have hgrows := finishFrame_grows w
  rcases hfinish : w.finishFrame with ⟨e | u, w₁⟩
  · rw [hfinish] at hgrows
    intro hclosed
    exact absurd hclosed (hgrows.stays_open hopen)
  · have hempty : w₁.buffer = ByteArray.empty := finishFrame_buffer hfinish
    intro _
    exact hempty

theorem use_settled (h : w.Settled) (u : Use) :
    (w.use u).2.Settled ∨ ∃ declared written, (w.use u).1 = .error (.contentSize declared written) := by
  by_cases hphase : w.phase = .closed
  · have hclosed : w.isClosed = true := decide_eq_true hphase
    rw [use_of_closed hclosed u (.inl (h hphase))]
    exact .inl h
  · cases u with
    | call c => exact .inl fun hclosed => absurd hclosed (perform_open hphase c)
    | close =>
      have hnot : w.isClosed = false := by
        rw [isClosed, decide_eq_false hphase]
      rw [use, close, hnot, if_neg Bool.false_ne_true]
      split
      next declared _ =>
        split
        next => exact .inl (terminate_settled hphase)
        next => exact .inr ⟨declared, w.written, rfl⟩
      next => exact .inl (terminate_settled hphase)

/-- What a closed writer holds back comes from a close that found another size than declared. -/
theorem useAll_settled (h : w.Settled) (us : List Use) :
    (w.useAll us).Settled ∨ ∃ declared written, .error (.contentSize declared written) ∈ w.results us := by
  induction us generalizing w with
  | nil => exact .inl h
  | cons u us ih =>
    rcases use_settled h u with hsettled | ⟨declared, written, herror⟩
    · rcases ih hsettled with hlast | ⟨declared, written, hmem⟩
      · exact .inl hlast
      · exact .inr ⟨declared, written, List.mem_cons_of_mem _ hmem⟩
    · refine .inr ⟨declared, written, ?_⟩
      rw [results, herror]
      exact List.mem_cons_self

theorem flushBlock_reopens (hbuffer : w.buffer ≠ ByteArray.empty) (hok : w.flushBlock = (.ok (), w₁)) :
    w₁.isClosed = false ∧ w.sink.held.size < w₁.sink.held.size := by
  have hfull : ¬w.buffer.isEmpty = true :=
    fun h => hbuffer (ByteArray.size_eq_zero_iff.mp (isEmpty_iff.mp h))
  rw [flushBlock, if_neg hfull] at hok
  obtain ⟨w₂, hblock, hcleared⟩ := Outcome.andThen_eq_ok hok
  have hadds : w.sink.held.size < w₂.sink.held.size := emitBlock_adds hblock
  cases hcleared
  exact ⟨rfl, hadds⟩

/-- A closed writer stays as it is, unless it has been closed over a content of another size than declared
and still holds data: then it is open again once that data is flushed as a block. -/
theorem closed_for_good_or_reopened {sink : Sink δ} {o : FrameOptions} {earlier : List Use}
    (hclosed : ((new sink o).useAll earlier).isClosed = true) :
    let w := (new sink o).useAll earlier
    w.drop = w ∧
    (∀ later, Use.call .flushBlock ∉ later → w.useAll later = w ∧ w.results later = later.map Use.late) ∧
    ((∀ later, w.useAll later = w ∧ w.results later = later.map Use.late) ∨
      (∃ declared written, .error (.contentSize declared written) ∈ (new sink o).results earlier) ∧
        w.buffer ≠ ByteArray.empty ∧
        ∀ w', w.use (.call .flushBlock) = (.ok (), w') →
          w'.isClosed = false ∧ w.sink.held.size < w'.sink.held.size) := by
  intro w
  refine ⟨?_, fun later hlater => useAll_of_closed hclosed later (.inr hlater), ?_⟩
  · rw [drop, hclosed, Bool.or_true, if_pos rfl]
  by_cases hbuffer : w.buffer = ByteArray.empty
  · exact .inl fun later => useAll_of_closed hclosed later (.inl hbuffer)
  · right
    refine ⟨?_, hbuffer, fun w' hok => flushBlock_reopens hbuffer hok⟩
    have hnew : (new sink o).Settled := fun _ => rfl
    rcases useAll_settled hnew earlier with hsettled | hmismatch
    · exact absurd (hsettled (of_decide_eq_true hclosed)) hbuffer
    · exact hmismatch

theorem closed_for_good_or_reopened_over_a_byte :
    let w := (new ⟨Memory.mk, ByteArray.empty, 0⟩ { contentSize := some 2 }).useAll
      [.call (.write ⟨#[97]⟩), .close]
    w.isClosed = true ∧ w.drop = w ∧
      (∀ later, Use.call .flushBlock ∉ later →
        w.useAll later = w ∧ w.results later = later.map Use.late) ∧
      ((∀ later, w.useAll later = w ∧ w.results later = later.map Use.late) ∨
        (∃ declared written, .error (.contentSize declared written) ∈
          (new ⟨Memory.mk, ByteArray.empty, 0⟩ { contentSize := some 2 }).results
            [.call (.write ⟨#[97]⟩), .close]) ∧
          w.buffer ≠ ByteArray.empty ∧
          ∀ w', w.use (.call .flushBlock) = (.ok (), w') →
            w'.isClosed = false ∧ w.sink.held.size < w'.sink.held.size) :=
  ⟨by cbv, closed_for_good_or_reopened (by cbv)⟩

/-- A byte waits in a writer that was closed because two were declared. -/
theorem flushBlock_reopens_after_mismatch :
    let w := (new ⟨Memory.mk, ByteArray.empty, 0⟩ { contentSize := some 2 }).useAll
      [.call (.write ⟨#[97]⟩), .close]
    w.isClosed = true ∧ (w.useAll [.call .flushBlock]).isClosed = false ∧
      w.sink.held.size = 15 ∧ (w.useAll [.call .flushBlock]).sink.held.size = 20 := by
  cbv

end Writer

end LempelZiv
