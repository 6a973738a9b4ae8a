import LempelZiv.Proofs.Recovering

namespace LempelZiv

namespace Writer

variable {δ : Type} {w : Writer δ} {r : Outcome (Writer δ)}

/-- Whatever comes of it, the step neither sets the mark of a failure nor takes it back. -/
def Unmarking (w : Writer δ) (r : Outcome (Writer δ)) : Prop := r.2.failed = w.failed

/-- The step sets the mark if it fails, and only then. -/
def Marking (w : Writer δ) (r : Outcome (Writer δ)) : Prop :=
  r.2.failed = true ↔ w.failed = true ∨ ∃ e, r.1 = .error e

theorem Unmarking.andThen {f : Writer δ → Outcome (Writer δ)} (hr : w.Unmarking r)
    (hf : ∀ w₁ : Writer δ, w₁.Unmarking (f w₁)) : w.Unmarking (r.andThen f) :=
  @Outcome.andThen_keeps _ (fun w₁ : Writer δ => w₁.failed = w.failed) _ _ hr fun w₁ h => (hf w₁).trans h

theorem Unmarking.marked (h : w.Unmarking r) : w.Marking (marked r) := by
  obtain ⟨e | u, w₁⟩ := r
  · exact ⟨fun _ => .inr ⟨e, rfl⟩, fun _ => rfl⟩
  · have hsame : w₁.failed = w.failed := h
    simp [Marking, Writer.marked, hsame]

theorem Marking.ok {w₁ : Writer δ} (h : w₁.failed = w.failed) : w.Marking (.ok (), w₁) := by
  simp [Marking, h]

theorem Marking.after_ok {w₁ : Writer δ} (h : w.Marking (.ok (), w₁)) (hr : w₁.Marking r) : w.Marking r := by
  have hsame : w₁.failed = true ↔ w.failed = true := by simpa [Marking] using h
  exact hr.trans (or_congr_left hsame)

theorem Marking.andThen {f : Writer δ → Outcome (Writer δ)} (hr : w.Marking r)
    (hf : ∀ w₁ : Writer δ, w₁.Marking (f w₁)) : w.Marking (r.andThen f) := by
  obtain ⟨e | u, w₁⟩ := r
  · exact hr
  · exact hr.after_ok (hf w₁)

variable [Device δ]

theorem Emits.failed_eq {w₁ : Writer δ} {bytes rest : ByteArray} (h : w.Emits w₁ bytes rest) :
    w₁.failed = w.failed := by
  obtain ⟨sink, notices, he⟩ := h.frame
  rw [he]

theorem Sends.unmarking {bytes rest : ByteArray} (h : w.Sends bytes rest r) : w.Unmarking r := by
  cases h with
  | all emits => exact emits.failed_eq
  | part emits => exact emits.failed_eq

theorem flushSink_unmarking (w : Writer δ) : w.Unmarking w.flushSink := (flushSink_emits w).1.failed_eq

theorem writeHeader_unmarking (w : Writer δ) : w.Unmarking w.writeHeader := by
  rw [writeHeader]
  split
  next => exact (emit_sends w _).unmarking.andThen fun w₁ => rfl
  next => rfl

theorem emitBlock_unmarking (w : Writer δ) : w.Unmarking w.emitBlock := by
  rw [emitBlock]
  split
  next => rfl
  next word payload _ =>
    refine .andThen (emit_sends (w.note _) _).unmarking fun w₁ => .andThen (emit_sends w₁ payload).unmarking ?_
    exact fun w₂ => (emit_checksum_sends w₂ payload).unmarking

theorem flushBlock_unmarking (w : Writer δ) : w.Unmarking w.flushBlock := by
  rw [flushBlock]
  split
  next => rfl
  next => exact (emitBlock_unmarking w).andThen fun w₁ => rfl

theorem finishFrame_unmarking (w : Writer δ) : w.Unmarking w.finishFrame := by
  refine (writeHeader_unmarking w).andThen fun w₁ => (flushBlock_unmarking w₁).andThen fun w₂ =>
    (emit_sends w₂ _).unmarking.andThen fun w₃ => .andThen ?_ flushSink_unmarking
  exact (emit_digest_sends w₃).unmarking

theorem fill_marking (w : Writer δ) (data : ByteArray) (i : Nat) : w.Marking (w.fill data i) := by
  fun_induction fill w data i with
  | case1 i hlt sink options phase buffer digest written failed notices next w hroom ih => exact ih
  | case2 i hlt sink options phase buffer digest written failed notices next w hfull e w' hblock =>
    have hmarking := (emitBlock_unmarking w).marked
    rw [hblock] at hmarking
    exact hmarking
  | case3 i hlt sink options phase buffer digest written failed notices next w hfull w' hblock ih =>
    have hmarking := (emitBlock_unmarking w).marked
    rw [hblock] at hmarking
    exact hmarking.after_ok ih
  | case4 w i hend => exact .ok rfl

theorem terminate_marking (w : Writer δ) : w.Marking (close.terminate w) :=
  (finishFrame_unmarking w).marked.andThen fun _ => .ok rfl

/-- The steps after which a failure of the sink is not noted: a block that is flushed alone, and the flush of the sink
behind a block that went out. -/
def Unguarded (w : Writer δ) : Use → Prop
  | .call (.write _) => False
  | .call .flushBlock => True
  | .call .flush => w.flushBlock.1 = .ok ()
  | .close => False

/-- The use fails, and that is noted: a later drop leaves the sink alone. -/
structure LeavesMark (w : Writer δ) (u : Use) : Prop where
  was_open : w.isClosed = false
  fails : ∃ e, (w.use u).1 = .error e
  guarded : ¬w.Unguarded u

theorem Marking.use_failed_iff {u : Use} (h : w.Marking (w.use u)) (hopen : w.isClosed = false)
    (hguarded : ¬w.Unguarded u) : (w.use u).2.failed = true ↔ w.failed = true ∨ w.LeavesMark u :=
  h.trans (or_congr_right ⟨fun hfails => ⟨hopen, hfails, hguarded⟩, fun hmark => hmark.fails⟩)

theorem Unmarking.use_failed_iff {u : Use} (h : w.Unmarking (w.use u)) (hnone : ¬w.LeavesMark u) :
    (w.use u).2.failed = true ↔ w.failed = true ∨ w.LeavesMark u := by
  have hsame : (w.use u).2.failed = w.failed := h
  rw [hsame, or_iff_left hnone]

theorem flush_failed_iff (hopen : w.isClosed = false) :
    (w.use (.call .flush)).2.failed = true ↔ w.failed = true ∨ w.LeavesMark (.call .flush) := by
  have huse : w.use (.call .flush) = (marked w.flushBlock).andThen flushSink := by
    rw [use, perform, flush, hopen, if_neg Bool.false_ne_true]
  -- The block is guarded, and the flush of the sink behind it is not.
  rcases hblock : w.flushBlock with ⟨e | u, w₁⟩
  · have hfails : w.use (.call .flush) = (.error e, { w₁ with failed := true }) := by
      rw [huse, hblock]
      rfl
    have hmark : w.LeavesMark (.call .flush) := by
      refine ⟨hopen, ⟨e, by rw [hfails]⟩, ?_⟩
      intro hout
      rw [Unguarded, hblock] at hout
      cases hout
    rw [hfails]
    exact ⟨fun _ => .inr hmark, fun _ => rfl⟩
  · have hflushed := flushBlock_unmarking w
    rw [hblock] at hflushed
    have hunmarking : w.Unmarking (w.use (.call .flush)) := by
      rw [huse, hblock]
      exact (flushSink_unmarking w₁).trans hflushed
    refine hunmarking.use_failed_iff fun hmark => hmark.guarded ?_
    rw [Unguarded, hblock]

/-- A use sets the mark of a failure if it is one of those that do and fails; nothing takes it back. -/
theorem use_failed_iff (w : Writer δ) (u : Use) :
    (w.use u).2.failed = true ↔ w.failed = true ∨ w.LeavesMark u := by
  by_cases hblock : u = .call .flushBlock
  · subst hblock
    exact (flushBlock_unmarking w).use_failed_iff fun hmark => hmark.guarded trivial
  cases hclosed : w.isClosed with
  | true =>
    have hsame : w.Unmarking (w.use u) := by
      rw [use_of_closed hclosed u (.inr hblock)]
      rfl
    refine hsame.use_failed_iff fun hmark => ?_
    rw [hmark.was_open] at hclosed
    cases hclosed
  | false =>
    cases u with
    | close =>
      have hmarking : w.Marking (w.use .close) := by
        rw [use, close, hclosed, if_neg Bool.false_ne_true]
        split
        next declared _ =>
          split
          next => exact terminate_marking w
          next => exact ⟨fun _ => .inr ⟨_, rfl⟩, fun _ => rfl⟩
        next => exact terminate_marking w
      exact hmarking.use_failed_iff hclosed id
    | call c =>
      cases c with
      | flushBlock => exact absurd rfl hblock
      | flush => exact flush_failed_iff hclosed
      | write data =>
        have hmarking : w.Marking (w.use (.call (.write data))) := by
          rw [use, perform, writeData, hclosed, if_neg Bool.false_ne_true]
          exact (writeHeader_unmarking w).marked.andThen fun w₁ => fill_marking (w₁.counting data) data 0
        exact hmarking.use_failed_iff hclosed id

theorem useAll_failed_iff (w : Writer δ) (us : List Use) : (w.useAll us).failed = true ↔
    w.failed = true ∨ ∃ before u after, us = before ++ u :: after ∧ (w.useAll before).LeavesMark u := by
  induction us generalizing w with
  | nil => simp [useAll]
  | cons u us ih =>
    rw [useAll, ih, use_failed_iff, or_assoc]
    refine or_congr_right ⟨?_, ?_⟩
    · rintro (hmark | ⟨before, u', after, rfl, hmark⟩)
      · exact ⟨[], u, us, rfl, hmark⟩
      · exact ⟨u :: before, u', after, rfl, hmark⟩
    · rintro ⟨before, u', after, hus, hmark⟩
      cases before with
      | nil =>
        cases hus
        exact .inl hmark
      | cons _ before =>
        cases hus
        exact .inr ⟨before, u', after, rfl, hmark⟩

theorem result_mem (w : Writer δ) (before : List Use) (u : Use) (after : List Use) :
    ((w.useAll before).use u).1 ∈ w.results (before ++ u :: after) := by
  induction before generalizing w with
  | nil => exact List.mem_cons_self
  | cons _ before ih => exact List.mem_cons_of_mem _ (ih _)

theorem finishFrame_adds {w' : Writer δ} (hok : w.finishFrame = (.ok (), w')) :
    w.sink.held.size < w'.sink.held.size := by
  rw [finishFrame] at hok
  obtain ⟨w₁, hheader, hok⟩ := Outcome.andThen_eq_ok hok
  obtain ⟨w₂, hflushed, hok⟩ := Outcome.andThen_eq_ok hok
  obtain ⟨w₃, hend, hok⟩ := Outcome.andThen_eq_ok hok
  obtain ⟨w₄, hdigest, hsink⟩ := Outcome.andThen_eq_ok hok
  have hbefore : w.Grows w₂ := by
    have h := (writeHeader_grows w).andThen flushBlock_grows
    rwa [hheader, Outcome.andThen_ok, hflushed] at h
  have hafter : w₃.Grows w' := ((emit_digest_sends w₃).sent hdigest).grows.trans (flushSink_ok hsink).grows
  obtain ⟨first, hfirst⟩ := hbefore.held
  obtain ⟨last, hlast⟩ := hafter.held
  rw [hlast, (emit_ok hend).held, hfirst]
  simp only [ByteArray.size_append, size_leBytes]
  omega

theorem close_adds {w' : Writer δ} (hopen : w.isClosed = false) (hok : w.close = (.ok (), w')) :
    w.sink.held.size < w'.sink.held.size := by
  have hterminated : close.terminate w = (.ok (), w') := by
    rw [close, hopen, if_neg Bool.false_ne_true] at hok
    split at hok
    next declared _ =>
      split at hok
      next => exact hok
      next => cases hok
    next => exact hok
  rw [close.terminate] at hterminated
  obtain ⟨w₁, hfinish, hclosed⟩ := Outcome.andThen_eq_ok hterminated
  have hadds := finishFrame_adds (marked_eq_ok hfinish)
  cases hclosed
  exact hadds

/-- A refusal for being closed is no failure of the sink. -/
theorem leavesMark_of_stream {u : Use} {e : StreamError} (hfails : (w.use u).1 = .error (.stream e))
    (hguarded : ¬w.Unguarded u) : w.LeavesMark u := by
  refine ⟨?_, ⟨_, hfails⟩, hguarded⟩
  by_contra hclosed
  have hblock : u ≠ .call .flushBlock := by
    rintro rfl
    exact hguarded trivial
  rw [use_of_closed (Bool.eq_true_of_not_eq_false hclosed) u (.inr hblock)] at hfails
  cases u with
  | close => cases hfails
  | call c => cases c <;> cases hfails

theorem drop_of_failed (hfailed : w.failed = true) : w.drop = w := by
  rw [drop, hfailed, Bool.true_or, if_pos rfl]

theorem drop_of_not_failed (hfailed : w.failed = false) (hopen : w.isClosed = false) : w.drop = w.close.2 := by
  rw [drop, hfailed, hopen, Bool.false_or, if_neg Bool.false_ne_true]

/-- A dropped writer leaves its sink alone if the sink has failed in one of the uses before, other than a block that
was flushed alone and the flush of the sink behind a block that went out. Otherwise, in particular if nothing failed,
an open writer is closed, and if that succeeds the sink has more bytes than before. -/
theorem drop_after_uses {sink : Sink δ} {o : FrameOptions} (us : List Use) :
    let new := new sink o
    let w := new.useAll us
    (∀ before u after e, us = before ++ u :: after → ((new.useAll before).use u).1 = .error (.stream e) →
      ¬(new.useAll before).Unguarded u → w.drop = w) ∧
    ((∀ before u after, us = before ++ u :: after → ¬(new.useAll before).LeavesMark u) → w.isClosed = false →
      w.drop = w.close.2 ∧ (w.close.1 = .ok () → w.sink.held.size < w.drop.sink.held.size)) ∧
    ((∀ result ∈ new.results us, result = .ok ()) → w.isClosed = false → w.drop = w.close.2) := by
  intro new w
  have hfailed := useAll_failed_iff new us
  have hdrop : (∀ before u after, us = before ++ u :: after → ¬(new.useAll before).LeavesMark u) →
      w.isClosed = false → w.drop = w.close.2 := by
    intro hnone hopen
    refine drop_of_not_failed (Bool.eq_false_iff.mpr fun h => ?_) hopen
    rcases hfailed.mp h with hfresh | ⟨before, u, after, hus, hmark⟩
    · cases hfresh
    · exact hnone before u after hus hmark
  refine ⟨?_, ?_, ?_⟩
  · intro before u after e hus hfails hguarded
    exact drop_of_failed (hfailed.mpr (.inr ⟨before, u, after, hus, leavesMark_of_stream hfails hguarded⟩))
  · intro hnone hopen
    refine ⟨hdrop hnone hopen, fun hok => ?_⟩
    rw [hdrop hnone hopen]
    exact close_adds hopen (Prod.ext hok rfl)
  · intro hresults hopen
    refine hdrop ?_ hopen
    rintro before u after rfl hmark
    obtain ⟨e, he⟩ := hmark.fails
    have hok := hresults _ (result_mem new before u after)
    rw [he] at hok
    cases hok

/-- A sink that refuses the header, and one that takes everything but cannot flush at first. -/
theorem drop_after_uses_of_refused_header :
    let refused : Writer Planned := new ⟨⟨[.failed diskFull], []⟩, ByteArray.empty, 0⟩ {}
    let unflushed : Writer Planned := new ⟨⟨[], [some diskFull]⟩, ByteArray.empty, 0⟩ {}
    let wrote : List Use := [.call (.write ⟨#[97]⟩)]
    (refused.results wrote = [.error (.stream diskFull)] ∧ (refused.useAll wrote).drop = refused.useAll wrote) ∧
    (unflushed.results [.call .flush] = [.error (.stream diskFull)] ∧
      (unflushed.useAll [.call .flush]).sink.held.size <
        (unflushed.useAll [.call .flush]).drop.sink.held.size) ∧
    (unflushed.useAll wrote).drop = (unflushed.useAll wrote).close.2 := by
  intro refused unflushed wrote
  refine ⟨⟨by cbv, ?_⟩, ⟨by cbv, ?_⟩, ?_⟩
  · exact (drop_after_uses wrote).1 [] _ [] diskFull rfl (by cbv) id
  · refine ((drop_after_uses [.call .flush]).2.1 ?_ (by cbv)).2 (by cbv)
    intro before u after hus hmark
    cases before with
    | nil =>
      cases hus
      exact hmark.guarded rfl
    | cons _ before => simp at hus
  · refine (drop_after_uses wrote).2.2 ?_ (by cbv)
    have hresults : unflushed.results wrote = [.ok ()] := by cbv
    intro result hresult
    rw [hresults] at hresult
    exact List.mem_singleton.mp hresult

/-- The sink cannot flush behind a block, or takes nothing behind the header, and then is well again: the drop ends a
frame over which a use has failed. -/
theorem drop_ends_failed_frame :
    let unflushed : Writer Planned := new ⟨⟨[], [some diskFull]⟩, ByteArray.empty, 0⟩ {}
    let refused : Writer Planned := new ⟨⟨[.took 99, .failed diskFull], []⟩, ByteArray.empty, 0⟩ {}
    let flushed : List Use := [.call (.write ⟨#[97]⟩), .call .flush]
    let blocks : List Use := [.call (.write ⟨#[97]⟩), .call .flushBlock]
    (unflushed.results flushed = [.ok (), .error (.stream diskFull)] ∧
      (unflushed.useAll flushed).sink.held.size = 12 ∧ (unflushed.useAll flushed).drop.sink.held.size = 16) ∧
    refused.results blocks = [.ok (), .error (.stream diskFull)] ∧
      (refused.useAll blocks).sink.held.size = 7 ∧ (refused.useAll blocks).drop.sink.held.size = 16 := by
  cbv

end Writer

end LempelZiv
