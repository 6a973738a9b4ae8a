import LempelZiv.Proofs.InMemory

namespace LempelZiv

namespace Writer

variable {δ : Type}

/-- What a header puts into the sink now. -/
def headerPart (w : Writer δ) : ByteArray :=
  if w.phase = .fresh then w.options.descriptor.header else ByteArray.empty

/-- What the buffer puts into the sink as a block now. -/
def blockPart (w : Writer δ) : ByteArray :=
  w.options.records (if w.buffer.isEmpty then [] else [w.buffer])

/-- What ends a frame now. -/
def endPart (w : Writer δ) : ByteArray :=
  leBytes 4 0 ++ match w.digest with
    | some x => leBytes 4 x.digest.toNat
    | none => ByteArray.empty

/-- What a use puts into the sink before the frame ends: the parts that it may break off between. -/
def parts (w : Writer δ) : Use → List ByteArray
  | .call (.write _) => [w.headerPart]
  | .call .flushBlock => [w.blockPart]
  | .call .flush => [w.blockPart]
  | .close => [w.headerPart, w.blockPart]

/-- Of what the use was to put into the sink, whole parts have arrived. -/
def Whole (w : Writer δ) (u : Use) (w' : Writer δ) : Prop :=
  ∃ k, w'.sink.held = w.sink.held ++ joined ((w.parts u).take k)

/-- What arrives of some parts is whole only if nothing has arrived of the part that broke off. -/
theorem torn_eq_empty {parts : List ByteArray} {i k : Nat} {taken : ByteArray}
    (hless : ∀ h : i < parts.length, taken.size < parts[i].size)
    (h : joined (parts.take i) ++ taken = joined (parts.take k)) : taken = ByteArray.empty := by
  induction parts generalizing i k with
  | nil =>
    rw [List.take_nil, List.take_nil, joined, ByteArray.empty_append] at h
    exact h
  | cons p parts ih =>
    cases i with
    | zero =>
      rw [List.take_zero, joined, ByteArray.empty_append] at h
      cases k with
      | zero => exact h
      | succ k =>
        have hshort : taken.size < p.size := hless (Nat.succ_pos _)
        rw [h, List.take_succ_cons, joined, ByteArray.size_append] at hshort
        omega
    | succ i =>
      rw [List.take_succ_cons, joined, ByteArray.append_assoc] at h
      cases k with
      | zero =>
        have hsize := congrArg ByteArray.size h
        rw [List.take_zero, joined, ByteArray.size_append, ByteArray.size_append, ByteArray.size_empty] at hsize
        exact ByteArray.size_eq_zero_iff.mp (by omega)
      | succ k =>
        rw [List.take_succ_cons, joined] at h
        exact ih (fun hi => hless (Nat.succ_lt_succ hi)) ((ByteArray.append_right_inj p).mp h)

theorem size_joined_take_lt {parts : List ByteArray} {i : Nat} {taken : ByteArray} (hi : i < parts.length)
    (hless : taken.size < parts[i].size) : (joined (parts.take i) ++ taken).size < (joined parts).size := by
  have hparts : joined parts = joined (parts.take i) ++ (parts[i] ++ joined (parts.drop (i + 1))) := by
    rw [← joined, ← joined_append, List.cons_getElem_drop_succ, List.take_append_drop]
  rw [hparts, ByteArray.size_append, ByteArray.size_append, ByteArray.size_append]
  omega

variable {w w' w₁ : Writer δ} {o : FrameOptions} {before : ByteArray} {g : Gathered} {e : Error}

theorem Holds.inMemory_failed (h : w.inMemory.Holds o before g) :
    ({ w with failed := true } : Writer δ).inMemory.Holds o before g :=
  ⟨memory_reliable _, h.options_eq, h.rest_eq, h.digest_eq, h.written_eq, h.held⟩

theorem Holds.open_inMemory (h : w.inMemory.Holds o before g) : w.isClosed = false := h.not_closed

/-- The parts of a frame together are what is missing of it. -/
theorem Holds.frame_parts (h : w.inMemory.Holds o before g) :
    w.sink.held ++ (joined (w.parts .close) ++ w.endPart) = before ++ o.frame g.flushed.blocks := by
  obtain rfl : w.options = o := h.options_eq
  have hrest : w.buffer = g.rest := h.rest_eq
  have hdigest : w.digest =
      if w.options.contentChecksum then some ((XXH32.start 0).update g.content) else none := h.digest_eq
  have hblocks : w.options.records g.flushed.blocks = w.options.records g.blocks ++ w.blockPart := by
    rw [Gathered.flushed_blocks, FrameOptions.records_append, blockPart, hrest]
  have hbegun : w.sink.held ++ w.headerPart =
      before ++ (w.options.descriptor.header ++ w.options.records g.blocks) := by
    rcases h.held with ⟨hfresh, hheld, hnothing⟩ | ⟨hphase, hheld⟩
    · have hheld' : w.sink.held = before := hheld
      have hphase : w.phase = .fresh := hfresh
      rw [headerPart, if_pos hphase, hheld', hnothing, Gathered.nothing, FrameOptions.records, List.map_nil,
        recordsBytes, ByteArray.append_empty]
    · have hnot : ¬w.phase = .fresh := by
        rw [show w.phase = .begun from hphase]
        decide
      rw [headerPart, if_neg hnot, ByteArray.append_empty]
      exact hheld
  have hend : w.endPart = w.options.descriptor.trailer (joined g.flushed.blocks) := by
    rw [endPart, hdigest, Gathered.joined_flushed, Descriptor.trailer]
    change _ = leBytes 4 0 ++ if w.options.contentChecksum then _ else _
    cases w.options.contentChecksum with
    | false => rfl
    | true => rfl
  have hframe : w.options.frame g.flushed.blocks = w.options.descriptor.header ++
      (w.options.records g.flushed.blocks ++ w.options.descriptor.trailer (joined g.flushed.blocks)) := rfl
  rw [hframe, hblocks, hend, parts, joined, joined, joined, ByteArray.append_empty]
  rw [← ByteArray.append_assoc, ← ByteArray.append_assoc, hbegun]
  simp only [ByteArray.append_assoc]

variable [Device δ]

theorem Emits.holds_inMemory (hemits : w.Emits w' ByteArray.empty w.buffer)
    (h : w.inMemory.Holds o before g) : w'.inMemory.Holds o before g := by
  have hheld := hemits.held
  obtain ⟨sink, notices, hframe⟩ := hemits.frame
  rw [ByteArray.append_empty] at hheld
  rw [hframe] at hheld ⊢
  have hsink : sink.held = w.sink.held := hheld
  refine ⟨memory_reliable _, h.options_eq, h.rest_eq, h.digest_eq, h.written_eq, ?_⟩
  change w.phase = .fresh ∧ sink.held = before ∧ g = .nothing ∨
    w.phase = .begun ∧ sink.held = before ++ (o.descriptor.header ++ o.records g.blocks)
  rw [hsink]
  exact h.held

theorem writeHeader_error (h : w.writeHeader = (.error e, w')) :
    ∃ taken, w.Emits w' taken w.buffer ∧ taken.size < w.headerPart.size := by
  rw [writeHeader] at h
  split at h
  next hfresh =>
    have hsends := emit_sends w w.options.descriptor.header
    rw [headerPart, if_pos hfresh]
    rcases Outcome.andThen_eq_error h with herror | ⟨_, _, hok⟩
    · exact hsends.breaks herror
    · cases hok
  next => cases h

theorem writeHeader_ok (h : w.writeHeader = (.ok (), w')) :
    w'.sink.held = w.sink.held ++ w.headerPart ∧ w'.options = w.options ∧ w'.buffer = w.buffer ∧
      w'.digest = w.digest := by
  rw [writeHeader] at h
  rw [headerPart]
  split at h
  next hfresh =>
    obtain ⟨w₁, hemit, hok⟩ := Outcome.andThen_eq_ok h
    have hemits := emit_ok hemit
    have hheld := hemits.held
    obtain ⟨sink, notices, hframe⟩ := hemits.frame
    cases hok
    rw [hframe] at hheld ⊢
    rw [if_pos hfresh]
    exact ⟨hheld, rfl, rfl, rfl⟩
  next hbegun =>
    cases h
    rw [if_neg hbegun, ByteArray.append_empty]
    exact ⟨rfl, rfl, rfl, rfl⟩

theorem flushBlock_part (h : w.inMemory.Holds o before g) (hg : g.Sized o.blockSize.bytes) :
    w.Sends w.blockPart ByteArray.empty w.flushBlock := by
  obtain rfl : w.options = o := h.options_eq
  have hrest : w.buffer = g.rest := h.rest_eq
  rcases h.held with ⟨_, _, hnothing⟩ | ⟨hbegun, _⟩
  · have hempty : w.buffer = ByteArray.empty := by
      rw [hrest, hnothing]
      rfl
    have hnone : w.buffer.isEmpty = true := by
      rw [hempty]
      rfl
    rw [flushBlock, if_pos hnone, blockPart, if_pos hnone]
    exact .all (hempty ▸ emits_nothing w)
  · have hle : w.buffer.size ≤ w.blockBytes := by
      rw [hrest]
      exact Nat.le_of_lt hg.rest_lt
    exact flushBlock_sends hbegun hle

theorem emit_digest_sends (w : Writer δ) :
    w.Sends (match w.digest with
      | some x => leBytes 4 x.digest.toNat
      | none => ByteArray.empty) w.buffer
      (match w.digest with
        | some x => emit (leBytes 4 x.digest.toNat) w
        | none => (.ok (), w)) := by
  cases w.digest with
  | none => exact .all (emits_nothing w)
  | some x => exact emit_sends w _

theorem end_sends (w : Writer δ) :
    w.Sends w.endPart w.buffer ((emit (leBytes 4 0) w).andThen fun w => match w.digest with
      | some x => emit (leBytes 4 x.digest.toNat) w
      | none => (.ok (), w)) := by
  refine (emit_sends w (leBytes 4 0)).andThen fun w₁ h₁ => ?_
  have hdigest := emit_digest_sends w₁
  have hbuffer := h₁.buffer_eq
  obtain ⟨sink, notices, hframe⟩ := h₁.frame
  rw [hbuffer] at hdigest
  have hsame : w₁.digest = w.digest := by rw [hframe]
  rw [← hsame]
  exact hdigest

/-- The end of a frame breaks off in the header, in the block, or behind it. -/
theorem finishFrame_error (h : w.finishFrame = (.error e, w')) :
    w.writeHeader = (.error e, w') ∨ ∃ w₁, w.writeHeader = (.ok (), w₁) ∧
      (w₁.flushBlock = (.error e, w') ∨ ∃ w₂ taken missing, w₁.flushBlock = (.ok (), w₂) ∧
        w₂.Emits w' taken w₂.buffer ∧ w₂.endPart = taken ++ missing) := by
  rw [finishFrame] at h
  rcases Outcome.andThen_eq_error h with hheader | ⟨w₁, hheader, h⟩
  · exact .inl hheader
  rcases Outcome.andThen_eq_error h with hblock | ⟨w₂, hblock, h⟩
  · exact .inr ⟨w₁, hheader, .inl hblock⟩
  refine .inr ⟨w₁, hheader, .inr ⟨w₂, ?_⟩⟩
  rw [← Outcome.andThen_assoc] at h
  rcases Outcome.andThen_eq_error h with hend | ⟨w₃, hend, hflush⟩
  · obtain ⟨taken, missing, hemits, hcut, _⟩ := (end_sends w₂).cut hend
    exact ⟨taken, missing, hblock, hemits, hcut⟩
  · have h₃ := (end_sends w₂).sent hend
    have h₄ := (flushSink_emits w₃).1
    rw [hflush, h₃.buffer_eq] at h₄
    have h₅ := h₃.trans h₄
    rw [ByteArray.append_empty] at h₅
    exact ⟨w₂.endPart, ByteArray.empty, hblock, h₅, ByteArray.append_empty.symm⟩

/-- What a failed use leaves: some parts, and maybe a piece of the next one. Without such a piece the writer is
as if the parts had been sent in due course. -/
structure Stops (w : Writer δ) (u : Use) (w' : Writer δ) (o : FrameOptions) (before : ByteArray)
    (g g' : Gathered) (i : Nat) (taken : ByteArray) : Prop where
  held : w'.sink.held = w.sink.held ++ (joined ((w.parts u).take i) ++ taken)
  less : ∀ h : i < (w.parts u).length, taken.size < (w.parts u)[i].size
  gathered : g' = g ∨ g' = g.flushed
  holds : taken = ByteArray.empty → w'.inMemory.Holds o before g'

theorem Emits.stops {u : Use} {g' : Gathered} {i : Nat} {taken : ByteArray} {w₂ : Writer δ}
    (hemits : w₁.Emits w₂ taken w₁.buffer) (hmarked : w' = w₂ ∨ w' = { w₂ with failed := true })
    (hheld : w₁.sink.held = w.sink.held ++ joined ((w.parts u).take i))
    (hless : ∀ h : i < (w.parts u).length, taken.size < (w.parts u)[i].size)
    (hg' : g' = g ∨ g' = g.flushed) (h : w₁.inMemory.Holds o before g') :
    w.Stops u w' o before g g' i taken := by
  have hholds : taken = ByteArray.empty → w₂.inMemory.Holds o before g' := by
    intro hnone
    rw [hnone] at hemits
    exact hemits.holds_inMemory h
  have hsent : w₂.sink.held = w.sink.held ++ (joined ((w.parts u).take i) ++ taken) := by
    rw [hemits.held, hheld, ByteArray.append_assoc]
  rcases hmarked with rfl | rfl
  · exact ⟨hsent, hless, hg', hholds⟩
  · exact ⟨hsent, hless, hg', fun hnone => (hholds hnone).inMemory_failed⟩

theorem joined_take_zero (held : ByteArray) (parts : List ByteArray) :
    held = held ++ joined (parts.take 0) := by
  rw [List.take_zero, joined, ByteArray.append_empty]

theorem writeData_stops {data : ByteArray} (h : w.inMemory.Holds o before g)
    (hfailed : w.writeData data = (.error e, w')) (hwritten : w'.written = w.written) :
    ∃ taken, w.Stops (.call (.write data)) w' o before g g 0 taken := by
  rw [writeData, h.open_inMemory, if_neg Bool.false_ne_true] at hfailed
  rcases Outcome.andThen_eq_error hfailed with hheader | ⟨w₁, hheader, hfill⟩
  · obtain ⟨w₂, hheader, hmarked⟩ := marked_eq_error hheader
    obtain ⟨taken, hemits, hless⟩ := writeHeader_error hheader
    exact ⟨taken, hemits.stops (.inr hmarked) (joined_take_zero _ _) (fun _ => hless) (.inl rfl) h⟩
  · -- Data that got so far counts, unless there is none, and then nothing fails.
    exfalso
    have hbefore := (writeHeader_grows w).written_eq
    rw [marked_eq_ok hheader] at hbefore
    have hcounted := (fill_grows (w₁.counting data) data 0).written_eq
    change (w₁.counting data).fill data 0 = _ at hfill
    rw [hfill] at hcounted
    have hsum : w'.written = w₁.written + data.size := hcounted
    have hnone : ¬0 < data.size := by
      change w₁.written = w.written at hbefore
      omega
    rw [fill_end hnone] at hfill
    cases hfill

theorem flushBlock_stops (h : w.inMemory.Holds o before g) (hg : g.Sized o.blockSize.bytes)
    (hfailed : w.flushBlock = (.error e, w')) :
    ∃ taken, w.Stops (.call .flushBlock) w' o before g g 0 taken := by
  obtain ⟨taken, hemits, hless⟩ := (flushBlock_part h hg).breaks hfailed
  exact ⟨taken, hemits.stops (.inl rfl) (joined_take_zero _ _) (fun _ => hless) (.inl rfl) h⟩

/-- A block that went out in due course went out in memory. -/
theorem flushBlock_flushed (h : w.inMemory.Holds o before g) (hg : g.Sized o.blockSize.bytes)
    (hok : w.flushBlock = (.ok (), w')) :
    w'.inMemory.Holds o before g.flushed ∧ w'.sink.held = w.sink.held ++ w.blockPart := by
  obtain ⟨m, hm, hholds, _⟩ := flushBlock_holds h hg
  have hsent := (flushBlock_part h hg).sent hok
  exact ⟨(flushBlock_mirrors w).inMemory (P := (·.Holds o before g.flushed)) hok ⟨m, hm, hholds⟩, hsent.held⟩

theorem flush_stops (h : w.inMemory.Holds o before g) (hg : g.Sized o.blockSize.bytes)
    (hfailed : w.flush = (.error e, w')) :
    ∃ g' i taken, w.Stops (.call .flush) w' o before g g' i taken := by
  rw [flush, h.open_inMemory, if_neg Bool.false_ne_true] at hfailed
  rcases Outcome.andThen_eq_error hfailed with hblock | ⟨w₁, hblock, hflush⟩
  · obtain ⟨w₂, hblock, hmarked⟩ := marked_eq_error hblock
    obtain ⟨taken, hemits, hless⟩ := (flushBlock_part h hg).breaks hblock
    exact ⟨g, 0, taken, hemits.stops (.inr hmarked) (joined_take_zero _ _) (fun _ => hless) (.inl rfl) h⟩
  · obtain ⟨hholds, hheld⟩ := flushBlock_flushed h hg (marked_eq_ok hblock)
    have hemits := (flushSink_emits w₁).1
    rw [hflush] at hemits
    refine ⟨g.flushed, 1, ByteArray.empty, hemits.stops (.inl rfl) ?_ ?_ (.inr rfl) hholds⟩
    · rw [hheld, parts, List.take_succ_cons, List.take_zero, joined, joined, ByteArray.append_empty]
    · intro hlt
      exact absurd hlt (Nat.lt_irrefl 1)

/-- A close that got to `w₂`, with all parts in the sink, and then broke off with `taken` of the frame's end there. -/
structure BreaksInEnd (w w' : Writer δ) (o : FrameOptions) (before : ByteArray) (g : Gathered) (w₂ : Writer δ)
    (taken : ByteArray) : Prop where
  holds : w₂.inMemory.Holds o before g.flushed
  phase_eq : w₂.phase = .begun
  held : w₂.sink.held = w.sink.held ++ joined (w.parts .close)
  front : ∃ missing, w₂.endPart = taken ++ missing
  emits : ∃ w₃, w₂.Emits w₃ taken w₂.buffer ∧ w' = { w₃ with failed := true }

/-- A close that breaks off has stopped inside a part, or behind all of them. -/
theorem terminate_breaks (h : w.inMemory.Holds o before g) (hg : g.Sized o.blockSize.bytes)
    (hfailed : close.terminate w = (.error e, w')) :
    (∃ i taken, i < (w.parts .close).length ∧ w.Stops .close w' o before g g i taken) ∨
      ∃ w₂ taken, w.BreaksInEnd w' o before g w₂ taken := by
  rw [close.terminate] at hfailed
  rcases Outcome.andThen_eq_error hfailed with hfinish | ⟨_, _, hok⟩
  case inr => cases hok
  obtain ⟨w₃, hfinish, hmarked⟩ := marked_eq_error hfinish
  rcases finishFrame_error hfinish with hheader | ⟨w₁, hheader, hlater⟩
  · obtain ⟨taken, hemits, hless⟩ := writeHeader_error hheader
    exact .inl ⟨0, taken, Nat.zero_lt_two,
      hemits.stops (.inr hmarked) (joined_take_zero _ _) (fun _ => hless) (.inl rfl) h⟩
  obtain ⟨m, hm, hholds, hbegun⟩ := writeHeader_holds h
  obtain ⟨h₁, hphase⟩ := (writeHeader_mirrors w).inMemory
    (P := fun m => m.Holds o before g ∧ m.phase = .begun) hheader ⟨m, hm, hholds, hbegun⟩
  obtain ⟨hheld, hoptions, hbuffer, _⟩ := writeHeader_ok hheader
  have hpart : w₁.blockPart = w.blockPart := by rw [blockPart, hoptions, hbuffer, blockPart]
  rcases hlater with hblock | ⟨w₂, taken, missing, hblock, hemits, hcut⟩
  · obtain ⟨taken, hemits, hless⟩ := (flushBlock_part h₁ hg).breaks hblock
    refine .inl ⟨1, taken, Nat.one_lt_two, hemits.stops (.inr hmarked) ?_ ?_ (.inl rfl) h₁⟩
    · rw [hheld, parts, List.take_succ_cons, List.take_zero, joined, joined, ByteArray.append_empty]
    · intro _
      rw [hpart] at hless
      exact hless
  · obtain ⟨h₂, hheld₂⟩ := flushBlock_flushed h₁ hg hblock
    have hphase₂ := ((flushBlock_part h₁ hg).sent hblock).phase_eq.trans hphase
    refine .inr ⟨w₂, taken, h₂, hphase₂, ?_, ⟨missing, hcut⟩, w₃, hemits, hmarked⟩
    rw [hheld₂, hheld, hpart, ByteArray.append_assoc, parts, joined, joined, joined, ByteArray.append_empty]

theorem terminate_stops (h : w.inMemory.Holds o before g) (hg : g.Sized o.blockSize.bytes)
    (hfailed : close.terminate w = (.error e, w')) :
    ∃ g' i taken, w.Stops .close w' o before g g' i taken := by
  rcases terminate_breaks h hg hfailed with ⟨i, taken, _, hstops⟩ | ⟨w₂, taken, hbreaks⟩
  · exact ⟨g, i, taken, hstops⟩
  · obtain ⟨w₃, hemits, hmarked⟩ := hbreaks.emits
    refine ⟨g.flushed, 2, taken, hemits.stops (.inr hmarked) ?_ ?_ (.inr rfl) hbreaks.holds⟩
    · exact hbreaks.held
    · intro hlt
      exact absurd hlt (Nat.lt_irrefl 2)

/-- A close that does not fail for the declared size fails on the way to the end of the frame. -/
theorem close_error (hopen : w.isClosed = false) (hfailed : w.close = (.error e, w'))
    (hsize : ∀ declared written, e ≠ .contentSize declared written) :
    close.terminate w = (.error e, w') ∧ ∀ n, w.options.contentSize = some n → n = w.written := by
  rw [close, hopen, if_neg Bool.false_ne_true] at hfailed
  split at hfailed
  next declared hsome =>
    split at hfailed
    next hsame =>
      refine ⟨hfailed, ?_⟩
      intro n hn
      cases hsome.symm.trans hn
      exact hsame
    next =>
      cases hfailed
      exact absurd rfl (hsize declared w.written)
  next hnone =>
    refine ⟨hfailed, ?_⟩
    intro n hn
    cases hnone.symm.trans hn

theorem use_stops {u : Use} (h : w.inMemory.Holds o before g) (hg : g.Sized o.blockSize.bytes)
    (hfailed : w.use u = (.error e, w')) (hwritten : w'.written = w.written)
    (hsize : ∀ declared written, e ≠ .contentSize declared written) :
    ∃ g' i taken, w.Stops u w' o before g g' i taken := by
  cases u with
  | call c =>
    cases c with
    | write data =>
      obtain ⟨taken, hstops⟩ := writeData_stops h hfailed hwritten
      exact ⟨g, 0, taken, hstops⟩
    | flushBlock =>
      obtain ⟨taken, hstops⟩ := flushBlock_stops h hg hfailed
      exact ⟨g, 0, taken, hstops⟩
    | flush => exact flush_stops h hg hfailed
  | close => exact terminate_stops h hg (close_error h.open_inMemory hfailed hsize).1

/-- After a failure that leaves whole parts the writer goes on as if the parts had been sent in due course. -/
theorem use_whole {u : Use} (h : w.inMemory.Holds o before g) (hg : g.Sized o.blockSize.bytes)
    (hfailed : w.use u = (.error e, w')) (hwhole : w.Whole u w') (hwritten : w'.written = w.written)
    (hsize : ∀ declared written, e ≠ .contentSize declared written) :
    ∃ g', w'.inMemory.Holds o before g' ∧ g'.Sized o.blockSize.bytes ∧ g'.content = g.content := by
  obtain ⟨g', i, taken, hheld, hless, hg', hholds⟩ := use_stops h hg hfailed hwritten hsize
  obtain ⟨k, hk⟩ := hwhole
  rw [hheld] at hk
  have hnone := torn_eq_empty hless ((ByteArray.append_right_inj _).mp hk)
  refine ⟨g', hholds hnone, ?_⟩
  rcases hg' with rfl | rfl
  · exact ⟨hg, rfl⟩
  · exact ⟨Gathered.flushed_sized hg, Gathered.flushed_content⟩

end Writer

end LempelZiv
