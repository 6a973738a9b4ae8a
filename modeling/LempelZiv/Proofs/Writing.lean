import LempelZiv.Proofs.Digest
import LempelZiv.Proofs.Gathering
import LempelZiv.Proofs.Streams

namespace LempelZiv

def FrameOptions.records (o : FrameOptions) (blocks : List ByteArray) : ByteArray :=
  recordsBytes o.blockChecksum (blocks.map o.record)

def FrameOptions.frame (o : FrameOptions) (blocks : List ByteArray) : ByteArray :=
  o.descriptor.frame (blocks.map o.record) (joined blocks)

theorem FrameOptions.records_append (o : FrameOptions) (as bs : List ByteArray) :
    o.records (as ++ bs) = o.records as ++ o.records bs := by
  rw [records, List.map_append, recordsBytes_append, records, records]

theorem FrameOptions.records_cons (o : FrameOptions) (a : ByteArray) (as : List ByteArray) :
    o.records (a :: as) = (o.record a).bytes o.blockChecksum ++ o.records as := rfl

theorem Outcome.andThen_ok {σ : Type} (s : σ) (f : σ → Outcome σ) :
    Outcome.andThen (.ok (), s) f = f s := rfl

namespace Writer

variable {δ : Type} [Device δ]

def perform (w : Writer δ) : Call → Outcome (Writer δ)
  | .write data => w.writeData data
  | .flushBlock => w.flushBlock
  | .flush => w.flush

/-- The calls in turn, up to the first that fails. -/
def performAll (w : Writer δ) : List Call → Outcome (Writer δ)
  | [] => (.ok (), w)
  | c :: calls => (w.perform c).andThen fun w => performAll w calls

/-- Some bytes went out and `rest` waits. Nothing else of the writer changed but what there was to say. -/
structure Emits (w w' : Writer δ) (bytes rest : ByteArray) : Prop where
  frame : ∃ sink notices, w' = { w with sink, notices, buffer := rest }
  held : w'.sink.held = w.sink.held ++ bytes
  reliable : Device.Reliable w.sink.device → Device.Reliable w'.sink.device

/-- What comes of sending `bytes` while `rest` waits: they go out, or those in front of some do with an error. A
reliable device takes them all. -/
inductive Sends (w : Writer δ) (bytes rest : ByteArray) : Outcome (Writer δ) → Prop
  | all {w' : Writer δ} (emits : w.Emits w' bytes rest) : Sends w bytes rest (.ok (), w')
  | part {e : Error} {w' : Writer δ} {taken missing : ByteArray} (emits : w.Emits w' taken w.buffer)
      (cut : bytes = taken ++ missing) (less : 0 < missing.size) (unreliable : ¬Device.Reliable w.sink.device) :
      Sends w bytes rest (.error e, w')

variable {w w₁ w₂ : Writer δ}

theorem Emits.trans {a b r r' : ByteArray} (h₁ : w.Emits w₁ a r) (h₂ : w₁.Emits w₂ b r') :
    w.Emits w₂ (a ++ b) r' := by
  obtain ⟨sink₁, notices₁, he₁⟩ := h₁.frame
  obtain ⟨sink₂, notices₂, he₂⟩ := h₂.frame
  refine ⟨⟨sink₂, notices₂, by rw [he₂, he₁]⟩, ?_, fun hw => h₂.reliable (h₁.reliable hw)⟩
  rw [h₂.held, h₁.held, ByteArray.append_assoc]

theorem Emits.options_eq {bytes rest : ByteArray} (h : w.Emits w₁ bytes rest) : w₁.options = w.options := by
  obtain ⟨sink, notices, he⟩ := h.frame
  rw [he]

theorem Emits.buffer_eq {bytes rest : ByteArray} (h : w.Emits w₁ bytes rest) : w₁.buffer = rest := by
  obtain ⟨sink, notices, he⟩ := h.frame
  rw [he]

theorem Emits.phase_eq {bytes rest : ByteArray} (h : w.Emits w₁ bytes rest) : w₁.phase = w.phase := by
  obtain ⟨sink, notices, he⟩ := h.frame
  rw [he]

theorem emits_nothing (w : Writer δ) : w.Emits w ByteArray.empty w.buffer :=
  ⟨⟨w.sink, w.notices, rfl⟩, ByteArray.append_empty.symm, id⟩

theorem emits_note (w : Writer δ) (n : Notice) : w.Emits (w.note n) ByteArray.empty w.buffer :=
  ⟨⟨w.sink, n :: w.notices, rfl⟩, ByteArray.append_empty.symm, id⟩

theorem Emits.cleared {bytes rest : ByteArray} (h : w.Emits w₁ bytes rest) (hbegun : w.phase = .begun) :
    w.Emits w₁.cleared bytes ByteArray.empty := by
  obtain ⟨sink, notices, he⟩ := h.frame
  refine ⟨⟨sink, notices, ?_⟩, h.held, h.reliable⟩
  rw [he, Writer.cleared, hbegun]

theorem Sends.andThen {a b rest : ByteArray} {r : Outcome (Writer δ)} {f : Writer δ → Outcome (Writer δ)}
    (hr : w.Sends a w.buffer r) (hf : ∀ w₁, w.Emits w₁ a w.buffer → w₁.Sends b rest (f w₁)) :
    w.Sends (a ++ b) rest (r.andThen f) := by
  cases hr with
  | part emits cut less unreliable =>
    refine .part emits (by rw [cut, ByteArray.append_assoc]) ?_ unreliable
    rw [ByteArray.size_append]
    omega
  | @all w₁ emits =>
    rw [Outcome.andThen_ok]
    have hlater := hf w₁ emits
    generalize f w₁ = r at hlater
    cases hlater with
    | all emits₂ => exact .all (emits.trans emits₂)
    | part emits₂ cut less unreliable =>
      rw [emits.buffer_eq] at emits₂
      exact .part (emits.trans emits₂) (by rw [cut, ByteArray.append_assoc]) less
        fun hw => unreliable (emits.reliable hw)

theorem Sends.of_emits {bytes rest : ByteArray} {r : Outcome (Writer δ)}
    (h₁ : w.Emits w₁ ByteArray.empty w.buffer) (h : w₁.Sends bytes rest r) : w.Sends bytes rest r := by
  cases h with
  | all emits =>
    have hall := h₁.trans emits
    rw [ByteArray.empty_append] at hall
    exact .all hall
  | part emits cut less unreliable =>
    have hpart := h₁.trans emits
    rw [ByteArray.empty_append, h₁.buffer_eq] at hpart
    exact .part hpart cut less fun hw => unreliable (h₁.reliable hw)

theorem Sends.of_reliable {bytes rest : ByteArray} {r : Outcome (Writer δ)} (h : w.Sends bytes rest r)
    (hw : Device.Reliable w.sink.device) : ∃ w', r = (.ok (), w') ∧ w.Emits w' bytes rest := by
  cases h with
  | all emits => exact ⟨_, rfl, emits⟩
  | part _ _ _ unreliable => exact absurd hw unreliable

theorem Sends.sent {bytes rest : ByteArray} {r : Outcome (Writer δ)} {w' : Writer δ}
    (h : w.Sends bytes rest r) (hok : r = (.ok (), w')) : w.Emits w' bytes rest := by
  subst hok
  cases h with
  | all emits => exact emits

/-- What has gone out when sending fails is the front of what was sent. -/
theorem Sends.cut {bytes rest : ByteArray} {r : Outcome (Writer δ)} {w' : Writer δ} {e : Error}
    (h : w.Sends bytes rest r) (herror : r = (.error e, w')) :
    ∃ taken missing, w.Emits w' taken w.buffer ∧ bytes = taken ++ missing ∧ 0 < missing.size := by
  subst herror
  cases h with
  | part emits cut less => exact ⟨_, _, emits, cut, less⟩

theorem Sends.breaks {bytes rest : ByteArray} {r : Outcome (Writer δ)} {w' : Writer δ} {e : Error}
    (h : w.Sends bytes rest r) (herror : r = (.error e, w')) :
    ∃ taken, w.Emits w' taken w.buffer ∧ taken.size < bytes.size := by
  obtain ⟨taken, missing, hemits, rfl, hless⟩ := h.cut herror
  refine ⟨taken, hemits, ?_⟩
  rw [ByteArray.size_append]
  omega

theorem emit_sends (w : Writer δ) (bytes : ByteArray) : w.Sends bytes w.buffer (emit bytes w) := by
  obtain ⟨sink, options, phase, buffer, digest, written, failed, notices⟩ := w
  rw [emit]
  rcases sink.writeAll_takes bytes with
    ⟨s, hok, hheld, _, hs⟩ | ⟨e, s, taken, missing, herror, hheld, hcut, hless, hs⟩
  · simp only [hok]
    exact .all ⟨⟨s, notices, rfl⟩, hheld, hs⟩
  · simp only [herror]
    exact .part ⟨⟨s, notices, rfl⟩, hheld, fun hw => absurd hw hs⟩ hcut hless hs

theorem emit_reliable (bytes : ByteArray) (hw : Device.Reliable w.sink.device) :
    ∃ w', emit bytes w = (.ok (), w') ∧ w.Emits w' bytes w.buffer := (emit_sends w bytes).of_reliable hw

theorem flushSink_emits (w : Writer δ) :
    w.Emits w.flushSink.2 ByteArray.empty w.buffer ∧
      (Device.Reliable w.sink.device → w.flushSink.1 = .ok ()) := by
  obtain ⟨d, hsink, hreliable⟩ := w.sink.flush_answers
  rw [flushSink]
  rcases hflush : w.sink.flush with ⟨e | u, s⟩
  · rw [hflush] at hsink hreliable
    cases hsink
    have hbroken : ¬Device.Reliable w.sink.device := by
      intro hw
      cases (hreliable hw).1
    exact ⟨⟨⟨_, w.notices, rfl⟩, ByteArray.append_empty.symm, fun hw => absurd hw hbroken⟩,
      fun hw => absurd hw hbroken⟩
  · rw [hflush] at hsink hreliable
    cases hsink
    exact ⟨⟨⟨_, w.notices, rfl⟩, ByteArray.append_empty.symm, fun hw => (hreliable hw).2⟩, fun _ => rfl⟩

theorem flushSink_reliable (hw : Device.Reliable w.sink.device) :
    ∃ w', w.flushSink = (.ok (), w') ∧ w.Emits w' ByteArray.empty w.buffer :=
  ⟨_, Prod.ext ((flushSink_emits w).2 hw) rfl, (flushSink_emits w).1⟩

theorem emit_checksum_sends (w : Writer δ) (payload : ByteArray) :
    w.Sends (if w.options.blockChecksum then leBytes 4 (xxh32 0 payload).toNat else ByteArray.empty) w.buffer
      (if w.options.blockChecksum then emit (leBytes 4 (xxh32 0 payload).toNat) w else (.ok (), w)) := by
  cases w.options.blockChecksum with
  | false => exact .all (emits_nothing w)
  | true => exact emit_sends w _

theorem emitBlock_sends (hpos : 0 < w.buffer.size) (hle : w.buffer.size ≤ w.blockBytes) :
    w.Sends ((w.options.record w.buffer).bytes w.options.blockChecksum) w.buffer w.emitBlock := by
  obtain ⟨hparts, _, _⟩ := w.options.record_adds hpos hle
  rw [emitBlock, hparts]
  generalize w.options.record w.buffer = b
  have hnote := emits_note w (.block w.buffer.size b.payload.size (storedFlag ≤ b.word))
  refine .of_emits hnote ((emit_sends _ (leBytes 4 b.word)).andThen ?_)
  intro w₁ h₁
  have hbuffer : w₁.buffer = w.buffer := h₁.buffer_eq
  rw [← hbuffer]
  refine (emit_sends w₁ b.payload).andThen ?_
  intro w₂ h₂
  have hoptions := h₂.options_eq.trans h₁.options_eq
  have hchecksum := emit_checksum_sends w₂ b.payload
  rw [hoptions, h₂.buffer_eq] at hchecksum
  rw [hoptions]
  exact hchecksum

theorem emitBlock_reliable (hw : Device.Reliable w.sink.device) (hpos : 0 < w.buffer.size)
    (hle : w.buffer.size ≤ w.blockBytes) :
    ∃ w', w.emitBlock = (.ok (), w') ∧
      w.Emits w' ((w.options.record w.buffer).bytes w.options.blockChecksum) w.buffer :=
  (emitBlock_sends hpos hle).of_reliable hw

theorem flushBlock_sends (hbegun : w.phase = .begun) (hle : w.buffer.size ≤ w.blockBytes) :
    w.Sends (w.options.records (if w.buffer.isEmpty then [] else [w.buffer])) ByteArray.empty
      w.flushBlock := by
  rw [flushBlock]
  split
  next hempty =>
    have hnone := ByteArray.size_eq_zero_iff.mp (isEmpty_iff.mp hempty)
    exact .all (hnone ▸ emits_nothing w)
  next hfull =>
    rw [isEmpty_iff] at hfull
    have h := emitBlock_sends (Nat.pos_of_ne_zero hfull) hle
    rw [FrameOptions.records_cons, FrameOptions.records, List.map_nil, recordsBytes,
      ByteArray.append_empty]
    generalize w.emitBlock = r at h
    cases h with
    | all emits => exact .all (emits.cleared hbegun)
    | part emits cut less unreliable => exact .part emits cut less unreliable

theorem flushBlock_reliable (hw : Device.Reliable w.sink.device) (hbegun : w.phase = .begun)
    (hle : w.buffer.size ≤ w.blockBytes) :
    ∃ w', w.flushBlock = (.ok (), w') ∧
      w.Emits w' (w.options.records (if w.buffer.isEmpty then [] else [w.buffer])) ByteArray.empty :=
  (flushBlock_sends hbegun hle).of_reliable hw

def holding (w : Writer δ) (rest : ByteArray) : Writer δ := { w with buffer := rest }

theorem Emits.of_holding {waiting bytes rest : ByteArray} (h : (w.holding waiting).Emits w₁ bytes rest) :
    w.Emits w₁ bytes rest := ⟨h.frame, h.held, h.reliable⟩

theorem andThen_eq {δ : Type} (r : Outcome (Writer δ)) (f : Writer δ → Outcome (Writer δ)) :
    (match r with
      | (.error e, w) => (.error e, w)
      | (.ok (), w) => f w) = r.andThen f := by
  obtain ⟨e | u, w⟩ := r
  · rfl
  · rfl

theorem fill_end {data : ByteArray} {i : Nat} (h : ¬i < data.size) : w.fill data i = (.ok (), w) := by
  rw [fill, dif_neg h]

theorem fill_step {data : ByteArray} {i : Nat} (hbegun : w.phase = .begun) (h : i < data.size) :
    ∃ next, i ≤ next ∧ next ≤ data.size ∧ (w.buffer.size < w.blockBytes → i < next) ∧
      (w.buffer.size ≤ w.blockBytes → (w.buffer ++ data.extract i next).size ≤ w.blockBytes) ∧
      w.fill data i =
        if (w.buffer ++ data.extract i next).size < w.blockBytes then
          fill (w.holding (w.buffer ++ data.extract i next)) data next
        else
          (marked (emitBlock (w.holding (w.buffer ++ data.extract i next)))).andThen fun w =>
            fill w.cleared data next := by
  obtain ⟨sink, options, phase, buffer, digest, written, failed, notices⟩ := w
  cases hbegun
  rw [fill, dif_pos h]
  refine ⟨i + min (options.blockSize.bytes - buffer.size) (data.size - i), by omega, by omega, ?_, ?_, ?_⟩
  · intro (hlt : buffer.size < options.blockSize.bytes)
    omega
  · intro (hle : buffer.size ≤ options.blockSize.bytes)
    change (buffer ++ data.extract i _).size ≤ options.blockSize.bytes
    rw [ByteArray.size_append, ByteArray.size_extract]
    omega
  · exact if_congr Iff.rfl rfl (andThen_eq _ _)

theorem marked_ok {δ : Type} (w : Writer δ) : marked (.ok (), w) = (.ok (), w) := rfl

/-- Data goes out in full blocks, and what is left of it waits. -/
theorem fill_reliable {data : ByteArray} {i : Nat} (hw : Device.Reliable w.sink.device)
    (hbegun : w.phase = .begun)
    (hlt : w.buffer.size < w.blockBytes) (hi : i ≤ data.size) :
    ∃ w', w.fill data i = (.ok (), w') ∧
      w.Emits w' (w.options.records (cutBlocks w.blockBytes (w.buffer ++ dropBytes data i)).1)
        (cutBlocks w.blockBytes (w.buffer ++ dropBytes data i)).2 := by
  induction hn : data.size - i using Nat.strongRecOn generalizing w i with
  | ind n ih =>
    by_cases hlast : i < data.size
    case neg =>
      rw [fill_end hlast, dropBytes_of_le (Nat.le_of_not_lt hlast), ByteArray.append_empty,
        cutBlocks_of_lt hlt]
      exact ⟨w, rfl, emits_nothing w⟩
    obtain ⟨next, hge, hle, hmore, hfits, hstep⟩ := fill_step hbegun hlast
    have hcut : w.buffer ++ dropBytes data i = w.buffer ++ data.extract i next ++ dropBytes data next := by
      rw [ByteArray.append_assoc, extract_append_dropBytes hge hle]
    have hnext := hmore hlt
    have hsize := hfits (Nat.le_of_lt hlt)
    rw [hstep, hcut]
    -- Either the data ends in the buffer, or it fills a block, the first of those that are cut.
    by_cases hroom : (w.buffer ++ data.extract i next).size < w.blockBytes
    · rw [if_pos hroom]
      obtain ⟨w', hok, h⟩ :=
        @ih (data.size - next) (by omega) (w.holding (w.buffer ++ data.extract i next)) next hw
        hbegun hroom hle rfl
      exact ⟨w', hok, h.of_holding⟩
    · have hpos : 0 < w.blockBytes := w.options.blockSize.bytes_pos
      have hfull : (w.buffer ++ data.extract i next).size = w.blockBytes :=
        Nat.le_antisymm hsize (Nat.le_of_not_lt hroom)
      obtain ⟨w₁, hok₁, h₁⟩ := @emitBlock_reliable δ _ (w.holding (w.buffer ++ data.extract i next)) hw
        (Nat.lt_of_lt_of_eq hpos hfull.symm) hsize
      have hcleared := (h₁.cleared hbegun).of_holding
      have hbytes : w₁.cleared.blockBytes = w.blockBytes :=
        congrArg (fun o => o.blockSize.bytes) hcleared.options_eq
      obtain ⟨w', hok, h⟩ := @ih (data.size - next) (by omega) w₁.cleared next (hcleared.reliable hw) rfl
        (by rwa [hbytes]) hle rfl
      rw [hbytes, hcleared.options_eq, hcleared.buffer_eq, ByteArray.empty_append] at h
      rw [if_neg hroom, hok₁, marked_ok, Outcome.andThen_ok, cutBlocks_append _ hpos hfull,
        FrameOptions.records_cons]
      exact ⟨w', hok, hcleared.trans h⟩

/-- The writer stands where the calls that gathered `g` have left it: behind `before` the sink has nothing
yet, or the header and the records of the blocks. -/
structure Holds (w : Writer δ) (o : FrameOptions) (before : ByteArray) (g : Gathered) : Prop where
  reliable : Device.Reliable w.sink.device
  options_eq : w.options = o
  rest_eq : w.buffer = g.rest
  digest_eq : w.digest = if o.contentChecksum then some ((XXH32.start 0).update g.content) else none
  written_eq : w.written = g.content.size
  held : w.phase = .fresh ∧ w.sink.held = before ∧ g = .nothing ∨
    w.phase = .begun ∧ w.sink.held = before ++ (o.descriptor.header ++ o.records g.blocks)

variable {o : FrameOptions} {before : ByteArray} {g : Gathered}

theorem new_holds {sink : Sink δ} (h : Device.Reliable sink.device) (o : FrameOptions) :
    (new sink o).Holds o sink.held .nothing := by
  refine ⟨h, rfl, rfl, ?_, rfl, .inl ⟨rfl, rfl, rfl⟩⟩
  have hempty : Gathered.nothing.content = ByteArray.empty := ByteArray.append_empty
  rw [hempty, XXH32.update_empty]
  rfl

theorem Holds.not_closed (h : w.Holds o before g) : w.isClosed = false := by
  rw [isClosed]
  rcases h.held with ⟨hfresh, _⟩ | ⟨hbegun, _⟩
  · rw [hfresh]
    rfl
  · rw [hbegun]
    rfl

theorem writeHeader_holds (h : w.Holds o before g) :
    ∃ w', w.writeHeader = (.ok (), w') ∧ w'.Holds o before g ∧ w'.phase = .begun := by
  rw [writeHeader]
  rcases h.held with ⟨hfresh, hheld, hg⟩ | ⟨hbegun, hheld⟩
  · obtain ⟨w₁, hok, h₁⟩ := emit_reliable w.options.descriptor.header h.reliable
    obtain ⟨sink, notices, hframe⟩ := h₁.frame
    have hsink := h₁.held
    have hdevice := h₁.reliable h.reliable
    rw [if_pos hfresh]
    simp only [hok, Outcome.andThen_ok]
    rw [hframe] at hsink hdevice ⊢
    refine ⟨_, rfl, ⟨hdevice, h.options_eq, h.rest_eq, h.digest_eq, h.written_eq, .inr ⟨rfl, ?_⟩⟩, rfl⟩
    rw [hheld, h.options_eq] at hsink
    rw [hg, Gathered.nothing, FrameOptions.records, List.map_nil, recordsBytes, ByteArray.append_empty]
    exact hsink
  · rw [if_neg (by rw [hbegun]; decide)]
    exact ⟨w, rfl, h, hbegun⟩

theorem Emits.holds {blocks more : List ByteArray} (h : w.Emits w₁ (w.options.records more) g.rest)
    (hbegun : w.phase = .begun) (hblocks : g.blocks = blocks ++ more)
    (hheld : w.sink.held = before ++ (w.options.descriptor.header ++ w.options.records blocks))
    (hdigest : w.digest =
      if w.options.contentChecksum then some ((XXH32.start 0).update g.content) else none)
    (hwritten : w.written = g.content.size) (hw : Device.Reliable w.sink.device) :
    w₁.Holds w.options before g := by
  have hsink := h.held
  have hdevice := h.reliable hw
  obtain ⟨sink, notices, hframe⟩ := h.frame
  rw [hframe] at hsink hdevice ⊢
  refine ⟨hdevice, rfl, rfl, hdigest, hwritten, .inr ⟨hbegun, ?_⟩⟩
  rw [hsink, hheld, hblocks, FrameOptions.records_append]
  simp only [ByteArray.append_assoc]

theorem flushBlock_holds (h : w.Holds o before g) (hg : g.Sized o.blockSize.bytes) :
    ∃ w', w.flushBlock = (.ok (), w') ∧ w'.Holds o before g.flushed ∧ w'.phase = w.phase := by
  obtain rfl := h.options_eq
  rcases h.held with ⟨_, _, hnothing⟩ | ⟨hbegun, hheld⟩
  · have hempty : w.buffer.isEmpty = true := by
      rw [h.rest_eq, hnothing]
      rfl
    have hflushed : g.flushed = g := by
      rw [hnothing]
      rfl
    rw [flushBlock, if_pos hempty, hflushed]
    exact ⟨w, rfl, h, rfl⟩
  · have hle : w.buffer.size ≤ w.blockBytes := by
      rw [h.rest_eq]
      exact Nat.le_of_lt hg.rest_lt
    obtain ⟨w', hok, hemits⟩ := flushBlock_reliable h.reliable hbegun hle
    refine ⟨w', hok, ?_, hemits.phase_eq⟩
    rw [h.rest_eq, ← Gathered.flushed_rest] at hemits
    refine hemits.holds hbegun Gathered.flushed_blocks hheld ?_ ?_ h.reliable
    · rw [Gathered.flushed_content, h.digest_eq]
    · rw [Gathered.flushed_content, h.written_eq]

def counting (w : Writer δ) (data : ByteArray) : Writer δ :=
  { w with digest := w.digest.map (·.update data), written := w.written + data.size }

theorem writeData_holds (data : ByteArray) (h : w.Holds o before g) (hg : g.Sized o.blockSize.bytes) :
    ∃ w', w.writeData data = (.ok (), w') ∧ w'.Holds o before (g.step o.blockSize.bytes (.write data)) := by
  obtain ⟨w₁, hok₁, h₁, hbegun⟩ := writeHeader_holds h
  obtain rfl := h₁.options_eq
  rcases h₁.held with ⟨hfresh, _⟩ | ⟨_, hheld⟩
  · rw [hfresh] at hbegun
    cases hbegun
  have hcontent : (g.step w₁.blockBytes (.write data)).content = g.content ++ data :=
    Gathered.step_content w₁.options.blockSize.bytes_pos (.write data)
  have hrest : (w₁.counting data).buffer = g.rest := h₁.rest_eq
  obtain ⟨w₂, hok₂, hemits⟩ := @fill_reliable δ _ (w₁.counting data) data 0 h₁.reliable hbegun
    (by rw [hrest]; exact hg.rest_lt) (Nat.zero_le _)
  rw [dropBytes_zero, hrest] at hemits
  rw [writeData, h.not_closed, if_neg Bool.false_ne_true, hok₁, marked_ok, Outcome.andThen_ok]
  refine ⟨w₂, hok₂, @Emits.holds δ _ (w₁.counting data) w₂ before
    (g.step w₁.blockBytes (.write data)) g.blocks _ hemits
    hbegun rfl hheld ?_ ?_ h₁.reliable⟩
  · change w₁.digest.map (·.update data) = if w₁.options.contentChecksum then _ else none
    rw [hcontent, h₁.digest_eq]
    cases w₁.options.contentChecksum with
    | false => rfl
    | true =>
      rw [XXH32.update_append]
      rfl
  · change w₁.written + data.size = _
    rw [hcontent, h₁.written_eq, ByteArray.size_append]

theorem Emits.holds_still (hemits : w.Emits w₁ ByteArray.empty w.buffer) (h : w.Holds o before g) :
    w₁.Holds o before g := by
  have hsink := hemits.held
  have hdevice := hemits.reliable h.reliable
  obtain ⟨sink, notices, hframe⟩ := hemits.frame
  rw [ByteArray.append_empty] at hsink
  rw [hframe] at hsink hdevice ⊢
  refine ⟨hdevice, h.options_eq, h.rest_eq, h.digest_eq, h.written_eq, ?_⟩
  rw [hsink]
  exact h.held

theorem perform_holds (c : Call) (h : w.Holds o before g) (hg : g.Sized o.blockSize.bytes) :
    ∃ w', w.perform c = (.ok (), w') ∧ w'.Holds o before (g.step o.blockSize.bytes c) := by
  cases c with
  | write data => exact writeData_holds data h hg
  | flushBlock =>
    obtain ⟨w', hok, hw', _⟩ := flushBlock_holds h hg
    exact ⟨w', hok, hw'⟩
  | flush =>
    obtain ⟨w₁, hok₁, h₁, _⟩ := flushBlock_holds h hg
    obtain ⟨w₂, hok₂, hemits⟩ := flushSink_reliable h₁.reliable
    refine ⟨w₂, ?_, ?_⟩
    · rw [perform, flush, h.not_closed, if_neg Bool.false_ne_true, hok₁, marked_ok,
        Outcome.andThen_ok, hok₂]
    · exact hemits.holds_still h₁

/-- Whatever the calls, the sink gets the records of the blocks that they gather. -/
theorem performAll_holds (calls : List Call) (h : w.Holds o before g) (hg : g.Sized o.blockSize.bytes) :
    ∃ w', w.performAll calls = (.ok (), w') ∧ w'.Holds o before
      (calls.foldl (Gathered.step o.blockSize.bytes) g) := by
  induction calls generalizing w g with
  | nil => exact ⟨w, rfl, h⟩
  | cons c calls ih =>
    obtain ⟨w₁, hok, h₁⟩ := perform_holds c h hg
    rw [performAll, hok, Outcome.andThen_ok]
    exact ih h₁ (Gathered.step_sized hg c)

theorem finishFrame_holds (h : w.Holds o before g) (hg : g.Sized o.blockSize.bytes) :
    ∃ w', w.finishFrame = (.ok (), w') ∧ w'.sink.held = before ++ o.frame g.flushed.blocks := by
  obtain ⟨w₁, hok₁, h₁, hbegun₁⟩ := writeHeader_holds h
  obtain ⟨w₂, hok₂, h₂, hbegun₂⟩ := flushBlock_holds h₁ hg
  obtain ⟨w₃, hok₃, h₃⟩ := emit_reliable (leBytes 4 0) h₂.reliable
  rcases h₂.held with ⟨hfresh, _⟩ | ⟨_, hheld⟩
  · rw [hfresh, hbegun₁] at hbegun₂
    cases hbegun₂
  have hdigest : w₃.digest =
      if o.contentChecksum then some ((XXH32.start 0).update (joined g.flushed.blocks)) else none := by
    obtain ⟨sink, notices, hframe⟩ := h₃.frame
    rw [hframe, Gathered.joined_flushed, ← Gathered.flushed_content]
    exact h₂.digest_eq
  rw [finishFrame, hok₁, Outcome.andThen_ok, hok₂, Outcome.andThen_ok, hok₃, Outcome.andThen_ok, hdigest]
  have hframe : o.frame g.flushed.blocks =
      o.descriptor.header ++ (o.records g.flushed.blocks ++ (leBytes 4 0 ++
        if o.contentChecksum then leBytes 4 (xxh32 0 (joined g.flushed.blocks)).toNat
        else ByteArray.empty)) := rfl
  rw [hframe]
  cases o.contentChecksum with
  | false =>
    obtain ⟨w₄, hok₄, h₄⟩ := flushSink_reliable (h₃.reliable h₂.reliable)
    refine ⟨w₄, hok₄, ?_⟩
    rw [h₄.held, h₃.held, hheld]
    simp only [ByteArray.append_assoc, ByteArray.append_empty, Bool.false_eq_true, if_false]
  | true =>
    have hw₃ := h₃.reliable h₂.reliable
    obtain ⟨w₄, hok₄, h₄⟩ := emit_reliable (leBytes 4 (xxh32 0 (joined g.flushed.blocks)).toNat) hw₃
    obtain ⟨w₅, hok₅, h₅⟩ := flushSink_reliable (h₄.reliable hw₃)
    refine ⟨w₅, ?_, ?_⟩
    · change (emit (leBytes 4 (xxh32 0 (joined g.flushed.blocks)).toNat) w₃).andThen flushSink = _
      rw [hok₄, Outcome.andThen_ok, hok₅]
    · rw [h₅.held, h₄.held, h₃.held, hheld]
      simp only [ByteArray.append_assoc, ByteArray.append_empty, if_true]

/-- Closing leaves a whole frame in the sink, unless the content has another size than declared. -/
theorem close_holds (h : w.Holds o before g) (hg : g.Sized o.blockSize.bytes)
    (hsize : ∀ n, o.contentSize = some n → n = g.content.size) :
    ∃ w', w.close = (.ok (), w') ∧ w'.sink.held = before ++ o.frame g.flushed.blocks := by
  obtain ⟨w₁, hok, hheld⟩ := finishFrame_holds h hg
  have hterminate : close.terminate w =
      (.ok (), { w₁.note (.frameClosed w₁.written) with phase := .closed }) := by
    rw [close.terminate, hok, marked_ok, Outcome.andThen_ok]
  refine ⟨{ w₁.note (.frameClosed w₁.written) with phase := .closed }, ?_, hheld⟩
  rw [close, h.not_closed, if_neg Bool.false_ne_true, h.options_eq]
  cases hdeclared : o.contentSize with
  | none => exact hterminate
  | some n =>
    have hn : n = w.written := (hsize n hdeclared).trans h.written_eq.symm
    exact (if_pos hn).trans hterminate

end Writer

end LempelZiv
