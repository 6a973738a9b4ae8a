import LempelZiv.Proofs.FrameLanguage
import LempelZiv.Proofs.FrameRoundTrip
import LempelZiv.Proofs.TornEnds

namespace LempelZiv

namespace Writer

variable {δ : Type}

/-- Behind `before` the sink holds a frame of the content, and maybe more. -/
def Leaves (w : Writer δ) (before content : ByteArray) : Prop :=
  ∃ frame, w.sink.held = before ++ frame ∧ ∀ tail, decompressFrame (frame ++ tail) = .ok content

variable {w w' w₁ : Writer δ} {o : FrameOptions} {before : ByteArray} {g : Gathered} {e : Error}

/-- A frame with the declared size decompresses, whatever stands behind it. -/
theorem frame_leaves {more : ByteArray} (hg : g.Sized o.blockSize.bytes)
    (hlt : ∀ n, o.contentSize = some n → n < 2 ^ 64) (hsize : ∀ n, o.contentSize = some n → n = g.content.size)
    (hheld : w.sink.held = before ++ (o.frame g.flushed.blocks ++ more)) : w.Leaves before g.content := by
  refine ⟨o.frame g.flushed.blocks ++ more, hheld, ?_⟩
  have hdecodes := o.records_decode (Gathered.flushed_sized hg).blocks ByteArray.empty
  rw [ByteArray.empty_append, Gathered.joined_flushed] at hdecodes
  intro tail
  rw [ByteArray.append_assoc, FrameOptions.frame, Gathered.joined_flushed]
  refine decompressFrame_frame (more ++ tail) hdecodes ?_
  intro n hn
  obtain ⟨m, hm, rfl⟩ := Option.map_eq_some_iff.mp hn
  rw [Nat.mod_eq_of_lt (hlt m hm)]
  exact hsize m hm

/-- Once all that is missing of a frame has come behind it, the frame is there. -/
theorem end_leaves {more : ByteArray} (h : w.inMemory.Holds o before g) (hg : g.Sized o.blockSize.bytes)
    (hlt : ∀ n, o.contentSize = some n → n < 2 ^ 64) (hsize : ∀ n, w.options.contentSize = some n → n = w.written)
    (hheld : w'.sink.held = w.sink.held ++ (joined (w.parts .close) ++ (w.endPart ++ more))) :
    w'.Leaves before g.content := by
  obtain rfl : w.options = o := h.options_eq
  have hframe : w'.sink.held = before ++ (w.options.frame g.flushed.blocks ++ more) := by
    rw [hheld, ← @ByteArray.append_assoc before, ← h.frame_parts]
    simp only [ByteArray.append_assoc]
  exact frame_leaves hg hlt (fun n hn => (hsize n hn).trans h.written_eq) hframe

/-- Between its first call and its end a frame is never taken for a whole one. -/
theorem Holds.unended (h : w.inMemory.Holds o before g) (hg : g.Sized o.blockSize.bytes) :
    ∃ part, w.sink.held = before ++ part ∧ ∀ out, decompressFrame part ≠ .ok out := by
  rcases h.held with ⟨_, hheld, _⟩ | ⟨_, hheld⟩
  · refine ⟨ByteArray.empty, ?_, ?_⟩
    · rw [ByteArray.append_empty]
      exact hheld
    · intro out hout
      obtain ⟨d, bs, tail, ⟨used, hread, _⟩, _, _⟩ := decompressFrame_eq_ok_iff_exists_framed.mp hout
      obtain ⟨start, rest, tail, hrest, hstart, _⟩ := Descriptor.read_eq_ok_iff.mp hread
      have hsize := congrArg ByteArray.size hrest
      rw [ByteArray.size_append, ByteArray.size_empty, hstart, headerStart] at hsize
      omega
  · refine ⟨o.descriptor.header ++ o.records g.blocks, hheld, ?_⟩
    refine decompressFrame_of_unended ?_
    intro b hb
    obtain ⟨block, hblock, rfl⟩ := List.mem_map.mp hb
    obtain ⟨hpos, hle⟩ := hg.blocks block hblock
    exact (o.record_adds hpos hle).2.1

variable [Device δ]

/-- The data of the writes that succeed. -/
def accepted (w : Writer δ) : List Use → ByteArray
  | [] => ByteArray.empty
  | u :: us => (match (w.use u).1 with
    | .ok () => u.data
    | .error _ => ByteArray.empty) ++ (w.use u).2.accepted us

/-- Uses that a close can follow and end the frame. One that fails leaves whole parts in the sink, takes no data in
and does not close the writer. If `ended` allows it, the end of the frame may come in pieces, too: from some point on
nothing is accepted, and all that a close would have put into the sink there has arrived when the last close is done;
or a close tears the end mark of a frame without content checksum, and no data is taken in after it. -/
inductive Intact (ended : Bool) : Writer δ → List Use → Prop
  | nil {w : Writer δ} : Intact ended w []
  | passed {w : Writer δ} {u : Use} {us : List Use} (ok : (w.use u).1 = .ok ())
      (rest : Intact ended (w.use u).2 us) : Intact ended w (u :: us)
  | failed {w : Writer δ} {u : Use} {us : List Use} {e : Error} (error : (w.use u).1 = .error e)
      (whole : w.Whole u (w.use u).2) (written_eq : (w.use u).2.written = w.written)
      (size_ok : ∀ declared written, e ≠ .contentSize declared written)
      (rest : Intact ended (w.use u).2 us) : Intact ended w (u :: us)
  | arrived {w : Writer δ} {us : List Use} {more : ByteArray}
      (declared_eq : ∀ n, w.options.contentSize = some n → n = w.written)
      (held : (w.useAll (us ++ [.close])).sink.held =
        w.sink.held ++ (joined (w.parts .close) ++ (w.endPart ++ more)))
      (accepted_eq : w.accepted us = ByteArray.empty) (hended : ended = true) : Intact ended w us
  | torn {w : Writer δ} {us : List Use} {e : Error} {mark : ByteArray} (checksum_eq : w.options.contentChecksum = false)
      (error : w.close.1 = .error e) (size_ok : ∀ declared written, e ≠ .contentSize declared written)
      (held : w.close.2.sink.held = w.sink.held ++ (joined (w.parts .close) ++ mark))
      (written_eq : (w.close.2.useAll us).written = w.written) (hended : ended = true) :
      Intact ended w (.close :: us)

/-- What is accepted counts. -/
theorem accepted_counts (w : Writer δ) (us : List Use) :
    w.written + (w.accepted us).size ≤ (w.useAll us).written := by
  induction us generalizing w with
  | nil => exact Nat.le_refl _
  | cons u us ih =>
    obtain ⟨hle, hok⟩ := use_counts w u
    have hlater := ih (w.use u).2
    rw [accepted, useAll, ByteArray.size_append]
    split
    next h =>
      have hall := hok h
      omega
    next =>
      rw [ByteArray.size_empty]
      omega

theorem useAll_append (w : Writer δ) (us vs : List Use) : w.useAll (us ++ vs) = (w.useAll us).useAll vs := by
  induction us generalizing w with
  | nil => rfl
  | cons u us ih => exact ih (w.use u).2

/-- A closed writer that holds nothing back accepts nothing. -/
theorem accepted_of_closed (hclosed : w.isClosed = true) (hbuffer : w.buffer = ByteArray.empty) (us : List Use) :
    w.accepted us = ByteArray.empty := by
  induction us with
  | nil => rfl
  | cons u us ih =>
    rw [accepted, use_of_closed hclosed u (.inl hbuffer), ih, ByteArray.append_empty]
    cases u with
    | close => rfl
    | call c =>
      cases c with
      | write data => rfl
      | flushBlock => rfl
      | flush => rfl

theorem terminate_passed (hok : close.terminate w = (.ok (), w')) :
    w'.isClosed = true ∧ w'.buffer = ByteArray.empty := by
  rw [close.terminate] at hok
  obtain ⟨w₁, hfinish, hclosed⟩ := Outcome.andThen_eq_ok hok
  have hbuffer := finishFrame_buffer (marked_eq_ok hfinish)
  cases hclosed
  exact ⟨rfl, hbuffer⟩

theorem close_passed (hopen : w.isClosed = false) (hok : w.close = (.ok (), w')) :
    (w'.isClosed = true ∧ w'.buffer = ByteArray.empty) ∧
      ∀ n, w.options.contentSize = some n → n = w.written := by
  rw [close, hopen, if_neg Bool.false_ne_true] at hok
  split at hok
  next declared hsome =>
    split at hok
    next hsize =>
      refine ⟨terminate_passed hok, ?_⟩
      intro n hn
      rw [hsome] at hn
      cases hn
      exact hsize
    next => cases hok
  next hnone =>
    refine ⟨terminate_passed hok, ?_⟩
    intro n hn
    rw [hnone] at hn
    cases hn

theorem closed_of_close (hok : w.close = (.ok (), w')) : w'.isClosed = true := by
  cases hclosed : w.isClosed with
  | false => exact (close_passed hclosed hok).1.1
  | true =>
    rw [close, hclosed, if_pos rfl] at hok
    cases hok
    exact hclosed

theorem close_mismatch {declared : Nat} (hopen : w.isClosed = false) (hsome : w.options.contentSize = some declared)
    (hne : declared ≠ w.written) :
    w.close = (.error (.contentSize declared w.written), { w with phase := .closed, failed := true }) := by
  rw [close, hopen, if_neg Bool.false_ne_true, hsome]
  exact if_neg hne

/-- A close that succeeds has put the whole frame into the sink. -/
theorem close_leaves (h : w.inMemory.Holds o before g) (hg : g.Sized o.blockSize.bytes)
    (hlt : ∀ n, o.contentSize = some n → n < 2 ^ 64) (hok : w.close = (.ok (), w')) :
    w'.Leaves before g.content ∧ w'.isClosed = true ∧ w'.buffer = ByteArray.empty := by
  obtain rfl : w.options = o := h.options_eq
  obtain ⟨hclosed, hdeclared⟩ := close_passed h.open_inMemory hok
  have hsize : ∀ n, w.options.contentSize = some n → n = g.content.size :=
    fun n hn => (hdeclared n hn).trans h.written_eq
  have hheld := (close_mirrors w).inMemory
    (P := fun m => m.sink.held = before ++ w.options.frame g.flushed.blocks) hok (close_holds h hg hsize)
  have hframe : w'.sink.held = before ++ (w.options.frame g.flushed.blocks ++ ByteArray.empty) := by
    rw [ByteArray.append_empty]
    exact hheld
  exact ⟨frame_leaves hg hlt hsize hframe, hclosed⟩

/-- Behind a torn end mark a close that succeeds puts in zeros enough for a whole one, if no data came between. -/
theorem torn_arrives {us : List Use} {mark : ByteArray} (h : w.inMemory.Holds o before g)
    (hg : g.Sized o.blockSize.bytes) (hchecksum : w.options.contentChecksum = false)
    (hfailed : w.close = (.error e, w₁)) (hsize : ∀ declared written, e ≠ .contentSize declared written)
    (hheld : w₁.sink.held = w.sink.held ++ (joined (w.parts .close) ++ mark))
    (hwritten : (w₁.useAll us).written = w.written) (hok : (w₁.useAll us).close = (.ok (), w')) :
    ∃ more, w'.sink.held = w.sink.held ++ (joined (w.parts .close) ++ (w.endPart ++ more)) := by
  obtain rfl : w.options = o := h.options_eq
  obtain ⟨n, htorn⟩ := close_tears_mark h hg hchecksum hfailed hsize hheld
  have hdigest : w.digest = none := by
    have hnone : w.digest = if w.options.contentChecksum then _ else none := h.digest_eq
    rw [hnone, hchecksum]
    rfl
  have hlast : w₁.useAll (us ++ [.close]) = w' := by
    rw [useAll_append]
    exact congrArg Prod.snd hok
  have hclosing := close_counts (w₁.useAll us)
  have hclosed := close_counts w
  rw [hok] at hclosing
  rw [hfailed] at hclosed
  have hsame : (w₁.useAll (us ++ [.close])).written = w₁.written := by
    rw [hlast]
    exact hclosing.trans (hwritten.trans hclosed.symm)
  rcases htorn.useAll hsame with ⟨m, hstill⟩ | ⟨m, hwhole⟩
  · rw [hlast] at hstill
    exact absurd (closed_of_close hok) (by rw [hstill.not_closed]; exact Bool.false_ne_true)
  · refine ⟨zeros m, ?_⟩
    rw [← hlast, hwhole.held, endPart_eq_zeros hdigest, zeros_append, Nat.add_comm, ByteArray.append_assoc]

/-- Where uses that a close can follow have led: inside the frame of what was accepted, or to where a close that
succeeds leaves that frame behind. -/
theorem Intact.comes_to {ended : Bool} {us : List Use} (hus : Intact ended w us)
    (h : w.inMemory.Holds o before g) (hg : g.Sized o.blockSize.bytes)
    (hlt : ∀ n, o.contentSize = some n → n < 2 ^ 64) :
    (∃ g', (w.useAll us).inMemory.Holds o before g' ∧ g'.Sized o.blockSize.bytes ∧
        g'.content = g.content ++ w.accepted us) ∨
      (∀ w', (w.useAll us).close = (.ok (), w') → w'.Leaves before (g.content ++ w.accepted us)) ∧
        ((w.useAll us).isClosed = true ∨ ended = true) := by
  induction hus generalizing g with
  | nil => exact .inl ⟨g, h, hg, ByteArray.append_empty.symm⟩
  | @passed w u us ok rest ih =>
    have huse : w.use u = (.ok (), (w.use u).2) := Prod.ext ok rfl
    rw [useAll, accepted, ok]
    cases u with
    | call c =>
      have hstep := (perform_mirrors w c).inMemory (P := (·.Holds o before (g.step o.blockSize.bytes c))) huse
        (perform_holds c h hg)
      have hlater := ih hstep (Gathered.step_sized hg c)
      rw [Gathered.step_content o.blockSize.bytes_pos, ByteArray.append_assoc] at hlater
      exact hlater
    | close =>
      -- Nothing that comes after it reaches the sink or is accepted.
      obtain ⟨hleaves, hclosed, hbuffer⟩ := close_leaves h hg hlt huse
      rw [(useAll_of_closed hclosed us (.inl hbuffer)).1, accepted_of_closed hclosed hbuffer, Use.data,
        ByteArray.append_empty, ByteArray.append_empty]
      refine .inr ⟨?_, .inl hclosed⟩
      intro w' hok
      cases (use_of_closed hclosed .close (.inl hbuffer)).symm.trans hok
      exact hleaves
  | @failed w u us e error whole written_eq size_ok rest ih =>
    obtain ⟨g', hholds, hg', hcontent⟩ := use_whole h hg (Prod.ext error rfl) whole written_eq size_ok
    have hlater := ih hholds hg'
    rw [useAll, accepted, error, ByteArray.empty_append, ← hcontent]
    exact hlater
  | @arrived w us more declared_eq held accepted_eq hended =>
    rw [accepted_eq, ByteArray.append_empty]
    refine .inr ⟨?_, .inr hended⟩
    intro w' hok
    rw [useAll_append] at held
    change (w.useAll us).close.2.sink.held = _ at held
    rw [hok] at held
    exact end_leaves h hg hlt declared_eq held
  | @torn w us e mark checksum_eq error size_ok held written_eq hended =>
    have hclose : w.close = (.error e, w.close.2) := Prod.ext error rfl
    have hnone : w.accepted (.close :: us) = ByteArray.empty := by
      have hcount := accepted_counts w (.close :: us)
      change _ ≤ (w.close.2.useAll us).written at hcount
      exact ByteArray.size_eq_zero_iff.mp (by omega)
    rw [hnone, ByteArray.append_empty]
    refine .inr ⟨?_, .inr hended⟩
    intro w' hok
    obtain ⟨more, harrived⟩ := torn_arrives h hg checksum_eq hclose size_ok held written_eq hok
    exact end_leaves h hg hlt (close_error h.open_inMemory hclose size_ok).2 harrived

theorem conclude_passed {ending : Ending} (hok : w.conclude ending = (.ok (), w')) : w.close = (.ok (), w') := by
  cases ending with
  | close => exact hok
  | finish =>
    rw [conclude, finish] at hok
    split at hok
    next w₁ hclose =>
      cases hok
      exact hclose
    next => cases hok

/-- Whatever failed before, a close that succeeds leaves the frame of what was accepted, as long as all that failed
left whole parts, or what broke off was the end of the frame and nothing came between its pieces. A close over a content
of another size than declared is the other exception: it fails once, and then is done, over a frame that never
decompresses. -/
theorem close_leaves_accepted {sink : Sink δ} {us : List Use} (ending : Ending)
    (hlt : ∀ n, o.contentSize = some n → n < 2 ^ 64) (hus : Intact true (new sink o) us) :
    let w := (new sink o).useAll us
    (∀ w', w.conclude ending = (.ok (), w') → w'.Leaves sink.held ((new sink o).accepted us)) ∧
      (Intact false (new sink o) us → w.isClosed = false →
        ∀ declared, o.contentSize = some declared → declared ≠ w.written →
          ∃ w', w.close = (.error (.contentSize declared w.written), w') ∧
            w'.conclude ending = (.ok (), w') ∧
            ∃ part, w'.sink.held = sink.held ++ part ∧ ∀ out, decompressFrame part ≠ .ok out) := by
  intro w
  have hnew : (new sink o).inMemory.Holds o sink.held .nothing :=
    new_holds (memory_reliable _) o
  have hnothing := Gathered.nothing_sized o.blockSize.bytes_pos
  have hempty : Gathered.nothing.content = ByteArray.empty := ByteArray.append_empty
  constructor
  · intro w' hok
    have hclose := conclude_passed hok
    rcases hus.comes_to hnew hnothing hlt with ⟨g, hholds, hg, hcontent⟩ | ⟨hleaves, _⟩
    · rw [hempty, ByteArray.empty_append] at hcontent
      rw [← hcontent]
      exact (close_leaves hholds hg hlt hclose).1
    · rw [hempty, ByteArray.empty_append] at hleaves
      exact hleaves w' hclose
  · intro hus hopen declared hsome hne
    rcases hus.comes_to hnew hnothing hlt with ⟨g, hholds, hg, _⟩ | ⟨_, hclosed | hended⟩
    · have hsame : w.options = o := hholds.options_eq
      refine ⟨_, close_mismatch hopen (hsame ▸ hsome) hne, ?_, hholds.unended hg⟩
      exact conclude_ok (use_of_closed rfl .close (.inr (by intro h; cases h))) ending
    · rw [hopen] at hclosed
      cases hclosed
    · cases hended

end Writer

/-- A device that answers by a plan, and takes everything after it. -/
structure Planned where
  replies : List Reply := []
  flushes : List (Option StreamError) := []

instance : Device Planned where
  offer p n :=
    match p.replies with
    | [] => (.took n, p)
    | r :: rs => (r, { p with replies := rs })
  flush p :=
    match p.flushes with
    | [] => (none, p)
    | f :: fs => (f, { p with flushes := fs })

namespace Writer

def diskFull : StreamError := ⟨.other, "disk full"⟩

/-- The header is refused at first, then the flush behind a block, then the second half of the end mark. -/
def refusing : Sink Planned :=
  ⟨⟨[.failed diskFull, .took 99, .took 99, .took 99, .took 2, .failed diskFull], [some diskFull]⟩, ByteArray.empty, 0⟩

/-- All is taken, and the first flush fails. -/
def unflushed : Sink Planned := ⟨⟨[], [some diskFull]⟩, ByteArray.empty, 0⟩

theorem refusing_intact : Intact true (new refusing {})
    [.call (.write ⟨#[97]⟩), .call (.write ⟨#[98]⟩), .call .flush, .close] := by
  refine .failed (e := .stream diskFull) (by cbv) ⟨0, by cbv⟩ (by cbv) nofun (.passed (by cbv) ?_)
  refine .failed (e := .stream diskFull) (by cbv) ⟨1, by cbv⟩ (by cbv) nofun ?_
  exact @Intact.torn _ _ _ _ _ (.stream diskFull) ⟨#[0, 0]⟩ (by cbv) (by cbv) nofun (by cbv) (by cbv) rfl

theorem refusing_intact_declared (ended : Bool) : Intact ended (new refusing { contentSize := some 2 })
    [.call (.write ⟨#[97]⟩), .call (.write ⟨#[98]⟩), .call .flush] := by
  refine .failed (e := .stream diskFull) (by cbv) ⟨0, by cbv⟩ (by cbv) nofun (.passed (by cbv) ?_)
  exact .failed (e := .stream diskFull) (by cbv) ⟨1, by cbv⟩ (by cbv) nofun .nil

theorem unflushed_intact : Intact true (new unflushed { contentChecksum := true })
    [.call (.write ⟨#[97]⟩), .close] := by
  refine .passed (by cbv) (@Intact.arrived _ _ _ _ _ ⟨#[0, 0, 0, 0, 86, 116, 13, 85]⟩ ?_ (by cbv) (by cbv) rfl)
  have hnone : ((new unflushed { contentChecksum := true }).use (.call (.write ⟨#[97]⟩))).2.options.contentSize =
      none := by
    cbv
  intro n hn
  cases hnone.symm.trans hn

/-- Of two writes one is accepted. Behind it the frame can be ended, also behind half of an end mark or a whole one, but
not if two bytes were declared. -/
theorem close_leaves_accepted_of_refusing :
    let us : List Use := [.call (.write ⟨#[97]⟩), .call (.write ⟨#[98]⟩), .call .flush]
    let w := (new refusing {}).useAll (us ++ [.close])
    let w₁ := (new unflushed { contentChecksum := true }).useAll [.call (.write ⟨#[97]⟩), .close]
    let w₂ := (new refusing { contentSize := some 2 }).useAll us
    (Intact true (new refusing {}) (us ++ [.close]) ∧ ∃ w', w.conclude .finish = (.ok (), w') ∧
      w'.Leaves refusing.held ((new refusing {}).accepted (us ++ [.close]))) ∧
    (Intact true (new unflushed { contentChecksum := true }) [.call (.write ⟨#[97]⟩), .close] ∧
      ∃ w', w₁.conclude .close = (.ok (), w') ∧ w'.Leaves unflushed.held
        ((new unflushed { contentChecksum := true }).accepted [.call (.write ⟨#[97]⟩), .close])) ∧
    Intact false (new refusing { contentSize := some 2 }) us ∧
      ∃ w', w₂.close = (.error (.contentSize 2 w₂.written), w') ∧ w'.conclude .close = (.ok (), w') ∧
        ∃ part, w'.sink.held = refusing.held ++ part ∧ ∀ out, decompressFrame part ≠ .ok out := by
  have hnone : ∀ n, none = some n → n < 2 ^ 64 := by
    intro n hn
    cases hn
  refine ⟨⟨refusing_intact, _, Prod.ext (by cbv) rfl, ?_⟩, ⟨unflushed_intact, _, Prod.ext (by cbv) rfl, ?_⟩,
    refusing_intact_declared false, ?_⟩
  · exact (close_leaves_accepted .finish hnone refusing_intact).1 _ (Prod.ext (by cbv) rfl)
  · exact (close_leaves_accepted .close hnone unflushed_intact).1 _ (Prod.ext (by cbv) rfl)
  · have hlt : ∀ n, some 2 = some n → n < 2 ^ 64 := fun n hn => Option.some.inj hn ▸ by decide
    exact (close_leaves_accepted .close hlt (refusing_intact_declared true)).2
      (refusing_intact_declared false) (by cbv) 2 rfl (by cbv)

/-- A close succeeds over a frame that is none, or that misses what was accepted: over nothing where a byte was
declared; behind a header, a block or the end of a frame with content checksum that was torn; over data that came
behind half of an end mark, or behind all of the frame. -/
theorem close_ok_over_bad_frames :
    let short : Writer Memory := new ⟨⟨⟩, ByteArray.empty, 0⟩ { contentSize := some 1 }
    let torn (o : FrameOptions) (replies : List Reply) : Writer Planned :=
      new ⟨⟨replies ++ [.failed diskFull], []⟩, ByteArray.empty, 0⟩ o
    let header := torn {} [.took 3]
    let block := torn {} [.took 99, .took 2]
    let checksum := torn { contentChecksum := true } [.took 99, .took 99, .took 99, .took 2]
    let mark := torn {} [.took 99, .took 99, .took 99, .took 3]
    let again : List Use := [.call (.write ⟨#[97]⟩), .close, .close]
    let later : List Use := [.call (.write ⟨#[97]⟩), .close, .call (.write ⟨#[98]⟩), .close]
    (short.results [.close, .close] = [.error (.contentSize 1 0), .ok ()] ∧
      decompressFrame (short.useAll [.close, .close]).sink.held = .error (.frame .unexpectedEnd)) ∧
    (header.results [.call (.write ⟨#[97]⟩), .close] = [.error (.stream diskFull), .ok ()] ∧
      decompressFrame (header.useAll [.call (.write ⟨#[97]⟩), .close]).sink.held = .error (.frame .magic)) ∧
    (block.results again = [.ok (), .error (.stream diskFull), .ok ()] ∧
      decompressFrame (block.useAll again).sink.held = .error (.frame .oversizedBlock)) ∧
    (checksum.results again = [.ok (), .error (.stream diskFull), .ok ()] ∧
      decompressFrame (checksum.useAll again).sink.held = .error (.checksum .content 1951793152 1426945110)) ∧
    (mark.results later = [.ok (), .error (.stream diskFull), .ok (), .ok ()] ∧
      decompressFrame (mark.useAll later).sink.held = .error (.frame .oversizedBlock)) ∧
    (new unflushed {}).results later = [.ok (), .error (.stream diskFull), .ok (), .ok ()] ∧
      (new unflushed {}).accepted later = ⟨#[97, 98]⟩ ∧
      decompressFrame ((new unflushed {}).useAll later).sink.held = .ok ⟨#[97]⟩ := by
  cbv

end Writer

end LempelZiv
