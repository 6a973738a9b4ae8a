import LempelZiv.Proofs.Outcomes

namespace LempelZiv

namespace Reader

variable {φ : Type}

/-- The reader is inside what comes to the content `result`, and `todo` is what it has yet to hand out. -/
structure Inside [Feed φ] (r : Reader φ) (todo result : ByteArray) (outcome : Except Error ByteArray) : Prop where
  reliable : Feed.Reliable r.source.feed
  phase_eq : r.phase = .begun
  rest : ∃ d out, r.Stands d out ∧ d.ComesTo out r.source.rest result outcome ∧
    todo = dropBytes r.pending r.pos ++ dropBytes result out.size

/-- The reader is at the end of a frame with the content `result`, and `tail` is left in the source. -/
structure Spent (r : Reader φ) (result tail : ByteArray) : Prop where
  phase_eq : r.phase = .ended
  rest_eq : r.source.rest = tail
  available_eq : r.available = 0
  produced_eq : r.produced = result.size

/-- A read hands out the next bytes of `todo`, or nothing is to do and the outcome is reached. -/
inductive Delivers [Feed φ] {r : Reader φ} (result : ByteArray) :
    Delivery r → (todo : ByteArray) → Except Error ByteArray → Prop
  | gave {bytes todo : ByteArray} {outcome : Except Error ByteArray} {next : Reader φ}
      {nearer : Nearer next r} {size_pos : 0 < bytes.size} (inside : next.Inside todo result outcome) :
      Delivers result (.gave bytes next nearer size_pos) (bytes ++ todo) outcome
  | ended {tail : ByteArray} {next : Reader φ} (spent : next.Spent result tail) :
      Delivers result (.ended next) ByteArray.empty (.ok tail)
  | failed {e : Error} {next : Reader φ} : Delivers result (.failed e next) ByteArray.empty (.error e)

variable [Feed φ] {r : Reader φ} {todo result : ByteArray} {outcome : Except Error ByteArray}

theorem readHeader_reliable {s : Source φ} {d : Descriptor} {used : Nat} (hs : Feed.Reliable s.feed)
    (hread : Descriptor.read s.rest = .ok (d, used)) :
    ∃ r h, (new s).readHeader = .done () r h ∧ r.Stands d ByteArray.empty ∧
      r.source.rest = dropBytes s.rest used ∧ Feed.Reliable r.source.feed ∧ r.phase = .begun ∧
      r.pending = ByteArray.empty ∧ r.pos = 0 := by
  obtain ⟨start, rest, tail, hrest, hstart, hlength, hd, hused⟩ := Descriptor.read_eq_ok_iff.mp hread
  obtain ⟨s₁, h₁, hok₁, hrest₁, hs₁⟩ := @take_reliable φ (new s) _ _ _ _ hstart hs hrest
  obtain ⟨s₂, h₂, hok₂, hrest₂, hs₂⟩ := @take_reliable φ { new s with source := s₁ } _ _ _ _ rfl hs₁ hrest₁
  have hleft : s₂.left + headerStart ≤ s.left := by
    have h₂' : s₂.left + rest.size ≤ s₁.left := h₂
    have h₁' : s₁.left + headerStart ≤ s.left := h₁
    omega
  have htail : s₂.rest = dropBytes s.rest used := by
    rw [hrest₂, hrest, hused, ← hstart, dropBytes_append_add, dropBytes_append]
  rw [readHeader]
  simp only [hok₁, hlength, hok₂, hd]
  refine ⟨_, hleft, rfl, ⟨rfl, ?_, rfl, ?_⟩, htail, hs₂, rfl, rfl, rfl⟩
  · rw [XXH32.update_empty]
  · exact d.history_empty.trans d.history_empty.symm

theorem serve_available {origin : Reader φ} {n : Nat} {hn : 0 < n}
    {h : r.source.left < origin.source.left ∨
      r.source.left ≤ origin.source.left ∧ r.available ≤ origin.available}
    (ha : 0 < r.available) (hr : r.Inside todo result outcome) :
    Delivers result (serve origin r n hn h) todo outcome := by
  obtain ⟨hs, hphase, d, out, hstands, hcomes, htodo⟩ := hr
  have hstop : r.pos + min n r.available ≤ r.pending.size := by
    rw [available] at *
    omega
  have hcut := extract_append_dropBytes (Nat.le_add_right r.pos (min n r.available)) hstop
  rw [← hcut, ByteArray.append_assoc] at htodo
  rw [serve, dif_pos ha, htodo]
  have hstands' : Stands { r with pos := r.pos + min n r.available } d out :=
    ⟨hstands.descriptor_eq, hstands.digest_eq, hstands.produced_eq, hstands.history_eq⟩
  exact .gave ⟨hs, hphase, d, out, hstands', hcomes, rfl⟩

/-- Reading on gives the next bytes, also behind blocks that stand for none. -/
theorem serve_delivers {origin : Reader φ} {n : Nat} {hn : 0 < n}
    {h : r.source.left < origin.source.left ∨
      r.source.left ≤ origin.source.left ∧ r.available ≤ origin.available}
    (hr : r.Inside todo result outcome) : Delivers result (serve origin r n hn h) todo outcome := by
  -- A block may stand for no bytes, so the induction is on the source and not on `todo`.
  induction hk : r.source.left using Nat.strongRecOn generalizing r with
  | ind k ih =>
    by_cases ha : 0 < r.available
    · exact serve_available ha hr
    obtain ⟨hs, hphase, d, out, hstands, hcomes, htodo⟩ := hr
    have hnone : dropBytes r.pending r.pos = ByteArray.empty :=
      dropBytes_of_le (by rw [available] at ha; omega)
    rw [hnone, ByteArray.empty_append] at htodo
    rw [serve, dif_neg ha, if_neg (by rw [hphase]; decide)]
    generalize hrest : r.source.rest = rest at hcomes
    cases hcomes with
    | trailer size_eq =>
      obtain ⟨r', h', hok, hrest', hphase', hpending, hpos, hproduced⟩ :=
        nextBlock_trailer hstands hs hrest size_eq
      rw [dropBytes_of_le (Nat.le_refl _)] at htodo
      rw [htodo]
      simp only [hok]
      have hspent : r'.available = r.available := by rw [available, available, hpending, hpos]
      exact .ended ⟨hphase', hrest', by omega, hproduced.trans hstands.produced_eq⟩
    | stuck stuck =>
      obtain ⟨r', h', hfailed⟩ := stuck.fails hstands hs hrest
      rw [dropBytes_of_le (Nat.le_refl _)] at htodo
      rw [htodo]
      simp only [hfailed]
      exact .failed
    | @block _ more _ _ _ b fits adds later =>
      obtain ⟨r', h', hok, hstands', hrest', hs', hphase', hpos', hpending'⟩ :=
        nextBlock_record hstands hs hrest fits adds
      obtain ⟨last, hlast⟩ := later.exists_more
      have hinside : r'.Inside todo result outcome := by
        refine ⟨hs', hphase', d, out ++ more, hstands', hrest' ▸ later, ?_⟩
        rw [htodo, hpos', hpending', dropBytes_append, hlast, dropBytes_append, ByteArray.append_assoc,
          dropBytes_append]
      simp only [hok]
      exact ih r'.source.left (by omega) hinside rfl

theorem read_delivers {n : Nat} (hn : 0 < n) (hr : r.Inside todo result outcome) :
    Delivers result (r.read n) todo outcome := by
  rw [read, dif_pos hn]
  split
  next hphase => rw [hr.phase_eq] at hphase; cases hphase
  next => exact serve_delivers hr
  next => exact serve_delivers hr
  next hphase => rw [hr.phase_eq] at hphase; cases hphase

theorem read_new_done {s : Source φ} {n : Nat} (hn : 0 < n) {h : r.source.left + headerStart ≤ s.left}
    (hdone : (new s).readHeader = .done () r h) : ∃ h', (new s).read n = serve (new s) r n hn h' := by
  have hleft : r.source.left < s.left := by
    rw [headerStart] at h
    omega
  refine ⟨.inl hleft, ?_⟩
  rw [read, dif_pos hn]
  simp only [new] at hdone ⊢
  simp only [hdone]

theorem read_new_failed {s : Source φ} {n : Nat} (hn : 0 < n) {e : Error} {h : r.source.left ≤ s.left}
    (hfailed : (new s).readHeader = .failed e r h) : (new s).read n = .failed e r.broken := by
  rw [read, dif_pos hn]
  simp only [new] at hfailed ⊢
  simp only [hfailed]

theorem read_new_delivers {s : Source φ} {d : Descriptor} {used n : Nat} (hn : 0 < n)
    (hs : Feed.Reliable s.feed) (hread : Descriptor.read s.rest = .ok (d, used))
    (hcomes : d.ComesTo ByteArray.empty (dropBytes s.rest used) result outcome) :
    Delivers result ((new s).read n) result outcome := by
  obtain ⟨r, h, hok, hstands, hrest, hs', hphase, hpending, hpos⟩ := readHeader_reliable hs hread
  have hinside : r.Inside result result outcome := by
    refine ⟨hs', hphase, d, ByteArray.empty, hstands, hrest ▸ hcomes, ?_⟩
    rw [hpos, hpending, ByteArray.size_empty, dropBytes_zero, dropBytes_zero, ByteArray.empty_append]
  obtain ⟨h', hserve⟩ := read_new_done hn hok
  rw [hserve]
  exact serve_delivers hinside

/-- Reads pieces, the one after `k` others of up to `sizes k` bytes, until there are no more. -/
def drainBy (r : Reader φ) (sizes : Nat → Nat) (bytes : ByteArray) (k : Nat) : Drained φ :=
  match r.read (sizes k) with
  | .gave more next _ _ => drainBy next sizes (bytes ++ more) (k + 1)
  | .ended next => ⟨bytes, k, none, next⟩
  | .failed e next => ⟨bytes, k, some e, next⟩
  termination_by (r.source.left, r.available)
  decreasing_by
    next nearer _ =>
    rcases nearer with h | ⟨h₁, h₂⟩
    · exact Prod.Lex.left _ _ h
    · rcases Nat.lt_or_eq_of_le h₁ with h | h
      · exact Prod.Lex.left _ _ h
      · rw [h]
        exact Prod.Lex.right _ h₂

theorem drainFrom_eq (r : Reader φ) (n : Nat) (bytes : ByteArray) (k : Nat) :
    r.drainFrom n bytes k = r.drainBy (fun _ => n) bytes k := by
  fun_induction drainFrom r n bytes k with
  | case1 r bytes k more next nearer size_pos hread ih => rw [drainBy, hread, ih]
  | case2 r bytes k next hread => rw [drainBy, hread]
  | case3 r bytes k e next hread => rw [drainBy, hread]

/-- All bytes are handed out, and then the outcome is reached. -/
structure Drained.Delivered (drained : Drained φ) (bytes result : ByteArray) (outcome : Except Error ByteArray) :
    Prop where
  bytes_eq : drained.bytes = bytes
  failed : ∀ e, outcome = .error e → drained.error = some e
  ended : ∀ tail, outcome = .ok tail → drained.error = none ∧ drained.reader.Spent result tail

theorem drainBy_delivers {sizes : Nat → Nat} {k : Nat} {bytes : ByteArray} (hsizes : ∀ i, 0 < sizes i)
    (hr : Delivers result (r.read (sizes k)) todo outcome) :
    (r.drainBy sizes bytes k).Delivered (bytes ++ todo) result outcome := by
  -- Every read but the last gives some bytes.
  induction hm : todo.size using Nat.strongRecOn generalizing r bytes k todo with
  | ind m ih =>
    rw [drainBy]
    generalize r.read (sizes k) = delivery at hr
    cases hr with
    | @gave more todo _ next _ size_pos inside =>
      rw [ByteArray.size_append] at hm
      have hlater := @ih todo.size (by omega) next todo (k + 1) (bytes ++ more)
        (read_delivers (hsizes (k + 1)) inside) rfl
      rwa [ByteArray.append_assoc] at hlater
    | ended spent =>
      refine ⟨ByteArray.append_empty.symm, ?_, ?_⟩
      · rintro _ ⟨⟩
      · rintro _ ⟨⟩
        exact ⟨rfl, spent⟩
    | failed =>
      refine ⟨ByteArray.append_empty.symm, ?_, ?_⟩
      · rintro _ ⟨⟩
        rfl
      · rintro _ ⟨⟩

theorem drainBy_new_delivers {s : Source φ} {d : Descriptor} {used : Nat} {sizes : Nat → Nat}
    (hs : Feed.Reliable s.feed) (hsizes : ∀ i, 0 < sizes i)
    (hread : Descriptor.read s.rest = .ok (d, used))
    (hcomes : d.ComesTo ByteArray.empty (dropBytes s.rest used) result outcome) :
    ((new s).drainBy sizes ByteArray.empty 0).Delivered result result outcome := by
  have hdelivers := read_new_delivers (hsizes 0) hs hread hcomes
  have hdelivered := @drainBy_delivers φ _ _ _ _ _ sizes 0 ByteArray.empty hsizes hdelivers
  simpa using hdelivered

/-- A frame is read to its end whatever the sizes of the pieces, and what follows it is left. -/
theorem drainBy_framed {s : Source φ} {d : Descriptor} {bs : List Record} {content tail : ByteArray}
    {sizes : Nat → Nat} (hs : Feed.Reliable s.feed) (hframed : d.Framed s.rest bs content tail)
    (hsizes : ∀ i, 0 < sizes i) :
    ∃ pieces r, (new s).drainBy sizes ByteArray.empty 0 = ⟨content, pieces, none, r⟩ ∧ r.phase = .ended ∧
      r.source.rest = tail := by
  obtain ⟨⟨used, hread, hrest⟩, hdecodes, hsize⟩ := hframed
  have hcomes : d.ComesTo ByteArray.empty (dropBytes s.rest used) content (.ok tail) :=
    hrest ▸ hdecodes.comesTo hsize
  have hdrained := drainBy_new_delivers hs hsizes hread hcomes
  generalize (new s).drainBy sizes ByteArray.empty 0 = drained at hdrained
  obtain ⟨bytes, pieces, error, r⟩ := drained
  obtain ⟨hbytes, _, hended⟩ := hdrained
  obtain ⟨herror, hspent⟩ := hended tail rfl
  cases hbytes
  cases herror
  exact ⟨pieces, r, rfl, hspent.phase_eq, hspent.rest_eq⟩

/-- What some bytes come to: that of what follows their header, or an error where there is none. -/
inductive Comes (src : ByteArray) : (content : ByteArray) → Except Error ByteArray → Prop
  | headed {d : Descriptor} {used : Nat} {content : ByteArray} {outcome : Except Error ByteArray}
      (header : Descriptor.read src = .ok (d, used))
      (comes : d.ComesTo ByteArray.empty (dropBytes src used) content outcome) : Comes src content outcome
  | headless {e : Error} (no_header : ∀ d used, Descriptor.read src ≠ .ok (d, used)) :
      Comes src ByteArray.empty (.error e)

/-- The same bytes come to the same for every reader. -/
theorem drainBy_comes (src : ByteArray) :
    ∃ content outcome, Comes src content outcome ∧
      ∀ {φ : Type} [Feed φ] (feed : φ) (sizes : Nat → Nat), Feed.Reliable feed → (∀ i, 0 < sizes i) →
        ((new ⟨feed, src, 0⟩).drainBy sizes ByteArray.empty 0).Delivered content content outcome := by
  have hrest : ∀ {φ : Type} (feed : φ), Source.rest ⟨feed, src, 0⟩ = src := fun _ => dropBytes_zero src
  -- One reader, over a steady feed, is enough to tell what all of them come to.
  have hsteady := steady_reliable ⟨⟩
  by_cases hheader : ∃ d used, Descriptor.read src = .ok (d, used)
  · obtain ⟨d, used, hread⟩ := hheader
    have hread' := (hrest Steady.mk).symm ▸ hread
    obtain ⟨start, _, _, hstands, hlater, hs, _⟩ := readHeader_reliable hsteady hread'
    obtain ⟨content, outcome, hcomes⟩ := hstands.comesTo hs
    rw [hlater, hrest] at hcomes
    refine ⟨content, outcome, .headed hread hcomes, ?_⟩
    intro φ _ feed sizes hfeed hsizes
    rw [← hrest feed] at hread hcomes
    exact drainBy_new_delivers hfeed hsizes hread hcomes
  · have hnone : ∀ d used, Descriptor.read src ≠ .ok (d, used) := fun d used h => hheader ⟨d, used, h⟩
    rcases hfirst : (new ⟨Steady.mk, src, 0⟩).readHeader with ⟨u, start, hleft⟩ | ⟨e, next, hleft⟩
    · obtain ⟨d, used, _, _, hread, _⟩ := readHeader_done hfirst
      exact absurd (hrest Steady.mk ▸ hread) (hnone d used)
    refine ⟨ByteArray.empty, .error e, .headless hnone, ?_⟩
    intro φ _ feed sizes hfeed hsizes
    have hsame : Source.rest ⟨feed, src, 0⟩ = Source.rest ⟨Steady.mk, src, 0⟩ ++ ByteArray.empty := by
      rw [hrest, hrest, ByteArray.append_empty]
    have hmatches := readHeader_matches hsteady hfeed hsame
    rw [hfirst] at hmatches
    generalize hsecond : (new ⟨feed, src, 0⟩).readHeader = step at hmatches
    cases hmatches with
    | short more_pos => cases more_pos
    | failed =>
      rw [drainBy, read_new_failed (hsizes 0) hsecond]
      refine ⟨rfl, ?_, ?_⟩
      · rintro _ ⟨⟩
        rfl
      · rintro _ ⟨⟩

end Reader

theorem decompressFrame_of_delivered {src content : ByteArray} {outcome : Except Error ByteArray}
    (h : ((Reader.new ⟨Steady.mk, src, 0⟩).drainBy (fun _ => 65536) ByteArray.empty 0).Delivered content content
      outcome) : decompressFrame src = outcome.map fun _ => content := by
  rw [decompressFrame, Reader.drain, Reader.drainFrom_eq]
  cases outcome with
  | ok tail => simp [(h.ended tail rfl).1, h.bytes_eq, Except.map]
  | error e => simp [h.failed e rfl, Except.map]

/-- What begins with a frame decompresses to the content of the frame. -/
theorem decompressFrame_framed {d : Descriptor} {src content tail : ByteArray} {bs : List Record}
    (hframed : d.Framed src bs content tail) : decompressFrame src = .ok content := by
  have hrest : (⟨⟨⟩, src, 0⟩ : Source Steady).rest = src := dropBytes_zero src
  rw [← hrest] at hframed
  obtain ⟨pieces, r, hdrained, _⟩ := @Reader.drainBy_framed Steady _ ⟨⟨⟩, src, 0⟩ d bs content tail
    (fun _ => 65536) (steady_reliable _) hframed (fun _ => by decide)
  rw [decompressFrame, Reader.drain, Reader.drainFrom_eq, hdrained]

end LempelZiv
