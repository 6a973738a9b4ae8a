import LempelZiv.Proofs.Scheduling

namespace LempelZiv

theorem Pool.new_eq_ok {workers slots : Nat} {pool : Pool} (h : Pool.new workers slots = .ok pool) :
    0 < workers ∧ 0 < slots ∧ pool = ⟨workers, slots, slots⟩ := by
  rw [Pool.new] at h
  split at h
  next => cases h
  next hcapacity =>
    cases h
    exact ⟨by omega, by omega, rfl⟩

namespace Compressor

/-- What is made of an input without any workers. -/
def packAlone (chunkSize : Nat) (variant : Variant) (input : ByteArray) (level : Nat) : Except Error ByteArray :=
  (({ workers := 1, chunkSize, variant } : Compressor).compress input level).1

/-- The input is cut, and its chunks are packed as `o` says. -/
structure Cuts (c : Compressor) (input : ByteArray) (level : Nat) (o : BlockOptions) : Prop where
  level_eq : Level.ofNat level = .ok o.level
  variant_eq : o.variant = c.variant
  minBlockSize_le : minBlockSize ≤ input.size
  chunkSize_lt : c.chunkSize < input.size
  minParallelInput_le : minParallelInput ≤ input.size

/-- What is made of the answer of the pool. -/
def join (c : Compressor) (input : ByteArray) :
    Except Error (List (Except Fault ChunkBody)) → Except Error ByteArray
  | .error e => .error e
  | .ok results =>
    match collect 0 results with
    | .error e => .error e
    | .ok chunks => joinChunks input c.chunkSize chunks

inductive Action where
  | start
  | stop
  | compress (input : ByteArray) (level : Nat)

def perform (c : Compressor) : Action → Compressor
  | .start => c.start
  | .stop => c.stop
  | .compress input level => (c.compress input level).2

variable {c : Compressor} {input : ByteArray} {level : Nat} {o : BlockOptions}

theorem compress_eq_of_cuts (h : c.Cuts input level o) {bodies : List ChunkBody}
    (hbodies : (c.jobs o input).map (fun job => job ()) = bodies.map .ok) :
    (c.compress input level).1 = joinChunks input c.chunkSize bodies := by
  obtain ⟨hlevel, hvariant, hmin, hchunk, hlong⟩ := h
  obtain ⟨l, variant⟩ := o
  cases hvariant
  obtain ⟨c', hencode, hsize⟩ := encodeChunks_ok hbodies
  have hshort : ¬input.size < minBlockSize := by omega
  have hsingle : ¬(input.size ≤ c.chunkSize ∨ input.size < minParallelInput) := by omega
  rw [compress, hlevel]
  simp only [if_neg hshort, if_neg hsingle, hencode, hsize]

theorem compress_eq_of_not_cuts (h : ∀ o, ¬c.Cuts input level o) :
    (c.compress input level).1 = packAlone c.chunkSize c.variant input level ∧
    (c.compress input level).2 = c := by
  rw [packAlone, compress, compress]
  cases hlevel : Level.ofNat level with
  | error e => exact ⟨rfl, rfl⟩
  | ok l =>
    have hcuts := h ⟨l, c.variant⟩
    simp only
    split
    next => exact ⟨rfl, rfl⟩
    next hmin =>
      split
      next => exact ⟨rfl, rfl⟩
      next hshort => exact absurd ⟨hlevel, rfl, by omega, by omega, by omega⟩ hcuts

/-- The bytes are the same with a pool and without one. -/
theorem compress_eq_packAlone (hpos : 0 < c.chunkSize) (hmost : c.chunkSize ≤ maxBlockSize) :
    (c.compress input level).1 = packAlone c.chunkSize c.variant input level := by
  by_cases h : ∃ o, c.Cuts input level o
  · obtain ⟨o, h⟩ := h
    have hchunk := h.chunkSize_lt
    obtain ⟨bodies, hbodies, _⟩ := @jobs_bodies c input o hpos hmost (by omega)
    have halone : ({ workers := 1, chunkSize := c.chunkSize, variant := c.variant } : Compressor).Cuts input level o :=
      ⟨h.level_eq, h.variant_eq, h.minBlockSize_le, h.chunkSize_lt, h.minParallelInput_le⟩
    rw [compress_eq_of_cuts h hbodies, packAlone, compress_eq_of_cuts halone hbodies]
  · exact (compress_eq_of_not_cuts (not_exists.mp h)).1

theorem join_eq_packAlone (hpos : 0 < c.chunkSize) (hmost : c.chunkSize ≤ maxBlockSize) (h : c.Cuts input level o) :
    c.join input (.ok ((c.jobs o input).map fun job => job ())) = packAlone c.chunkSize c.variant input level := by
  have hchunk := h.chunkSize_lt
  obtain ⟨bodies, hbodies, _⟩ := @jobs_bodies c input o hpos hmost (by omega)
  rw [← compress_eq_packAlone hpos hmost, compress_eq_of_cuts h hbodies, hbodies, join, collect_ok]

/-- The settings that the bytes depend on. -/
structure Like (c c' : Compressor) : Prop where
  chunkSize_eq : c'.chunkSize = c.chunkSize
  variant_eq : c'.variant = c.variant

theorem Like.refl (c : Compressor) : c.Like c := ⟨rfl, rfl⟩

theorem Like.trans {c c' c'' : Compressor} (h : c.Like c') (h' : c'.Like c'') : c.Like c'' :=
  ⟨h'.chunkSize_eq.trans h.chunkSize_eq, h'.variant_eq.trans h.variant_eq⟩

theorem Cuts.of_like {c' : Compressor} (h : c'.Cuts input level o) (hlike : c.Like c') : c.Cuts input level o where
  level_eq := h.level_eq
  variant_eq := h.variant_eq.trans hlike.variant_eq
  minBlockSize_le := h.minBlockSize_le
  chunkSize_lt := hlike.chunkSize_eq ▸ h.chunkSize_lt
  minParallelInput_le := h.minParallelInput_le

theorem Like.jobs_eq {c' : Compressor} (h : c.Like c') : c'.jobs o input = c.jobs o input := by
  simp only [jobs, chunkCount, h.chunkSize_eq]

theorem Like.join_eq {c' : Compressor} (h : c.Like c') (answer : Except Error (List (Except Fault ChunkBody))) :
    c'.join input answer = c.join input answer := by
  cases answer with
  | error e => rfl
  | ok results => simp only [join, h.chunkSize_eq]

theorem start_like (c : Compressor) : c.Like c.start := by
  rw [start]
  split
  next => exact .refl c
  next => split <;> exact ⟨rfl, rfl⟩

theorem stop_like (c : Compressor) : c.Like c.stop := by
  rw [stop]
  split <;> exact ⟨rfl, rfl⟩

theorem encodeChunks_like (c : Compressor) (o : BlockOptions) (input : ByteArray) :
    c.Like (c.encodeChunks o input).2 := by
  rw [encodeChunks]
  cases c.pool <;> exact ⟨rfl, rfl⟩

theorem compress_like (c : Compressor) (input : ByteArray) (level : Nat) : c.Like (c.compress input level).2 := by
  rw [compress]
  cases Level.ofNat level with
  | error e => exact .refl c
  | ok l =>
    have hencode := c.encodeChunks_like ⟨l, c.variant⟩ input
    simp only
    split
    next => exact .refl c
    next =>
      split
      next => exact .refl c
      next => split <;> rename_i heq <;> rw [heq] at hencode <;> exact hencode

theorem perform_like (c : Compressor) (a : Action) : c.Like (c.perform a) := by
  cases a with
  | start => exact c.start_like
  | stop => exact c.stop_like
  | compress input level => exact c.compress_like input level

theorem history_like (c : Compressor) (history : List Action) : c.Like (history.foldl perform c) := by
  induction history generalizing c with
  | nil => exact .refl c
  | cons a history ih => exact (c.perform_like a).trans (ih _)

theorem new_eq_ok {workers chunkSize : Nat} {variant : Variant} (h : new workers chunkSize variant = .ok c) :
    minBlockSize ≤ chunkSize ∧ chunkSize ≤ maxBlockSize ∧ c.chunkSize = chunkSize ∧ c.variant = variant := by
  simp only [new, bind_eq_ok_iff, pure_eq_ok_iff] at h
  obtain ⟨_, hcheck, rfl⟩ := h
  rw [checkBlockSize] at hcheck
  split at hcheck
  next hwithin => exact ⟨hwithin.1, hwithin.2, rfl, rfl⟩
  next => cases hcheck

theorem start_pool {pool : Pool} (hstopped : c.isRunning = false) (h : c.start.pool = some pool) :
    Pool.new c.workers (c.workers * slotsPerWorker) = .ok pool := by
  rw [start, hstopped] at h
  simp only [Bool.false_eq_true, if_false] at h
  split at h
  next hnew =>
    cases h
    exact hnew
  next =>
    rw [isRunning, h] at hstopped
    cases hstopped

end Compressor

/-- How far one call of `compress` has come: its chunks are with the pool, or it has returned. -/
inductive Progress where
  | dispatched (ticket : Nat)
  | returned (packed : Except Error ByteArray)

structure Packing where
  input : ByteArray
  level : Nat
  progress : Progress

/-- A compressor that any number of threads use, and the pool of it at work, while there is one. -/
structure Service where
  compressor : Compressor
  shift : Option Shift
  packings : List Packing

namespace Service

def new (c : Compressor) : Service := ⟨c, none, []⟩

def requests (s : Service) : List (ByteArray × Nat) := s.packings.map fun p => (p.input, p.level)

/-- No call has its chunks with the pool. -/
def Quiet (s : Service) : Prop := ∀ p ∈ s.packings, ∃ packed, p.progress = .returned packed

/-- The pool is set up and taken down only while no call uses it. A call whose input is cut takes its chunks
to the pool there is, and returns what it makes of the answer; any other call packs on its own thread. -/
inductive Step : Service → Service → Prop
  | start {s : Service} {pool : Pool} (hquiet : s.Quiet) (hstopped : s.compressor.isRunning = false)
      (hpool : s.compressor.start.pool = some pool) : Step s ⟨s.compressor.start, some (.new pool), s.packings⟩
  | stop {s : Service} (hquiet : s.Quiet) : Step s ⟨s.compressor.stop, none, s.packings⟩
  | pack {s : Service} {input : ByteArray} {level : Nat}
      (hdirect : s.compressor.isRunning = false ∨ ∀ o, ¬s.compressor.Cuts input level o) :
      Step s { s with packings := s.packings ++ [⟨input, level, .returned (s.compressor.compress input level).1⟩] }
  | dispatch {s : Service} {shift : Shift} {input : ByteArray} {level : Nat} {o : BlockOptions}
      (hshift : s.shift = some shift) (hcuts : s.compressor.Cuts input level o) :
      Step s ⟨s.compressor.note (.dispatched (s.compressor.chunkCount input) s.compressor.chunkSize
          shift.crew.pool.workers), some (shift.call (s.compressor.jobs o input)),
        s.packings ++ [⟨input, level, .dispatched shift.batches.length⟩]⟩
  | work {s : Service} {shift shift' : Shift} (hshift : s.shift = some shift) (hadvance : shift.Advance shift') :
      Step s { s with shift := some shift' }
  | join {s : Service} {shift : Shift} {before after : List Packing} {input : ByteArray} {level ticket : Nat}
      {jobs : List (Job ChunkBody)} {posted : List (Posted ChunkBody)}
      {answer : Except Error (List (Except Fault ChunkBody))} (hshift : s.shift = some shift)
      (hpackings : s.packings = before ++ ⟨input, level, .dispatched ticket⟩ :: after)
      (hbatch : shift.batches[ticket]? = some ⟨ChunkBody, jobs, posted, some answer⟩) :
      Step s { s with packings := before ++ ⟨input, level, .returned (s.compressor.join input answer)⟩ :: after }

abbrev Reaches : Service → Service → Prop := Relation.ReflTransGen Step

end Service

namespace Packing

/-- A call that waits for the pool has all of its chunks there, and one that has returned has the bytes that
it would have had alone. -/
inductive Sound (c : Compressor) : Option Shift → Packing → Prop
  | dispatched {shift : Shift} {input : ByteArray} {level ticket : Nat} {o : BlockOptions}
      (hcuts : c.Cuts input level o) (hticket : shift.begun[ticket]? = some ⟨ChunkBody, c.jobs o input⟩) :
      Sound c (some shift) ⟨input, level, .dispatched ticket⟩
  | returned {shift : Option Shift} {input : ByteArray} {level : Nat} :
      Sound c shift ⟨input, level, .returned (Compressor.packAlone c.chunkSize c.variant input level)⟩

variable {c : Compressor} {shift shift' : Shift} {p : Packing}

theorem Sound.extend (h : p.Sound c (some shift)) (hbegun : shift.begun <+: shift'.begun) :
    p.Sound c (some shift') := by
  cases h with
  | dispatched hcuts hticket =>
    obtain ⟨more, hmore⟩ := hbegun
    refine .dispatched hcuts ?_
    rw [← hmore, List.getElem?_append_left (List.getElem?_eq_some_iff.mp hticket).1]
    exact hticket
  | returned => exact .returned

theorem Sound.packed_eq {shift : Option Shift} (h : p.Sound c shift) {packed : Except Error ByteArray}
    (hpacked : p.progress = .returned packed) :
    packed = Compressor.packAlone c.chunkSize c.variant p.input p.level := by
  cases h with
  | dispatched => cases hpacked
  | returned =>
    cases hpacked
    rfl

end Packing

namespace Service

variable {c : Compressor} {s s' : Service}

structure Sound (c : Compressor) (s : Service) : Prop where
  like : c.Like s.compressor
  shift : ∀ shift, s.shift = some shift → ∃ pool : Pool, 0 < pool.workers ∧ 0 < pool.slots ∧ shift.Sound pool
  packings : ∀ p ∈ s.packings, p.Sound c s.shift

theorem new_sound (c : Compressor) : (new c).Sound c where
  like := .refl c
  shift := fun _ h => by cases h
  packings := fun _ h => by cases h

/-- Between pools, all calls have returned. -/
theorem Sound.change (hs : s.Sound c) (hquiet : s.Quiet) (shift : Option Shift) :
    ∀ p ∈ s.packings, p.Sound c shift := by
  intro p hp
  obtain ⟨packed, hreturned⟩ := hquiet p hp
  have hsound := hs.packings p hp
  generalize s.shift = old at hsound
  cases hsound with
  | dispatched => cases hreturned
  | returned => exact .returned

variable (hpos : 0 < c.chunkSize) (hmost : c.chunkSize ≤ maxBlockSize)
include hpos hmost

theorem Step.sound (h : s.Step s') (hs : s.Sound c) : s'.Sound c := by
  have hlike := hs.like
  have hchunk := hlike.chunkSize_eq
  have hvariant := hlike.variant_eq
  cases h with
  | start hquiet hstopped hpool =>
    obtain ⟨hworkers, hslots, rfl⟩ := Pool.new_eq_ok (Compressor.start_pool hstopped hpool)
    refine ⟨hlike.trans (s.compressor.start_like), ?_, hs.change hquiet _⟩
    intro shift hshift
    cases hshift
    exact ⟨_, hworkers, hslots, Shift.new_sound rfl⟩
  | stop hquiet =>
    refine ⟨hlike.trans (s.compressor.stop_like), ?_, hs.change hquiet _⟩
    intro shift hshift
    cases hshift
  | pack hdirect =>
    refine ⟨hlike, hs.shift, ?_⟩
    simp only [List.forall_mem_append, List.forall_mem_singleton]
    rw [Compressor.compress_eq_packAlone (hchunk ▸ hpos) (hchunk ▸ hmost), hchunk, hvariant]
    exact ⟨hs.packings, .returned⟩
  | @dispatch shift input level o hshift hcuts =>
    obtain ⟨pool, hworkers, hslots, hsound⟩ := hs.shift shift hshift
    have hpackings := hs.packings
    rw [hshift] at hpackings
    have hbegun := shift.begun_call (c.jobs o input)
    rw [hlike.jobs_eq]
    refine ⟨⟨hchunk, hvariant⟩, ?_, ?_⟩
    · intro shift' hshift'
      cases hshift'
      exact ⟨pool, hworkers, hslots, hsound.call _⟩
    · simp only [List.forall_mem_append, List.forall_mem_singleton]
      refine ⟨fun p hp => (hpackings p hp).extend ⟨_, hbegun.symm⟩, .dispatched (hcuts.of_like hlike) ?_⟩
      rw [hbegun, ← shift.length_begun, List.getElem?_concat_length]
  | @work shift shift' hshift hadvance =>
    obtain ⟨pool, hworkers, hslots, hsound⟩ := hs.shift shift hshift
    have hpackings := hs.packings
    rw [hshift] at hpackings
    refine ⟨hlike, ?_, fun p hp => (hpackings p hp).extend (hadvance.begun_eq ▸ List.prefix_rfl)⟩
    intro shift'' hshift''
    cases hshift''
    exact ⟨pool, hworkers, hslots, hadvance.sound hsound⟩
  | @join shift before after input level ticket jobs posted answer hshift hpackings hbatch =>
    obtain ⟨pool, _, _, hsound⟩ := hs.shift shift hshift
    have hall := hs.packings
    rw [hpackings] at hall
    refine ⟨hlike, hs.shift, forall_mem_middle hall ?_⟩
    intro hp
    rw [hshift] at hp ⊢
    cases hp with
    | @dispatched _ _ _ _ o hcuts hticket =>
      have hsame := hticket.symm.trans (shift.begun_of_batch hbatch)
      have hjobs : c.jobs o input = jobs := eq_of_heq (Sigma.mk.inj (Option.some.inj hsame)).2
      have hanswer : answer = .ok (jobs.map fun job => job ()) :=
        ((hsound.batches _ (List.mem_of_getElem? hbatch)).answered answer rfl).1
      rw [hanswer, ← hjobs, hlike.join_eq, Compressor.join_eq_packAlone hpos hmost hcuts]
      exact .returned

theorem Reaches.sound (h : s.Reaches s') (hs : s.Sound c) : s'.Sound c := by
  induction h with
  | refl => exact hs
  | tail _ hstep ih => exact hstep.sound hpos hmost ih

/-- Once the pool has answered all of its calls, each call that waits for it can return. -/
theorem Sound.joins (hs : s.Sound c) {shift : Shift} (hshift : s.shift = some shift)
    (hanswered : ∀ b ∈ shift.batches, b.answer ≠ none) (before : List Packing) {after : List Packing}
    (hpackings : s.packings = before ++ after) (hbefore : ∀ p ∈ before, ∃ packed, p.progress = .returned packed) :
    ∃ s', s.Reaches s' ∧ s'.Quiet ∧ s'.requests = s.requests := by
  induction after generalizing s before with
  | nil =>
    refine ⟨s, .refl, ?_, rfl⟩
    rw [Quiet, hpackings, List.append_nil]
    exact hbefore
  | cons p after ih =>
    obtain ⟨input, level, progress⟩ := p
    cases progress with
    | returned packed =>
      refine ih hs hshift (before ++ [⟨input, level, .returned packed⟩]) ?_ ?_
      · rw [hpackings, List.append_assoc]
        rfl
      · simp only [List.forall_mem_append, List.forall_mem_singleton]
        exact ⟨hbefore, packed, rfl⟩
    | dispatched ticket =>
      have hp := hs.packings ⟨input, level, .dispatched ticket⟩ (hpackings ▸ List.mem_append_right _ List.mem_cons_self)
      rw [hshift] at hp
      cases hp with
      | dispatched hcuts hticket =>
        obtain ⟨posted, answer, hbatch⟩ := shift.batch_of_begun hticket hanswered
        have hstep : s.Step _ := .join hshift hpackings hbatch
        have hreturned : ∀ p ∈ before ++ [⟨input, level, .returned (s.compressor.join input answer)⟩],
            ∃ packed, p.progress = .returned packed := by
          simp only [List.forall_mem_append, List.forall_mem_singleton]
          exact ⟨hbefore, _, rfl⟩
        obtain ⟨s', hreaches, hquiet, hrequests⟩ :=
          ih (hstep.sound hpos hmost hs) hshift _ (List.append_cons before _ after) hreturned
        refine ⟨s', hreaches.head hstep, hquiet, hrequests.trans ?_⟩
        simp only [requests, hpackings, List.map_append, List.map_cons]

theorem Sound.completes (hs : s.Sound c) : ∃ s', s.Reaches s' ∧ s'.Quiet ∧ s'.requests = s.requests := by
  cases hshift : s.shift with
  | none =>
    refine ⟨s, .refl, ?_, rfl⟩
    intro p hp
    have hsound := hs.packings p hp
    rw [hshift] at hsound
    cases hsound with
    | returned => exact ⟨_, rfl⟩
  | some shift =>
    obtain ⟨pool, hworkers, hslots, hsound⟩ := hs.shift shift hshift
    obtain ⟨shift', hadvances, hanswered⟩ := hsound.completes hworkers hslots
    have hreaches : s.Reaches { s with shift := some shift' } := by
      clear hanswered
      induction hadvances with
      | refl => rw [← hshift]
      | tail _ hadvance ih => exact ih.tail (.work rfl hadvance)
    obtain ⟨s', hjoins, hquiet, hrequests⟩ := (hreaches.sound hpos hmost hs).joins hpos hmost rfl hanswered
      [] rfl (fun _ h => by cases h)
    exact ⟨s', hreaches.trans hjoins, hquiet, hrequests⟩

end Service

/-- Nobody can tell from what a pool answers, or from what a compressor makes of an input, in which order
the jobs went through it, what else went through it, and by how many workers. -/
theorem scheduling_never_shows {workers slots : Nat} {pool : Pool} (hpool : Pool.new workers slots = .ok pool)
    {workers' chunkSize : Nat} {variant : Variant} {c : Compressor}
    (hc : Compressor.new workers' chunkSize variant = .ok c) :
    (∀ s, (Shift.new pool).Reaches s →
      s.crew.pool.idle + s.inFlight = slots ∧ s.inFlight ≤ slots ∧
      (∀ b ∈ s.batches, ∀ answer, b.answer = some answer → ∃ results,
        answer = .ok results ∧ results = (pool.runOrdered b.jobs).1.toList ∧ results.length = b.jobs.length ∧
        ∀ (i : Nat) (job : Job b.Result), b.jobs[i]? = some job → results[i]? = some (job ())) ∧
      ((∀ b ∈ s.batches, b.answer ≠ none) → s.crew.pool.idle = slots) ∧
      ∃ s', Relation.ReflTransGen Shift.Advance s s' ∧ ∀ b ∈ s'.batches, b.answer ≠ none) ∧
    (∀ (history : List Compressor.Action) (input : ByteArray) (level : Nat),
      ((history.foldl Compressor.perform c).compress input level).1 = Compressor.packAlone chunkSize variant input level) ∧
    ∀ s, (Service.new c).Reaches s →
      (∀ p ∈ s.packings, ∀ packed, p.progress = .returned packed →
        packed = Compressor.packAlone chunkSize variant p.input p.level) ∧
      ∃ s', s.Reaches s' ∧ s'.Quiet ∧ s'.requests = s.requests := by
  obtain ⟨hworkers, hslots, rfl⟩ := Pool.new_eq_ok hpool
  obtain ⟨hleast, hmost, hchunk, hvariant⟩ := Compressor.new_eq_ok hc
  have hpos : 0 < c.chunkSize := by
    rw [minBlockSize] at hleast
    omega
  rw [← hchunk] at hmost ⊢
  rw [← hvariant]
  refine ⟨?_, ?_, ?_⟩
  · intro s hs
    have hsound := hs.sound (Shift.new_sound rfl)
    have hgate := hsound.gate
    refine ⟨hgate, Nat.le.intro ((Nat.add_comm _ _).trans hgate), ?_, ?_, hsound.completes hworkers hslots⟩
    · intro b hb answer hanswer
      refine ⟨_, ((hsound.batches b hb).answered answer hanswer).1, ?_, List.length_map _, ?_⟩
      · rw [Pool.runOrdered, Pool.runFrom_toList]
        rfl
      · intro i job hjob
        rw [List.getElem?_map, hjob]
        rfl
    · intro hall
      have hnone := hsound.inFlight_eq_zero hall
      change _ = slots at hgate
      omega
  · intro history input level
    have hlike := c.history_like history
    rw [Compressor.compress_eq_packAlone (hlike.chunkSize_eq ▸ hpos) (hlike.chunkSize_eq ▸ hmost),
      hlike.chunkSize_eq, hlike.variant_eq]
  · intro s hs
    have hsound := hs.sound hpos hmost (Service.new_sound c)
    exact ⟨fun p hp _ hpacked => (hsound.packings p hp).packed_eq hpacked, hsound.completes hpos hmost⟩

/-- Two calls share one slot, and a job of the first breaks off. A long input goes through the pool of a
compressor that was asked for too many workers. -/
theorem scheduling_never_shows_of_broken_job :
    (∃ s, (Shift.new ⟨2, 1, 1⟩).Reaches s ∧ s.crew.pool.idle = 1 ∧
      s.begun = [⟨Nat, [fun _ => .ok 1, fun _ => .error .overflow, fun _ => .ok 3]⟩, ⟨Bool, [fun _ => .ok true]⟩] ∧
      ∀ b ∈ s.batches, ∃ results, b.answer = some (.ok results) ∧ results.length = b.jobs.length) ∧
    ∃ c s, Compressor.new 300 16 .improved = .ok c ∧ (Service.new c).Reaches s ∧
      s.requests = [(⟨Array.replicate 5000 7⟩, 4)] ∧ ∀ p ∈ s.packings,
        p.progress = .returned (Compressor.packAlone 16 .improved p.input p.level) := by
  have hpool : Pool.new 2 1 = .ok ⟨2, 1, 1⟩ := rfl
  have hc : Compressor.new 300 16 .improved = .ok ⟨200, 16, .improved, none, [.workersClamped 300 200]⟩ := rfl
  obtain ⟨hshift, _, hservice⟩ := scheduling_never_shows hpool hc
  refine ⟨?_, ?_⟩
  · have hcalls : (Shift.new ⟨2, 1, 1⟩).Reaches
        (((Shift.new ⟨2, 1, 1⟩).call [fun _ => .ok 1, fun _ => .error .overflow, fun _ => .ok 3]).call
          [fun _ => .ok true]) :=
      .tail (.single (.call (α := Nat) _)) (.call (α := Bool) _)
    obtain ⟨_, _, _, _, s, hadvances, hanswered⟩ := hshift _ hcalls
    have hs := hcalls.trans (Shift.reaches_of_advances hadvances)
    obtain ⟨_, _, hanswers, hidle, _⟩ := hshift s hs
    refine ⟨s, hs, hidle hanswered, Shift.begun_eq_of_advances hadvances, ?_⟩
    intro b hb
    obtain ⟨answer, hanswer⟩ := Option.ne_none_iff_exists'.mp (hanswered b hb)
    obtain ⟨results, rfl, _, hlength, _⟩ := hanswers b hb answer hanswer
    exact ⟨results, hanswer, hlength⟩
  · have hsize : (⟨Array.replicate 5000 7⟩ : ByteArray).size = 5000 := Array.size_replicate
    have hcuts : (Compressor.start ⟨200, 16, .improved, none, [.workersClamped 300 200]⟩).Cuts
        ⟨Array.replicate 5000 7⟩ 4 ⟨⟨4, by decide, by decide⟩, .improved⟩ :=
      ⟨rfl, rfl, by rw [hsize]; decide, by rw [hsize]; decide, by rw [hsize]; decide⟩
    have hstarted : (Service.new ⟨200, 16, .improved, none, [.workersClamped 300 200]⟩).Step
        ⟨Compressor.start ⟨200, 16, .improved, none, [.workersClamped 300 200]⟩, some (.new ⟨200, 400, 400⟩), []⟩ :=
      .start (fun _ h => by cases h) rfl rfl
    have hdispatched := Relation.ReflTransGen.tail (.single hstarted) (.dispatch rfl hcuts)
    obtain ⟨_, s, hreaches, hquiet, hrequests⟩ := hservice _ hdispatched
    have hs := hdispatched.trans hreaches
    refine ⟨_, s, hc, hs, hrequests, ?_⟩
    intro p hp
    obtain ⟨packed, hpacked⟩ := hquiet p hp
    rw [hpacked, (hservice s hs).1 p hp packed hpacked]

end LempelZiv
