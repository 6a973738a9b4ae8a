import Mathlib.Logic.Relation
import LempelZiv.Proofs.ParallelRoundTrip

namespace LempelZiv

/-- How far a job has come since it was let in. -/
inductive Stage (α : Type) where
  | waiting
  | running
  | ran (result : Except Fault α)
  | sent
  | ended

namespace Stage

variable {α : Type}

/-- A job holds its slot until it has ended, also when it broke off. -/
def slots : Stage α → Nat
  | ended => 0
  | _ => 1

def workers : Stage α → Nat
  | waiting | ended => 0
  | _ => 1

/-- The number of steps to the end. -/
def left : Stage α → Nat
  | waiting => 4
  | running => 3
  | ran _ => 2
  | sent => 1
  | ended => 0

end Stage

/-- What all calls share: the gate of the pool, and the number of its workers that are at a job. -/
structure Crew where
  pool : Pool
  busy : Nat

/-- A job that was let in, with the mailbox that takes its one result. -/
structure Posted (α : Type) where
  job : Job α
  stage : Stage α := .waiting
  mailbox : Option (Except Fault α) := none

/-- One job goes one step further. It takes a worker to run it, room in the mailbox to send its result, and
room in the gate to hand its slot back. -/
inductive Posted.Step {α : Type} : Crew → Posted α → Crew → Posted α → Prop
  | take {pool : Pool} {busy : Nat} {job : Job α} {mailbox : Option (Except Fault α)} (hfree : busy < pool.workers) :
      Step ⟨pool, busy⟩ ⟨job, .waiting, mailbox⟩ ⟨pool, busy + 1⟩ ⟨job, .running, mailbox⟩
  | run {crew : Crew} {job : Job α} {mailbox : Option (Except Fault α)} :
      Step crew ⟨job, .running, mailbox⟩ crew ⟨job, .ran (job ()), mailbox⟩
  | send {crew : Crew} {job : Job α} {result : Except Fault α} :
      Step crew ⟨job, .ran result, none⟩ crew ⟨job, .sent, some result⟩
  | leave {pool : Pool} {busy : Nat} {job : Job α} {mailbox : Option (Except Fault α)}
      (hroom : pool.idle < pool.slots) :
      Step ⟨pool, busy + 1⟩ ⟨job, .sent, mailbox⟩ ⟨pool.release, busy⟩ ⟨job, .ended, mailbox⟩

/-- A call that runs its jobs in order: those it has let in, the first first, and what it returned once it has. -/
structure Batch where
  Result : Type
  jobs : List (Job Result)
  posted : List (Posted Result)
  answer : Option (Except Error (List (Except Fault Result)))

namespace Batch

def new {α : Type} (jobs : List (Job α)) : Batch := ⟨α, jobs, [], none⟩

/-- Takes the results out of the mailboxes. -/
def receive {α : Type} : (i : Nat) → List (Posted α) → Except Error (List (Except Fault α))
  | _, [] => .ok []
  | i, p :: ps =>
    match p.mailbox with
    | some result => (receive (i + 1) ps).map (result :: ·)
    | none => .error (.worker i)

/-- The calling thread lets the next job in when there is a slot for it, and returns when all jobs have ended. -/
inductive Step : Crew → Batch → Crew → Batch → Prop
  | enter {crew : Crew} {b : Batch} {job : Job b.Result} {later : List (Job b.Result)} (hopen : b.answer = none)
      (hnext : b.jobs = b.posted.map Posted.job ++ job :: later) (hidle : 0 < crew.pool.idle) :
      Step crew b ⟨crew.pool.enter, crew.busy⟩ { b with posted := b.posted ++ [{ job }] }
  | work {crew crew' : Crew} {b : Batch} {before after : List (Posted b.Result)} {p p' : Posted b.Result}
      (hposted : b.posted = before ++ p :: after) (hstep : p.Step crew crew' p') :
      Step crew b crew' { b with posted := before ++ p' :: after }
  | finish {crew : Crew} {b : Batch} (hopen : b.answer = none) (hall : b.jobs = b.posted.map Posted.job)
      (hended : ∀ p ∈ b.posted, p.stage.slots = 0) :
      Step crew b crew { b with answer := some (receive 0 b.posted) }

/-- The admitted jobs that have not ended. -/
def inFlight (b : Batch) : Nat := (b.posted.map fun p => p.stage.slots).sum

def atWork (b : Batch) : Nat := (b.posted.map fun p => p.stage.workers).sum

def left (b : Batch) : Nat :=
  5 * (b.jobs.length - b.posted.length) + (b.posted.map fun p => p.stage.left).sum + if b.answer.isNone then 1 else 0

end Batch

/-- A pool and all the calls that share it, from the first on. -/
structure Shift where
  crew : Crew
  batches : List Batch

namespace Shift

def new (pool : Pool) : Shift := ⟨⟨pool, 0⟩, []⟩

def inFlight (s : Shift) : Nat := (s.batches.map Batch.inFlight).sum

def atWork (s : Shift) : Nat := (s.batches.map Batch.atWork).sum

def left (s : Shift) : Nat := (s.batches.map Batch.left).sum

/-- The jobs of each call, in the order of the calls. -/
def begun (s : Shift) : List (Σ α, List (Job α)) := s.batches.map fun b => ⟨b.Result, b.jobs⟩

def call (s : Shift) {α : Type} (jobs : List (Job α)) : Shift := { s with batches := s.batches ++ [Batch.new jobs] }

/-- One of the calls goes on. -/
inductive Advance : Shift → Shift → Prop
  | mk {crew crew' : Crew} {before after : List Batch} {b b' : Batch} (hstep : b.Step crew crew' b') :
      Advance ⟨crew, before ++ b :: after⟩ ⟨crew', before ++ b' :: after⟩

/-- One of the calls goes on, or there is a new one. -/
inductive Step : Shift → Shift → Prop
  | call {s : Shift} {α : Type} (jobs : List (Job α)) : Step s (s.call jobs)
  | advance {s s' : Shift} (h : s.Advance s') : Step s s'

abbrev Reaches : Shift → Shift → Prop := Relation.ReflTransGen Step

end Shift

/-- What a step takes from the crew stands behind its jobs. -/
structure Crew.Balance (crew crew' : Crew) (slots slots' workers workers' : Nat) : Prop where
  workers_eq : crew'.pool.workers = crew.pool.workers
  slots_eq : crew'.pool.slots = crew.pool.slots
  gate : crew'.pool.idle + slots' = crew.pool.idle + slots
  hands : crew'.busy + workers = crew.busy + workers'
  enough : crew.busy ≤ crew.pool.workers → crew'.busy ≤ crew.pool.workers

theorem Crew.Balance.frame {crew crew' : Crew} {slots slots' workers workers' : Nat}
    (h : crew.Balance crew' slots slots' workers workers') (moreSlots moreWorkers : Nat) :
    crew.Balance crew' (slots + moreSlots) (slots' + moreSlots) (workers + moreWorkers) (workers' + moreWorkers) := by
  have hgate := h.gate
  have hhands := h.hands
  exact { h with gate := by omega, hands := by omega }

theorem Crew.Balance.rfl {crew : Crew} {slots workers : Nat} : crew.Balance crew slots slots workers workers where
  workers_eq := Eq.refl _
  slots_eq := Eq.refl _
  gate := Eq.refl _
  hands := Eq.refl _
  enough := id

namespace Posted

variable {α : Type} {crew crew' : Crew} {p p' : Posted α}

/-- The result of a job goes unchanged into its mailbox. -/
def Sound (p : Posted α) : Prop :=
  match p.stage with
  | .waiting | .running => p.mailbox = none
  | .ran result => p.mailbox = none ∧ result = p.job ()
  | .sent | .ended => p.mailbox = some (p.job ())

theorem Step.balance (h : p.Step crew crew' p') :
    crew.Balance crew' p.stage.slots p'.stage.slots p.stage.workers p'.stage.workers := by
  cases h with
  | take hfree => exact ⟨rfl, rfl, rfl, rfl, fun _ => hfree⟩
  | run => exact .rfl
  | send => exact .rfl
  | leave hroom => exact ⟨rfl, rfl, rfl, rfl, Nat.le_of_succ_le⟩

theorem Step.left_eq (h : p.Step crew crew' p') : p'.stage.left + 1 = p.stage.left := by
  cases h <;> rfl

theorem Step.job_eq (h : p.Step crew crew' p') : p'.job = p.job := by
  cases h <;> rfl

theorem Step.slots_eq (h : p.Step crew crew' p') : p.stage.slots = 1 := by
  cases h <;> rfl

theorem Step.sound (h : p.Step crew crew' p') (hp : p.Sound) : p'.Sound := by
  cases h with
  | take => exact hp
  | run => exact ⟨hp, rfl⟩
  | send => exact congrArg some hp.2
  | leave => exact hp

theorem Sound.mailbox_eq (hp : p.Sound) (h : p.stage.slots = 0) : p.mailbox = some (p.job ()) := by
  obtain ⟨job, stage, mailbox⟩ := p
  cases stage with
  | ended => exact hp
  | _ => cases h

/-- A job that has a worker never waits: its mailbox is empty, and there is room for its slot. -/
theorem Sound.goes_on (hp : p.Sound) (hworker : p.stage.workers ≠ 0) (hbusy : 0 < crew.busy)
    (hroom : crew.pool.idle < crew.pool.slots) : ∃ crew' p', p.Step crew crew' p' := by
  obtain ⟨job, stage, mailbox⟩ := p
  cases stage with
  | waiting => exact absurd rfl hworker
  | running => exact ⟨_, _, .run⟩
  | ran result =>
    cases hp.1
    exact ⟨_, _, .send⟩
  | sent =>
    obtain ⟨pool, busy⟩ := crew
    cases busy with
    | zero => cases hbusy
    | succ busy => exact ⟨_, _, .leave hroom⟩
  | ended => exact absurd rfl hworker

theorem starts (hworker : p.stage.workers = 0) (hslot : p.stage.slots ≠ 0) (hfree : crew.busy < crew.pool.workers) :
    ∃ crew' p', p.Step crew crew' p' := by
  obtain ⟨job, stage, mailbox⟩ := p
  cases stage with
  | waiting => exact ⟨_, _, .take hfree⟩
  | ended => exact absurd rfl hslot
  | _ => cases hworker

end Posted

theorem sum_map_middle {α : Type _} (f : α → Nat) (before after : List α) (a : α) :
    ((before ++ a :: after).map f).sum = f a + ((before ++ after).map f).sum := by
  simp only [List.map_append, List.map_cons, List.sum_append, List.sum_cons]
  omega

theorem forall_mem_middle {α : Type _} {P : α → Prop} {before after : List α} {a a' : α}
    (h : ∀ x ∈ before ++ a :: after, P x) (ha : P a → P a') : ∀ x ∈ before ++ a' :: after, P x := by
  simp only [List.forall_mem_append, List.forall_mem_cons] at h ⊢
  exact ⟨h.1, ha h.2.1, h.2.2⟩

namespace Batch

variable {crew crew' : Crew} {b b' : Batch}

/-- The jobs are let in in their order, and the answer has their results in that order. -/
structure Sound (b : Batch) : Prop where
  posted : ∀ p ∈ b.posted, p.Sound
  inOrder : b.posted.map Posted.job <+: b.jobs
  answered : ∀ answer, b.answer = some answer → answer = .ok (b.jobs.map fun job => job ()) ∧ b.inFlight = 0

theorem inFlight_eq_zero : b.inFlight = 0 ↔ ∀ p ∈ b.posted, p.stage.slots = 0 := by
  rw [inFlight, List.sum_eq_zero_iff_forall_eq_nat, List.forall_mem_map]

@[simp] theorem new_inFlight {α : Type} (jobs : List (Job α)) : (new jobs).inFlight = 0 := rfl

@[simp] theorem new_atWork {α : Type} (jobs : List (Job α)) : (new jobs).atWork = 0 := rfl

theorem new_sound {α : Type} (jobs : List (Job α)) : (new jobs).Sound where
  posted := fun _ h => by cases h
  inOrder := List.nil_prefix
  answered := fun _ h => by cases h

theorem receive_ok {α : Type} (i : Nat) {ps : List (Posted α)} (h : ∀ p ∈ ps, p.mailbox = some (p.job ())) :
    receive i ps = .ok (ps.map fun p => p.job ()) := by
  induction ps generalizing i with
  | nil => rfl
  | cons p ps ih =>
    rw [receive, h p List.mem_cons_self, ih (i + 1) fun q hq => h q (List.mem_cons_of_mem p hq)]
    rfl

theorem Step.balance (h : b.Step crew crew' b') :
    crew.Balance crew' b.inFlight b'.inFlight b.atWork b'.atWork := by
  cases h with
  | enter hopen hnext hidle =>
    refine ⟨rfl, rfl, ?_, ?_, id⟩
    · simp only [inFlight, sum_map_middle, List.append_nil, Pool.enter, Stage.slots]
      omega
    · simp only [atWork, sum_map_middle, List.append_nil, Stage.workers, Nat.zero_add]
  | work hposted hstep =>
    simp only [inFlight, atWork, hposted, sum_map_middle]
    exact hstep.balance.frame _ _
  | finish => exact .rfl

/-- What is left to do gets less with every step, whoever takes it. -/
theorem Step.left_eq (h : b.Step crew crew' b') : b'.left + 1 = b.left := by
  cases h with
  | @enter _ job later hopen hnext hidle =>
    have hlength : b.jobs.length = b.posted.length + (later.length + 1) := by
      rw [hnext, List.length_append, List.length_map, List.length_cons]
    simp only [left, sum_map_middle, List.append_nil, List.length_append, List.length_singleton, hlength,
      Stage.left]
    omega
  | @work _ _ before after p p' hposted hstep =>
    have hleft := hstep.left_eq
    simp only [left, hposted, sum_map_middle, List.length_append, List.length_cons]
    omega
  | finish hopen hall hended =>
    simp only [left, hopen]
    rfl

theorem Step.keeps (h : b.Step crew crew' b') :
    ∃ posted answer, b' = ⟨b.Result, b.jobs, posted, answer⟩ := by
  cases h <;> exact ⟨_, _, rfl⟩

theorem Step.sound (h : b.Step crew crew' b') (hb : b.Sound) : b'.Sound := by
  cases h with
  | @enter _ job later hopen hnext hidle =>
    refine ⟨?_, ⟨later, ?_⟩, fun _ h => by cases hopen.symm.trans h⟩
    · simp only [List.forall_mem_append, List.forall_mem_singleton]
      exact ⟨hb.posted, rfl⟩
    · simp only [hnext, List.map_append, List.append_assoc]
      rfl
  | @work _ _ before after p p' hposted hstep =>
    have hsound := hb.posted
    have hinOrder := hb.inOrder
    rw [hposted] at hsound hinOrder
    refine ⟨forall_mem_middle hsound hstep.sound, ?_, ?_⟩
    · rw [List.map_append, List.map_cons] at hinOrder ⊢
      rw [hstep.job_eq]
      exact hinOrder
    · intro answer hanswer
      have hended := (hb.answered answer hanswer).2
      rw [inFlight, hposted, sum_map_middle, hstep.slots_eq] at hended
      omega
  | finish hopen hall hended =>
    refine ⟨hb.posted, hb.inOrder, ?_⟩
    intro answer hanswer
    cases hanswer
    refine ⟨?_, inFlight_eq_zero.mpr hended⟩
    rw [receive_ok 0 fun p hp => (hb.posted p hp).mailbox_eq (hended p hp), hall, List.map_map]
    rfl

/-- A call of which every admitted job has ended goes on: it lets a job in, or returns. -/
theorem Sound.goes_on (hb : b.Sound) (hopen : b.answer = none) (hended : b.inFlight = 0)
    (hidle : 0 < crew.pool.idle) : ∃ crew' b', b.Step crew crew' b' := by
  obtain ⟨later, hlater⟩ := hb.inOrder
  cases later with
  | nil =>
    rw [List.append_nil] at hlater
    exact ⟨_, _, .finish hopen hlater.symm (inFlight_eq_zero.mp hended)⟩
  | cons job later => exact ⟨_, _, .enter hopen hlater.symm hidle⟩

theorem step_of_mem {p : Posted b.Result} (hp : p ∈ b.posted) (h : ∃ crew' p', p.Step crew crew' p') :
    ∃ crew' b', b.Step crew crew' b' := by
  obtain ⟨before, after, hposted⟩ := List.append_of_mem hp
  obtain ⟨crew', p', hstep⟩ := h
  exact ⟨_, _, .work hposted hstep⟩

end Batch

namespace Shift

variable {pool : Pool} {s s' : Shift}

/-- The slots that are not idle are those of the jobs in flight, of whichever call. -/
structure Sound (pool : Pool) (s : Shift) : Prop where
  workers_eq : s.crew.pool.workers = pool.workers
  slots_eq : s.crew.pool.slots = pool.slots
  gate : s.crew.pool.idle + s.inFlight = pool.slots
  hands : s.crew.busy = s.atWork
  enough : s.crew.busy ≤ pool.workers
  batches : ∀ b ∈ s.batches, b.Sound

theorem new_sound (h : pool.idle = pool.slots) : (new pool).Sound pool where
  workers_eq := rfl
  slots_eq := rfl
  gate := h
  hands := rfl
  enough := Nat.zero_le _
  batches := fun _ h => by cases h

theorem Advance.sound (h : s.Advance s') (hs : s.Sound pool) : s'.Sound pool := by
  cases h with
  | mk hstep =>
    have hbalance := hstep.balance
    have hgate := hs.gate
    have hhands := hs.hands
    have hkept := hbalance.gate
    have hsame := hbalance.hands
    simp only [inFlight, atWork, sum_map_middle] at hgate hhands
    refine ⟨hbalance.workers_eq.trans hs.workers_eq, hbalance.slots_eq.trans hs.slots_eq, ?_, ?_, ?_, ?_⟩
    · simp only [inFlight, sum_map_middle]
      omega
    · simp only [atWork, sum_map_middle]
      omega
    · have henough := hbalance.enough
      rw [hs.workers_eq] at henough
      exact henough hs.enough
    · exact forall_mem_middle hs.batches hstep.sound

theorem Sound.call (hs : s.Sound pool) {α : Type} (jobs : List (Job α)) : (s.call jobs).Sound pool := by
  refine { hs with gate := ?_, hands := ?_, batches := ?_ }
  · rw [inFlight, Shift.call, sum_map_middle, List.append_nil, Batch.new_inFlight, Nat.zero_add]
    exact hs.gate
  · rw [atWork, Shift.call, sum_map_middle, List.append_nil, Batch.new_atWork, Nat.zero_add]
    exact hs.hands
  · simp only [Shift.call, List.forall_mem_append, List.forall_mem_singleton]
    exact ⟨hs.batches, Batch.new_sound jobs⟩

theorem Step.sound (h : s.Step s') (hs : s.Sound pool) : s'.Sound pool := by
  cases h with
  | call jobs => exact hs.call jobs
  | advance h => exact h.sound hs

theorem Reaches.sound (h : s.Reaches s') (hs : s.Sound pool) : s'.Sound pool := by
  induction h with
  | refl => exact hs
  | tail _ hstep ih => exact hstep.sound ih

theorem advance_of_mem {b : Batch} (hb : b ∈ s.batches) (h : ∃ crew' b', b.Step s.crew crew' b') :
    ∃ s', s.Advance s' := by
  obtain ⟨crew, batches⟩ := s
  obtain ⟨before, after, hbatches⟩ := List.append_of_mem hb
  obtain ⟨crew', b', hstep⟩ := h
  cases hbatches
  exact ⟨_, .mk hstep⟩

theorem Sound.inFlight_eq_zero (hs : s.Sound pool) (hall : ∀ b ∈ s.batches, b.answer ≠ none) : s.inFlight = 0 := by
  rw [inFlight, List.sum_eq_zero_iff_forall_eq_nat, List.forall_mem_map]
  intro b hb
  obtain ⟨answer, hanswer⟩ := Option.ne_none_iff_exists'.mp (hall b hb)
  exact ((hs.batches b hb).answered answer hanswer).2

/-- Whatever the other calls do, as long as one has not returned there is a step that one of them can take. -/
theorem Sound.goes_on (hs : s.Sound pool) (hworkers : 0 < pool.workers) (hslots : 0 < pool.slots)
    {b : Batch} (hb : b ∈ s.batches) (hopen : b.answer = none) : ∃ s', s.Advance s' := by
  have hgate := hs.gate
  by_cases hidle : s.inFlight = 0
  · have hended : b.inFlight = 0 :=
      List.sum_eq_zero_iff_forall_eq_nat.mp hidle _ (List.mem_map_of_mem hb)
    exact advance_of_mem hb ((hs.batches b hb).goes_on hopen hended (by omega))
  obtain ⟨_, hmem, hflight⟩ := List.sum_pos_iff_exists_pos_nat.mp (Nat.pos_of_ne_zero hidle)
  obtain ⟨b, hb, rfl⟩ := List.mem_map.mp hmem
  obtain ⟨_, hmem, hslot⟩ := List.sum_pos_iff_exists_pos_nat.mp hflight
  obtain ⟨p, hp, rfl⟩ := List.mem_map.mp hmem
  by_cases hfree : s.crew.busy = 0
  · have hworker : b.atWork = 0 :=
      List.sum_eq_zero_iff_forall_eq_nat.mp (hs.hands.symm.trans hfree) _ (List.mem_map_of_mem hb)
    have hwaits : p.stage.workers = 0 :=
      List.sum_eq_zero_iff_forall_eq_nat.mp hworker _ (List.mem_map_of_mem hp)
    have hrest : s.crew.busy < s.crew.pool.workers := by
      rw [hs.workers_eq]
      omega
    exact advance_of_mem hb (Batch.step_of_mem hp (Posted.starts hwaits (by omega) hrest))
  · have hbusy := Nat.pos_of_ne_zero hfree
    obtain ⟨_, hmem, hwork⟩ := List.sum_pos_iff_exists_pos_nat.mp (hs.hands ▸ hbusy)
    obtain ⟨b, hb, rfl⟩ := List.mem_map.mp hmem
    obtain ⟨_, hmem, hworker⟩ := List.sum_pos_iff_exists_pos_nat.mp hwork
    obtain ⟨p, hp, rfl⟩ := List.mem_map.mp hmem
    have hroom : s.crew.pool.idle < s.crew.pool.slots := by
      rw [hs.slots_eq]
      omega
    exact advance_of_mem hb (Batch.step_of_mem hp
      (((hs.batches b hb).posted p hp).goes_on (by omega) hbusy hroom))

theorem Advance.left_eq (h : s.Advance s') : s'.left + 1 = s.left := by
  cases h with
  | mk hstep =>
    have hleft := hstep.left_eq
    simp only [left, sum_map_middle]
    omega

theorem length_begun (s : Shift) : s.begun.length = s.batches.length := List.length_map _

theorem begun_of_batch {ticket : Nat} {b : Batch} (h : s.batches[ticket]? = some b) :
    s.begun[ticket]? = some ⟨b.Result, b.jobs⟩ := by
  rw [begun, List.getElem?_map, h]
  rfl

theorem batch_of_begun {ticket : Nat} {α : Type} {jobs : List (Job α)} (h : s.begun[ticket]? = some ⟨α, jobs⟩)
    (hanswered : ∀ b ∈ s.batches, b.answer ≠ none) :
    ∃ posted answer, s.batches[ticket]? = some ⟨α, jobs, posted, some answer⟩ := by
  rw [begun, List.getElem?_map, Option.map_eq_some_iff] at h
  obtain ⟨⟨_, _, posted, answer⟩, hbatch, hsame⟩ := h
  cases hsame
  cases answer with
  | none => exact absurd rfl (hanswered _ (List.mem_of_getElem? hbatch))
  | some answer => exact ⟨posted, answer, hbatch⟩

theorem begun_call (s : Shift) {α : Type} (jobs : List (Job α)) : (s.call jobs).begun = s.begun ++ [⟨α, jobs⟩] :=
  List.map_append

theorem Advance.begun_eq (h : s.Advance s') : s'.begun = s.begun := by
  cases h with
  | mk hstep =>
    obtain ⟨posted, answer, hkeeps⟩ := hstep.keeps
    simp only [begun, List.map_append, List.map_cons, hkeeps]

theorem reaches_of_advances (h : Relation.ReflTransGen Advance s s') : s.Reaches s' :=
  Relation.ReflTransGen.mono (fun _ _ => Step.advance) _ _ h

theorem begun_eq_of_advances (h : Relation.ReflTransGen Advance s s') : s'.begun = s.begun := by
  induction h with
  | refl => rfl
  | tail _ hadvance ih => exact hadvance.begun_eq.trans ih

/-- However the steps are taken, there are only so many of them, and then all calls have returned. -/
theorem Sound.completes (hs : s.Sound pool) (hworkers : 0 < pool.workers) (hslots : 0 < pool.slots) :
    ∃ s', Relation.ReflTransGen Advance s s' ∧ ∀ b ∈ s'.batches, b.answer ≠ none := by
  induction hleft : s.left generalizing s with
  | zero =>
    refine ⟨s, .refl, ?_⟩
    intro b hb hopen
    obtain ⟨s', h⟩ := hs.goes_on hworkers hslots hb hopen
    have hless := h.left_eq
    omega
  | succ n ih =>
    by_cases hall : ∀ b ∈ s.batches, b.answer ≠ none
    · exact ⟨s, .refl, hall⟩
    · simp only [not_forall, not_not] at hall
      obtain ⟨b, hb, hopen⟩ := hall
      obtain ⟨s', h⟩ := hs.goes_on hworkers hslots hb hopen
      obtain ⟨s'', hreaches, hall⟩ := ih (h.sound hs) (Nat.succ.inj (h.left_eq.trans hleft))
      exact ⟨s'', hreaches.head h, hall⟩

end Shift

end LempelZiv
