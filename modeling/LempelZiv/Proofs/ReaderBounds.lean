import LempelZiv.Proofs.Failures

namespace LempelZiv

/-- The most bytes of history that are kept for the next block. -/
def Descriptor.historyLimit (d : Descriptor) : Nat := if d.independent then 0 else linkedHistory

namespace Answer

def isFault : Answer → Bool
  | failed e => e.isFault
  | _ => false

/-- How many bytes were handed out. -/
def size : Answer → Nat
  | gave bytes => bytes.size
  | _ => 0

end Answer

namespace Reader

variable {φ : Type} {r next : Reader φ} {budget : Nat}

theorem size_history_le (r : Reader φ) : r.history.size ≤ r.descriptor.historyLimit := by
  rw [history, Descriptor.historyLimit]
  split
  next => exact Nat.le_refl 0
  next =>
    rw [ByteArray.size_extract]
    omega

/-- What a reader holds never outgrows what its header allows. All the bytes that are decoded, and 255 for each
that is still to be read, stay within the budget that the reader began with. -/
structure Bounded (budget : Nat) (r : Reader φ) : Prop where
  block_le : r.block.size ≤ r.descriptor.blockSize.bytes
  pending_le : r.pending.size ≤ r.descriptor.historyLimit + r.descriptor.blockSize.bytes
  pos_le : r.pos ≤ r.pending.size
  produced_le : r.produced + 255 * r.source.left ≤ budget
  empty_of_fresh : r.phase = .fresh → r.block = ByteArray.empty ∧ r.pending = ByteArray.empty

theorem Bounded.new (source : Source φ) : (new source).Bounded (255 * source.left) where
  block_le := Nat.zero_le _
  pending_le := Nat.zero_le _
  pos_le := Nat.le_refl 0
  produced_le := Nat.le_of_eq (Nat.zero_add _)
  empty_of_fresh := fun _ => ⟨rfl, rfl⟩

theorem Bounded.broken (hr : r.Bounded budget) : r.broken.Bounded budget where
  block_le := hr.block_le
  pending_le := hr.pending_le
  pos_le := Nat.le_refl _
  produced_le := hr.produced_le
  empty_of_fresh := fun h => by cases h

theorem Bounded.advance (hr : r.Bounded budget) (n : Nat) :
    Bounded budget { r with pos := r.pos + min n r.available } where
  block_le := hr.block_le
  pending_le := hr.pending_le
  pos_le := by
    have hle := hr.pos_le
    change r.pos + min n r.available ≤ r.pending.size
    rw [available]
    omega
  produced_le := hr.produced_le
  empty_of_fresh := hr.empty_of_fresh

/-- What can still be handed out at the most. -/
def potential (r : Reader φ) : Nat := r.available + 255 * r.source.left

theorem potential_broken_le (h : next.source.left ≤ r.source.left) : next.broken.potential ≤ r.potential := by
  change next.pending.size - next.pending.size + 255 * next.source.left ≤ r.available + 255 * r.source.left
  omega

/-- An answer that is fit for a reader that can hand out so much: it is no fault, and leaves the reader bounded. -/
structure Fit (budget : Nat) (r : Reader φ) (answer : Answer) (next : Reader φ) : Prop where
  no_fault : answer.isFault = false
  bounded : next.Bounded budget
  size_le : answer.size + next.potential ≤ r.potential

/-- An answer without bytes is fit if the reader that it leaves can hand out no more than before. -/
theorem Fit.of_silent {answer : Answer} (hfault : answer.isFault = false) (hsilent : answer.size = 0)
    (hnext : next.Bounded budget) (hle : next.potential ≤ r.potential) : r.Fit budget answer next where
  no_fault := hfault
  bounded := hnext
  size_le := by
    rw [hsilent, Nat.zero_add]
    exact hle

variable [Feed φ] {e : Error}

theorem Bounded.readHeader_done (hr : r.Bounded budget) (hphase : r.phase = .fresh)
    {h : next.source.left + headerStart ≤ r.source.left} (hdone : r.readHeader = .done () next h) :
    next.Bounded budget ∧ next.potential ≤ r.potential := by
  have hproduced := hr.produced_le
  obtain ⟨hblock, hpending⟩ := hr.empty_of_fresh hphase
  obtain ⟨d, used, s, notices, _, _, rfl⟩ := Reader.readHeader_done hdone
  change s.left + headerStart ≤ r.source.left at h
  refine ⟨⟨?_, ?_, hr.pos_le, ?_, fun h => by cases h⟩, ?_⟩
  · change r.block.size ≤ _
    rw [hblock]
    exact Nat.zero_le _
  · change r.pending.size ≤ _
    rw [hpending]
    exact Nat.zero_le _
  · change r.produced + 255 * s.left ≤ budget
    omega
  · change r.pending.size - r.pos + 255 * s.left ≤ r.pending.size - r.pos + 255 * r.source.left
    omega

theorem Bounded.readHeader_failed (hr : r.Bounded budget) {h : next.source.left ≤ r.source.left}
    (hfailed : r.readHeader = .failed e next h) : next.Bounded budget ∧ next.potential ≤ r.potential := by
  have hproduced := hr.produced_le
  obtain ⟨s, rfl⟩ := Reader.readHeader_failed hfailed
  change s.left ≤ r.source.left at h
  refine ⟨{ hr with produced_le := ?_ }, ?_⟩
  · change r.produced + 255 * s.left ≤ budget
    omega
  · change r.available + 255 * s.left ≤ r.available + 255 * r.source.left
    omega

theorem Bounded.nextBlock_done (hr : r.Bounded budget) {more : Bool} {h : next.source.left + 4 ≤ r.source.left}
    (hdone : r.nextBlock = .done more next h) :
    next.Bounded budget ∧ next.potential ≤ r.potential := by
  have hproduced := hr.produced_le
  cases more with
  | true =>
    obtain ⟨s, block, digest, notices, more, hblock, hfits, hstands, rfl⟩ := nextBlock_block hdone
    have hhistory := r.size_history_le
    have hsize : (r.history ++ more).size = r.history.size + more.size := ByteArray.size_append
    refine ⟨⟨hblock, ?_, ?_, ?_, fun h => by cases h⟩, ?_⟩
    · change (r.history ++ more).size ≤ r.descriptor.historyLimit + r.descriptor.blockSize.bytes
      omega
    · change r.history.size ≤ (r.history ++ more).size
      omega
    · change r.produced + more.size + 255 * s.left ≤ budget
      omega
    · change (r.history ++ more).size - r.history.size + 255 * s.left ≤ r.available + 255 * r.source.left
      omega
  | false =>
    obtain ⟨s, digest, rfl⟩ := nextBlock_end hdone
    change s.left + 4 ≤ r.source.left at h
    refine ⟨⟨hr.block_le, hr.pending_le, hr.pos_le, ?_, fun h => by cases h⟩, ?_⟩
    · change r.produced + 255 * s.left ≤ budget
      omega
    · change r.available + 255 * s.left ≤ r.available + 255 * r.source.left
      omega

theorem Bounded.nextBlock_failed (hr : r.Bounded budget) {h : next.source.left ≤ r.source.left}
    (hfailed : r.nextBlock = .failed e next h) : next.broken.Bounded budget := by
  have hproduced := hr.produced_le
  have hhistory := r.size_history_le
  obtain ⟨_, s, block, digest, pending, pos, rfl, hblock, hpending⟩ := Reader.nextBlock_failed hfailed
  change s.left ≤ r.source.left at h
  refine ⟨?_, ?_, Nat.le_refl _, ?_, fun h => by cases h⟩
  · rcases hblock with rfl | hblock
    · exact hr.block_le
    · exact hblock
  · change pending.size ≤ r.descriptor.historyLimit + r.descriptor.blockSize.bytes
    rcases hpending with ⟨rfl, _⟩ | ⟨rfl, _⟩
    · exact hr.pending_le
    · omega
  · change r.produced + 255 * s.left ≤ budget
    omega

/-- The loop that looks for bytes to hand out goes on over so many blocks that leave it without any. -/
inductive Passes : Reader φ → Nat → Reader φ → Prop
  | refl {r : Reader φ} : Passes r 0 r
  | pass {r next last : Reader φ} {k : Nat} {h : next.source.left + 4 ≤ r.source.left} (hempty : r.available = 0)
      (hgoing : r.phase ≠ .ended) (hblock : r.nextBlock = .done true next h) (hpasses : Passes next k last) :
      Passes r (k + 1) last

/-- How that loop ends at `r` when up to `n` bytes are asked for. -/
inductive Settles (n : Nat) (r : Reader φ) : Answer → Reader φ → Prop
  | gave (havailable : 0 < r.available) :
      Settles n r (.gave (r.pending.extract r.pos (r.pos + min n r.available)))
        { r with pos := r.pos + min n r.available }
  | ended (hempty : r.available = 0) (hended : r.phase = .ended) : Settles n r (.gave ByteArray.empty) r
  | last {next : Reader φ} {h : next.source.left + 4 ≤ r.source.left} (hempty : r.available = 0)
      (hgoing : r.phase ≠ .ended) (hblock : r.nextBlock = .done false next h) :
      Settles n r (.gave ByteArray.empty) next
  | failed {next : Reader φ} {h : next.source.left ≤ r.source.left} {e : Error} (hempty : r.available = 0)
      (hgoing : r.phase ≠ .ended) (hblock : r.nextBlock = .failed e next h) : Settles n r (.failed e) next.broken

/-- Where that loop begins: behind the header, which is read if it has not been. -/
inductive Starts (r : Reader φ) : Reader φ → Prop
  | ready (hphase : r.phase = .begun ∨ r.phase = .ended) : Starts r r
  | header {next : Reader φ} {h : next.source.left + headerStart ≤ r.source.left} (hphase : r.phase = .fresh)
      (hheader : r.readHeader = .done () next h) : Starts r next

theorem serve_settles {origin : Reader φ} {n : Nat} {hn : 0 < n}
    {h : r.source.left < origin.source.left ∨
      r.source.left ≤ origin.source.left ∧ r.available ≤ origin.available} :
    ∃ k last, r.Passes k last ∧ last.Settles n (serve origin r n hn h).answer (serve origin r n hn h).next := by
  fun_induction serve origin r n hn h with
  | case1 r h havailable => exact ⟨0, r, .refl, .gave havailable⟩
  | case2 r h hempty hended => exact ⟨0, r, .refl, .ended (Nat.eq_zero_of_not_pos hempty) hended⟩
  | case3 r h hempty hgoing e next h' hblock =>
    exact ⟨0, r, .refl, .failed (Nat.eq_zero_of_not_pos hempty) hgoing hblock⟩
  | case4 r h hempty hgoing next h' hblock =>
    exact ⟨0, r, .refl, .last (Nat.eq_zero_of_not_pos hempty) hgoing hblock⟩
  | case5 r h hempty hgoing next h' hblock ih =>
    obtain ⟨k, last, hpasses, hsettles⟩ := ih
    exact ⟨k + 1, last, .pass (Nat.eq_zero_of_not_pos hempty) hgoing hblock hpasses, hsettles⟩

/-- A read is refused, or finds no header, or goes through the loop. -/
theorem read_settles (r : Reader φ) {n : Nat} (hn : 0 < n) :
    (r.phase = .failed ∧ (r.ask (.read n)) = (.failed (.frame .failedEarlier), r.broken)) ∨
    (∃ e next h, r.phase = .fresh ∧ r.readHeader = .failed e next h ∧
      r.ask (.read n) = (.failed e, next.broken)) ∨
    ∃ start k last, r.Starts start ∧ start.Passes k last ∧
      last.Settles n (r.ask (.read n)).1 (r.ask (.read n)).2 := by
  rw [ask, read, dif_pos hn]
  split
  next hphase => exact .inl ⟨hphase, rfl⟩
  next hphase =>
    obtain ⟨k, last, hpasses, hsettles⟩ := @serve_settles φ r _ r n hn (.inr ⟨Nat.le_refl _, Nat.le_refl _⟩)
    exact .inr (.inr ⟨r, k, last, .ready (.inl hphase), hpasses, hsettles⟩)
  next hphase =>
    obtain ⟨k, last, hpasses, hsettles⟩ := @serve_settles φ r _ r n hn (.inr ⟨Nat.le_refl _, Nat.le_refl _⟩)
    exact .inr (.inr ⟨r, k, last, .ready (.inr hphase), hpasses, hsettles⟩)
  next hphase =>
    split
    next e next h hheader => exact .inr (.inl ⟨e, next, h, hphase, hheader, rfl⟩)
    next start h hheader =>
      have hless : start.source.left < r.source.left := Nat.lt_of_lt_of_le (Nat.lt_add_of_pos_right (by decide)) h
      obtain ⟨k, last, hpasses, hsettles⟩ := @serve_settles φ start _ r n hn (.inl hless)
      exact .inr (.inr ⟨start, k, last, .header hphase hheader, hpasses, hsettles⟩)

theorem Starts.bounded {start : Reader φ} (h : r.Starts start) (hr : r.Bounded budget) :
    start.Bounded budget ∧ start.potential ≤ r.potential := by
  cases h with
  | ready => exact ⟨hr, Nat.le_refl _⟩
  | header hphase hheader => exact hr.readHeader_done hphase hheader

theorem Starts.left_le {start : Reader φ} (h : r.Starts start) : start.source.left ≤ r.source.left := by
  cases h with
  | ready => exact Nat.le_refl _
  | header => omega

/-- The source runs out before that loop can go on forever. -/
theorem Passes.left_le {k : Nat} {last : Reader φ} (h : r.Passes k last) :
    last.source.left + 4 * k ≤ r.source.left := by
  induction h with
  | refl => exact Nat.le_refl _
  | pass => omega

theorem Passes.bounded {k : Nat} {last : Reader φ} (h : r.Passes k last) (hr : r.Bounded budget) :
    last.Bounded budget ∧ last.potential ≤ r.potential := by
  induction h with
  | refl => exact ⟨hr, Nat.le_refl _⟩
  | pass hempty hgoing hblock hpasses ih =>
    obtain ⟨hnext, hle⟩ := hr.nextBlock_done hblock
    obtain ⟨hlast, hle'⟩ := ih hnext
    exact ⟨hlast, Nat.le_trans hle' hle⟩

theorem Settles.fit {n : Nat} {answer : Answer} (h : r.Settles n answer next) (hr : r.Bounded budget) :
    r.Fit budget answer next := by
  cases h with
  | gave havailable =>
    refine ⟨rfl, hr.advance n, ?_⟩
    have hle := hr.pos_le
    change (r.pending.extract r.pos (r.pos + min n r.available)).size +
      (r.pending.size - (r.pos + min n r.available) + 255 * r.source.left) ≤ r.available + 255 * r.source.left
    rw [ByteArray.size_extract, available]
    omega
  | ended => exact .of_silent rfl rfl hr (Nat.le_refl _)
  | last hempty hgoing hblock =>
    obtain ⟨hnext, hle⟩ := hr.nextBlock_done hblock
    exact .of_silent rfl rfl hnext hle
  | @failed next h e hempty hgoing hblock =>
    exact .of_silent (Reader.nextBlock_failed hblock).1 rfl (hr.nextBlock_failed hblock) (potential_broken_le h)

theorem ask_fit (hr : r.Bounded budget) (q : Request) : r.Fit budget (r.ask q).1 (r.ask q).2 := by
  cases q with
  | info =>
    cases hphase : r.phase with
    | failed =>
      rw [ask, info, hphase]
      exact .of_silent rfl rfl hr (Nat.le_refl _)
    | begun =>
      rw [ask, info, hphase]
      exact .of_silent rfl rfl hr (Nat.le_refl _)
    | ended =>
      rw [ask, info, hphase]
      exact .of_silent rfl rfl hr (Nat.le_refl _)
    | fresh =>
      rw [ask, info, hphase]
      simp only
      cases hheader : r.readHeader with
      | done u next h =>
        obtain ⟨hnext, hle⟩ := hr.readHeader_done hphase hheader
        exact .of_silent rfl rfl hnext hle
      | failed e next h =>
        obtain ⟨hnext, hle⟩ := hr.readHeader_failed hheader
        exact .of_silent (readHeader_error hheader) rfl hnext hle
  | read n =>
    by_cases hn : 0 < n
    · rcases r.read_settles hn with ⟨_, heq⟩ | ⟨e, next, h, _, hheader, heq⟩ | ⟨start, k, last, hstarts, hpasses, hsettles⟩
      · rw [heq]
        exact .of_silent rfl rfl hr.broken (potential_broken_le (Nat.le_refl _))
      · rw [heq]
        exact .of_silent (readHeader_error hheader) rfl (hr.readHeader_failed hheader).1.broken
          (potential_broken_le h)
      · obtain ⟨hstart, hle⟩ := hstarts.bounded hr
        obtain ⟨hlast, hle'⟩ := hpasses.bounded hstart
        obtain ⟨hfault, hnext, hsize⟩ := hsettles.fit hlast
        exact ⟨hfault, hnext, by omega⟩
    · rw [ask, read, dif_neg hn]
      exact .of_silent rfl rfl hr (Nat.le_refl _)

theorem askAll_fit (hr : r.Bounded budget) (qs : List Request) :
    (∀ answer ∈ (r.askAll qs).1, answer.isFault = false) ∧ (r.askAll qs).1.length = qs.length ∧
      (r.askAll qs).2.Bounded budget := by
  induction qs generalizing r with
  | nil =>
    refine ⟨?_, rfl, hr⟩
    intro answer h
    cases h
  | cons q qs ih =>
    obtain ⟨hfault, hnext, _⟩ := ask_fit hr q
    obtain ⟨hfaults, hlength, hlast⟩ := ih hnext
    exact ⟨List.forall_mem_cons.mpr ⟨hfault, hfaults⟩, congrArg (· + 1) hlength, hlast⟩

/-- Reading in pieces of one size hands out what the reader can hand out at the most, and no piece is empty. -/
theorem drainFrom_fit (hr : r.Bounded budget) (n : Nat) (bytes : ByteArray) (pieces : Nat) :
    (r.drainFrom n bytes pieces).bytes.size ≤ bytes.size + r.potential ∧
      (r.drainFrom n bytes pieces).pieces + bytes.size ≤ pieces + (r.drainFrom n bytes pieces).bytes.size ∧
      ∀ e, (r.drainFrom n bytes pieces).error = some e → e.isFault = false := by
  fun_induction drainFrom r n bytes pieces with
  | case1 r bytes pieces more next nearer hpos hread ih =>
    obtain ⟨_, hnext, hsize⟩ := ask_fit hr (.read n)
    rw [ask, hread] at hnext hsize
    change more.size + next.potential ≤ r.potential at hsize
    obtain ⟨hle, hpieces, herror⟩ := ih hnext
    rw [ByteArray.size_append] at hle hpieces
    exact ⟨by omega, by omega, herror⟩
  | case2 r bytes pieces next hread =>
    refine ⟨Nat.le_add_right _ _, Nat.le_refl _, ?_⟩
    intro e he
    cases he
  | case3 r bytes pieces e next hread =>
    refine ⟨Nat.le_add_right _ _, Nat.le_refl _, ?_⟩
    intro e' he
    cases he
    obtain ⟨hfault, _⟩ := ask_fit hr (.read n)
    rw [ask, hread] at hfault
    exact hfault

/-- A frame is drained in finitely many pieces, and a byte of it stands for 255 bytes of content at the most. -/
theorem decompressFrame_fit (data : ByteArray) :
    ((new (⟨⟨⟩, data, 0⟩ : Source Steady)).drain 65536).pieces ≤ 255 * data.size ∧
    (∀ e, decompressFrame data = .error e → e.isFault = false) ∧
    ∀ content, decompressFrame data = .ok content → content.size ≤ 255 * data.size := by
  obtain ⟨hsize, hpieces, hfault⟩ :=
    drainFrom_fit (Bounded.new (⟨⟨⟩, data, 0⟩ : Source Steady)) 65536 ByteArray.empty 0
  have hpotential : (new (⟨⟨⟩, data, 0⟩ : Source Steady)).potential = 255 * data.size := Nat.zero_add _
  rw [hpotential, ByteArray.size_empty, Nat.zero_add] at hsize
  rw [ByteArray.size_empty, Nat.zero_add] at hpieces
  simp only [decompressFrame, drain]
  generalize (new (⟨⟨⟩, data, 0⟩ : Source Steady)).drainFrom 65536 ByteArray.empty 0 = drained at hsize hpieces hfault ⊢
  refine ⟨Nat.le_trans hpieces hsize, ?_, ?_⟩
  · intro e he
    split at he
    next => cases he
    next e' herror =>
      cases he
      exact hfault _ herror
  · intro content hcontent
    split at hcontent
    next =>
      cases hcontent
      exact hsize
    next => cases hcontent

/-- Whatever the bytes are and whatever is asked, the reader answers, and no answer is a fault. What it holds
between two requests stays as small as the header says. Each read looks at finitely many blocks, since four bytes of
the source go with each of them that gives nothing; no position and no count leaves its range on the way. -/
theorem hostile_frame_is_harmless {source : Source φ} (hsize : source.data.size < 2 ^ 48) {requests : List Request}
    {answers : List Answer} {r : Reader φ} (hserved : (new source).askAll requests = (answers, r)) :
    answers.length = requests.length ∧ (∀ answer ∈ answers, ∀ f, answer ≠ .failed (.fault f)) ∧
    r.block.size ≤ r.descriptor.blockSize.bytes ∧
    r.pending.size ≤ (if r.descriptor.independent then 0 else 65536) + r.descriptor.blockSize.bytes ∧
    (∀ n, 0 < n →
      (r.phase = .failed ∧ r.ask (.read n) = (.failed (.frame .failedEarlier), r.broken)) ∨
      (∃ e next h, r.phase = .fresh ∧ r.readHeader = .failed e next h ∧
        r.ask (.read n) = (.failed e, next.broken)) ∨
      ∃ start k last, r.Starts start ∧ start.Passes k last ∧ 4 * k ≤ r.source.left ∧
        last.Settles n (r.ask (.read n)).1 (r.ask (.read n)).2) ∧
    (∀ start k last, r.Starts start → start.Passes k last → last.source.left + 4 * k ≤ start.source.left ∧
      last.pos ≤ last.pending.size ∧ last.produced < sizeLimit) ∧
    ((new (⟨⟨⟩, source.data, 0⟩ : Source Steady)).drain 65536).pieces ≤ 255 * source.data.size ∧
    ∀ f, decompressFrame source.data ≠ .error (.fault f) := by
  have hbudget : ∀ {r : Reader φ}, r.Bounded (255 * source.left) → r.produced < sizeLimit := by
    intro r hr
    have hproduced := hr.produced_le
    have hleft : source.left ≤ source.data.size := Nat.sub_le _ _
    rw [sizeLimit]
    omega
  obtain ⟨hfaults, hlength, hr⟩ := askAll_fit (Bounded.new source) requests
  rw [hserved] at hfaults hlength hr
  refine ⟨hlength, ?_, hr.block_le, hr.pending_le, ?_, ?_, ?_, ?_⟩
  · rintro answer hmem f rfl
    cases hfaults _ hmem
  · intro n hn
    rcases r.read_settles hn with hrefused | hheader | ⟨start, k, last, hstarts, hpasses, hsettles⟩
    · exact .inl hrefused
    · exact .inr (.inl hheader)
    · have hle := hstarts.left_le
      have hpassed := hpasses.left_le
      exact .inr (.inr ⟨start, k, last, hstarts, hpasses, by omega, hsettles⟩)
  · intro start k last hstarts hpasses
    have hlast := (hpasses.bounded (hstarts.bounded hr).1).1
    exact ⟨hpasses.left_le, hlast.pos_le, hbudget hlast⟩
  · exact (decompressFrame_fit source.data).1
  · intro f hfault
    cases (decompressFrame_fit source.data).2.1 _ hfault

/-- Two blocks that stand for nothing, one of them stored, and then a size word that is too large. -/
theorem hostile_frame_is_harmless_of_empty_blocks :
    (⟨#[4, 34, 77, 24, 96, 64, 130, 1, 0, 0, 0, 0, 0, 0, 0, 128, 255, 255, 255, 127]⟩ : ByteArray).size < 2 ^ 48 ∧
    ∃ answers r, (new (⟨⟨⟩, ⟨#[4, 34, 77, 24, 96, 64, 130, 1, 0, 0, 0, 0, 0, 0, 0, 128, 255, 255, 255, 127]⟩, 0⟩ :
        Source Steady)).askAll [.read 1, .read 1] = (answers, r) ∧
      answers = [.failed (.frame .oversizedBlock), .failed (.frame .failedEarlier)] ∧
      r.block.size ≤ r.descriptor.blockSize.bytes := by
  have hsize : (⟨#[4, 34, 77, 24, 96, 64, 130, 1, 0, 0, 0, 0, 0, 0, 0, 128, 255, 255, 255, 127]⟩ :
      ByteArray).size < 2 ^ 48 := by decide
  obtain ⟨_, _, hblock, _⟩ := @hostile_frame_is_harmless Steady _
    ⟨⟨⟩, ⟨#[4, 34, 77, 24, 96, 64, 130, 1, 0, 0, 0, 0, 0, 0, 0, 128, 255, 255, 255, 127]⟩, 0⟩ hsize
    [.read 1, .read 1] _ _ rfl
  exact ⟨hsize, _, _, rfl, by cbv, hblock⟩

end Reader

end LempelZiv
