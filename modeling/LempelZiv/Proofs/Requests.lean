import Mathlib
import LempelZiv.Proofs.Draining

namespace LempelZiv

/-- What can be asked of a reader: what the header says, or up to `n` bytes. -/
inductive Request where
  | info
  | read (n : Nat)

inductive Answer where
  | described (d : Descriptor)
  | gave (bytes : ByteArray)
  | failed (error : Error)

/-- What a reader answers that has failed. Who reads into no room gets what fits. -/
def Request.refused : Request → Answer
  | .info => .failed (.frame .failedEarlier)
  | .read n => if 0 < n then .failed (.frame .failedEarlier) else .gave ByteArray.empty

namespace Reader

variable {φ : Type}

def Delivery.answer {r : Reader φ} : Delivery r → Answer
  | .gave bytes _ _ _ => .gave bytes
  | .ended _ => .gave ByteArray.empty
  | .failed e _ => .failed e

/-- The reader that a delivery leaves. -/
def Delivery.next {r : Reader φ} : Delivery r → Reader φ
  | .gave _ next _ _ => next
  | .ended next => next
  | .failed _ next => next

variable [Feed φ]

def ask (r : Reader φ) : Request → Answer × Reader φ
  | .info => (match r.info.1 with
    | .ok d => .described d
    | .error e => .failed e, r.info.2)
  | .read n => ((r.read n).answer, (r.read n).next)

/-- The requests in turn, whatever the answers. -/
def askAll (r : Reader φ) : List Request → List Answer × Reader φ
  | [] => ([], r)
  | q :: qs => ((r.ask q).1 :: ((r.ask q).2.askAll qs).1, ((r.ask q).2.askAll qs).2)

variable {r next : Reader φ} {e : Error}

theorem ask_of_failed (hr : r.phase = .failed) (q : Request) :
    (r.ask q).1 = q.refused ∧ (r.ask q).2.phase = .failed ∧ (r.ask q).2.source = r.source := by
  cases q with
  | info =>
    rw [ask, info, hr]
    exact ⟨rfl, hr, rfl⟩
  | read n =>
    rw [ask, Request.refused]
    by_cases hn : 0 < n
    · have hread : r.read n = .failed (.frame .failedEarlier) r.broken := by
        rw [read, dif_pos hn]
        split
        next => rfl
        next h => rw [hr] at h; cases h
        next h => rw [hr] at h; cases h
        next h => rw [hr] at h; cases h
      rw [hread, if_pos hn]
      exact ⟨rfl, rfl, rfl⟩
    · rw [read, dif_neg hn, if_neg hn]
      exact ⟨rfl, hr, rfl⟩

/-- A reader that has failed refuses all that is asked of it, and leaves its source alone. -/
theorem askAll_of_failed (hr : r.phase = .failed) (qs : List Request) :
    (r.askAll qs).1 = qs.map Request.refused ∧ (r.askAll qs).2.source = r.source := by
  induction qs generalizing r with
  | nil => exact ⟨rfl, rfl⟩
  | cons q qs ih =>
    obtain ⟨hanswer, hphase, hsource⟩ := ask_of_failed hr q
    obtain ⟨hanswers, hlast⟩ := ih hphase
    rw [askAll, hanswer, hanswers]
    exact ⟨rfl, hlast.trans hsource⟩

theorem serve_failed {origin : Reader φ} {n : Nat} {hn : 0 < n}
    {h : r.source.left < origin.source.left ∨
      r.source.left ≤ origin.source.left ∧ r.available ≤ origin.available}
    (hfailed : (serve origin r n hn h).answer = .failed e) :
    (serve origin r n hn h).next.phase = .failed := by
  fun_induction serve origin r n hn h with
  | case1 => cases hfailed
  | case2 => cases hfailed
  | case3 => rfl
  | case4 => cases hfailed
  | case5 r h ha hended r1 h1 hblock ih => exact ih hfailed

theorem read_failed {n : Nat} (hfailed : (r.read n).answer = .failed e) :
    (r.read n).next.phase = .failed := by
  unfold read at hfailed ⊢
  by_cases hn : 0 < n
  · simp only [dif_pos hn] at hfailed ⊢
    split at hfailed
    next => rfl
    next => exact serve_failed hfailed
    next => exact serve_failed hfailed
    next =>
      split at hfailed
      next => rfl
      next => exact serve_failed hfailed
  · rw [dif_neg hn] at hfailed
    cases hfailed

theorem checkContent_at_end {h : next.source.left + 0 ≤ r.source.left} (hdone : r.checkContent = .done () next h) :
    ∃ s digest, next = { r with source := s, digest := digest, phase := .ended } := by
  unfold checkContent at hdone
  split at hdone
  next => exact ⟨_, _, (checkSize_done hdone).1⟩
  next =>
    split at hdone
    next => cases hdone
    next hword =>
      obtain ⟨s, rfl, _⟩ := takeWord_done hword
      split at hdone
      next => exact ⟨s, none, (checkSize_done hdone).1⟩
      next => cases hdone

theorem nextBlock_not_fresh {more : Bool} {h : next.source.left + 4 ≤ r.source.left}
    (hdone : r.nextBlock = .done more next h) : next.phase ≠ .fresh := by
  have hread := r.nextBlock_read
  rw [hdone] at hread
  cases hread with
  | end_done _ hcheck =>
    obtain ⟨s, digest, rfl⟩ := checkContent_at_end hcheck
    intro hphase
    cases hphase
  | block =>
    intro hphase
    cases hphase

theorem serve_not_fresh {origin : Reader φ} {n : Nat} {hn : 0 < n}
    {h : r.source.left < origin.source.left ∨
      r.source.left ≤ origin.source.left ∧ r.available ≤ origin.available}
    (hr : r.phase ≠ .fresh) : (serve origin r n hn h).next.phase ≠ .fresh := by
  fun_induction serve origin r n hn h with
  | case1 => exact hr
  | case2 => exact hr
  | case3 =>
    intro hphase
    cases hphase
  | case4 r h ha hended r1 h1 hblock => exact nextBlock_not_fresh hblock
  | case5 r h ha hended r1 h1 hblock ih => exact ih (nextBlock_not_fresh hblock)

theorem readHeader_begun {h : next.source.left + headerStart ≤ r.source.left}
    (hdone : r.readHeader = .done () next h) : next.phase = .begun := by
  obtain ⟨_, _, _, _, _, _, rfl⟩ := readHeader_done hdone
  rfl

theorem read_fresh {n : Nat} (hfresh : (r.read n).next.phase = .fresh) : (r.read n).next = r := by
  unfold read at hfresh ⊢
  split at hfresh
  next hn =>
    exfalso
    split at hfresh
    next => cases hfresh
    next h => exact serve_not_fresh (by rw [h]; decide) hfresh
    next h => exact serve_not_fresh (by rw [h]; decide) hfresh
    next =>
      split at hfresh
      next => cases hfresh
      next hheader => exact serve_not_fresh (by rw [readHeader_begun hheader]; decide) hfresh
  next hn => rw [dif_neg hn]; rfl

theorem take_failed {n : Nat} {h : next.source.left ≤ r.source.left}
    (hfailed : r.take n = .failed e next h) : ∃ s, next = { r with source := s } := by
  unfold take at hfailed
  split at hfailed
  next => cases hfailed
  next e s hs hfetch =>
    cases hfailed
    exact ⟨s, rfl⟩

/-- Where no header is found, nothing of the reader has changed but its place in the source. -/
theorem readHeader_failed {h : next.source.left ≤ r.source.left}
    (hfailed : r.readHeader = .failed e next h) : ∃ s, next = { r with source := s } := by
  unfold readHeader at hfailed
  split at hfailed
  next htake =>
    cases hfailed
    exact take_failed htake
  next htake =>
    obtain ⟨s, rfl, _, _⟩ := take_done htake
    split at hfailed
    next =>
      cases hfailed
      exact ⟨s, rfl⟩
    next =>
      split at hfailed
      next htake₂ =>
        cases hfailed
        obtain ⟨s₂, rfl⟩ := take_failed htake₂
        exact ⟨s₂, rfl⟩
      next htake₂ =>
        obtain ⟨s₂, rfl, _, _⟩ := take_done htake₂
        split at hfailed
        next =>
          cases hfailed
          exact ⟨s₂, rfl⟩
        next => cases hfailed

theorem info_of_fresh (hr : r.phase = .fresh) :
    (∃ d next, r.info = (.ok d, next) ∧ next.phase = .begun) ∨
      ∃ e s, r.info = (.error e, { r with source := s }) := by
  rcases hheader : r.readHeader with ⟨_, next, h⟩ | ⟨e, next, h⟩
  · refine .inl ⟨next.descriptor, next, ?_, readHeader_begun hheader⟩
    simp only [info, hr, hheader]
  · obtain ⟨s, hnext⟩ := readHeader_failed hheader
    refine .inr ⟨e, s, ?_⟩
    rw [← hnext]
    simp only [info, hr, hheader]

theorem info_of_not_fresh (hr : r.phase ≠ .fresh) :
    r.info.2 = r ∧ (r.phase = .failed ∨ r.info.1 = .ok r.descriptor) := by
  unfold info
  cases hphase : r.phase with
  | failed => exact ⟨rfl, .inl rfl⟩
  | begun => exact ⟨rfl, .inr rfl⟩
  | ended => exact ⟨rfl, .inr rfl⟩
  | fresh => exact absurd hphase hr

/-- Until a header is found a reader is as new. -/
theorem ask_fresh (hr : r.phase = .fresh → r = new r.source) (q : Request)
    (hfresh : (r.ask q).2.phase = .fresh) : (r.ask q).2 = new (r.ask q).2.source := by
  cases q with
  | read n =>
    have hnext : (r.ask (.read n)).2 = r := read_fresh hfresh
    rw [hnext] at hfresh ⊢
    exact hr hfresh
  | info =>
    have hinfo : r.info.2.phase = .fresh := hfresh
    change r.info.2 = new r.info.2.source
    by_cases hphase : r.phase = .fresh
    · rcases info_of_fresh hphase with ⟨d, next, heq, hbegun⟩ | ⟨e, s, heq⟩
      · rw [heq, hbegun] at hinfo
        cases hinfo
      · rw [heq, hr hphase]
        rfl
    · rw [(info_of_not_fresh hphase).1] at hinfo
      exact absurd hinfo hphase

theorem askAll_fresh (hr : r.phase = .fresh → r = new r.source) (qs : List Request)
    (hfresh : (r.askAll qs).2.phase = .fresh) : (r.askAll qs).2 = new (r.askAll qs).2.source := by
  induction qs generalizing r with
  | nil => exact hr hfresh
  | cons q qs ih => exact ih (ask_fresh hr q) hfresh

/-- A failed read is the last: from then on all is refused, and the source is left alone. So it is with a
failed look at the header, unless there was no failed read before it. Then the next request is met as by a new
reader of what is left in the source. -/
theorem failed_refuses_or_starts_anew {source : Source φ} {earlier : List Request} {q : Request}
    {e : Error} {r : Reader φ} (hfailed : ((new source).askAll earlier).2.ask q = (.failed e, r)) :
    (q = .info ∧ ((new source).askAll earlier).2.phase = .fresh ∧ r = new r.source) ∨
      ∀ later, (r.askAll later).1 = later.map Request.refused ∧ (r.askAll later).2.source = r.source := by
  have hfresh := @askAll_fresh φ _ (new source) (fun _ => rfl) earlier
  generalize ((new source).askAll earlier).2 = r₀ at *
  have hanswer : (r₀.ask q).1 = .failed e := congrArg Prod.fst hfailed
  have hnext : (r₀.ask q).2 = r := congrArg Prod.snd hfailed
  cases q with
  | read n =>
    have hphase : (r₀.ask (.read n)).2.phase = .failed := read_failed hanswer
    rw [hnext] at hphase
    exact .inr (askAll_of_failed hphase)
  | info =>
    by_cases hphase : r₀.phase = .fresh
    · rcases info_of_fresh hphase with ⟨d, next, heq, _⟩ | ⟨e, s, heq⟩
      · rw [ask, heq] at hanswer
        cases hanswer
      · have hsame : (r₀.ask .info).2 = { r₀ with source := s } := congrArg Prod.snd heq
        have hanew := ask_fresh hfresh .info (hsame ▸ hphase)
        rw [hnext] at hanew
        exact .inl ⟨rfl, hphase, hanew⟩
    · obtain ⟨hsame, hfailed | hok⟩ := info_of_not_fresh hphase
      · have hr : r = r₀ := hnext.symm.trans hsame
        exact .inr (askAll_of_failed (hr ▸ hfailed))
      · rw [ask, hok] at hanswer
        cases hanswer

theorem failed_read_behind_failed_info :
    let r : Reader Steady := (new ⟨⟨⟩, ⟨#[0, 0, 0, 0, 0, 0, 4]⟩, 7⟩).broken
    ((new ⟨Steady.mk, ⟨#[0, 0, 0, 0, 0, 0, 4]⟩, 0⟩).askAll [.info]).2.ask (.read 1) =
        (.failed (.frame .unexpectedEnd), r) ∧
      ((Request.read 1 = .info ∧
          ((new ⟨Steady.mk, ⟨#[0, 0, 0, 0, 0, 0, 4]⟩, 0⟩).askAll [.info]).2.phase = .fresh ∧
          r = new r.source) ∨
        ∀ later, (r.askAll later).1 = later.map Request.refused ∧ (r.askAll later).2.source = r.source) :=
  ⟨by cbv, failed_refuses_or_starts_anew (by cbv)⟩

/-- A frame stands behind six bytes that are no header. A look at those fails, and the read after it finds
the frame. -/
theorem failed_info_then_read :
    ((new (⟨⟨⟩, ⟨#[0, 0, 0, 0, 0, 0, 4, 34, 77, 24, 96, 64, 130, 1, 0, 0, 128, 97, 0, 0, 0, 0]⟩, 0⟩ :
      Source Steady)).askAll [.info, .read 16]).1 = [.failed (.frame .magic), .gave ⟨#[97]⟩] := by
  cbv

end Reader

end LempelZiv
