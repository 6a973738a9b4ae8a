import Mathlib
import LempelZiv.Proofs.FrameLanguage

namespace LempelZiv

/-- What there is to read: the content of the records behind the header, up to the first that is none, and
nothing where there is no header. -/
inductive Readable (src : ByteArray) : (content : ByteArray) → Prop
  | headless (no_header : ∀ d used, Descriptor.read src ≠ .ok (d, used)) : Readable src ByteArray.empty
  | records {d : Descriptor} {used : Nat} {records : List Record} {left content : ByteArray}
      (header : Descriptor.read src = .ok (d, used))
      (rest_eq : dropBytes src used = recordsBytes d.blockChecksum records ++ left)
      (unfolds : d.Unfolds ByteArray.empty records content) (no_record : d.NoRecord content left) :
      Readable src content

theorem Record.Adds.unique {b : Record} {most : Nat} {history more more' : ByteArray}
    (h : b.Adds most history more) (h' : b.Adds most history more') : more = more' := by
  unfold Adds at h h'
  split at h
  next hstored =>
    rw [if_pos hstored] at h'
    exact h.trans h'.symm
  next hpacked =>
    rw [if_neg hpacked, h] at h'
    exact (ByteArray.append_right_inj _).mp (congrArg Prod.snd h')

/-- No record begins like what ends a frame. -/
theorem Record.Fits.ne_trailer {b : Record} {d : Descriptor} (h : b.Fits d.blockSize.bytes)
    (out tail tail' : ByteArray) : d.trailer out ++ tail ≠ b.bytes d.blockChecksum ++ tail' := by
  intro hsame
  obtain ⟨hlt, hzero, _⟩ := h.word_reads
  rw [Descriptor.trailer, bytes, ByteArray.append_assoc, ByteArray.append_assoc] at hsame
  exact hzero (leBytes_append_inj (by decide) hlt hsame).1.symm

namespace Descriptor

variable {d : Descriptor} {out rest result : ByteArray} {outcome : Except Error ByteArray}

theorem ComesTo.records (h : d.ComesTo out rest result outcome) :
    ∃ records left, rest = recordsBytes d.blockChecksum records ++ left ∧ d.Unfolds out records result ∧
      d.NoRecord result left := by
  induction h with
  | @block out more rest result _ b fits adds _ ih =>
    obtain ⟨records, left, hrest, hunfolds, hlast⟩ := ih
    refine ⟨b :: records, left, ?_, .cons fits (adds_reach_iff.mpr adds) hunfolds, hlast⟩
    rw [hrest, recordsBytes, ByteArray.append_assoc]
  | @trailer out tail =>
    refine ⟨[], d.trailer out ++ tail, ByteArray.empty_append.symm, .nil, ?_⟩
    intro b more tail' hsame hfits
    exact absurd hsame (hfits.ne_trailer out tail tail')
  | @stuck out rest e stuck => exact ⟨[], rest, ByteArray.empty_append.symm, .nil, stuck.no_record⟩

/-- There is one way only to read records up to the first that is none. -/
theorem Unfolds.unique {records records' : List Record} {left left' result' : ByteArray}
    (h : d.Unfolds out records result) (h' : d.Unfolds out records' result')
    (hsame : recordsBytes d.blockChecksum records ++ left = recordsBytes d.blockChecksum records' ++ left')
    (hlast : d.NoRecord result left) (hlast' : d.NoRecord result' left') : result = result' := by
  induction h generalizing records' with
  | nil =>
    cases h' with
    | nil => rfl
    | @cons _ more _ b bs fits adds _ =>
      rw [recordsBytes, recordsBytes, ByteArray.empty_append, ByteArray.append_assoc] at hsame
      exact absurd adds (hlast b more _ hsame fits)
  | @cons out more _ b bs fits adds _ ih =>
    rw [recordsBytes, ByteArray.append_assoc] at hsame
    cases h' with
    | nil =>
      rw [recordsBytes, ByteArray.empty_append] at hsame
      exact absurd adds (hlast' b more _ hsame.symm fits)
    | @cons _ more' _ b' bs' fits' adds' later' =>
      rw [recordsBytes, ByteArray.append_assoc] at hsame
      obtain ⟨rfl, hrest⟩ := Record.bytes_append_inj fits fits' hsame
      obtain rfl := adds.unique adds'
      exact ih later' hrest hlast

end Descriptor

namespace Reader

variable {φ : Type} [Feed φ]

theorem Spent.read {r : Reader φ} {result tail : ByteArray} (h : r.Spent result tail) (n : Nat) :
    r.read n = .ended r := by
  rw [Reader.read]
  split
  next hn =>
    have hserve : ∀ h', serve r r n hn h' = .ended r := by
      intro h'
      rw [serve, dif_neg (by simp [h.available_eq]), if_pos h.phase_eq]
    split
    next hphase => rw [h.phase_eq] at hphase; cases hphase
    next => exact hserve _
    next => exact hserve _
    next hphase => rw [h.phase_eq] at hphase; cases hphase
  next => rfl

end Reader

theorem Readable.unique {src content content' : ByteArray} (h : Readable src content)
    (h' : Readable src content') : content = content' := by
  cases h with
  | headless no_header =>
    cases h' with
    | headless => rfl
    | records header => exact absurd header (no_header _ _)
  | records header rest_eq unfolds no_record =>
    cases h' with
    | headless no_header => exact absurd header (no_header _ _)
    | records header' rest_eq' unfolds' no_record' =>
      rw [header] at header'
      cases header'
      exact unfolds.unique unfolds' (rest_eq.symm.trans rest_eq') no_record no_record'

theorem Reader.Comes.readable {src content : ByteArray} {outcome : Except Error ByteArray}
    (h : Comes src content outcome) : Readable src content := by
  cases h with
  | headless no_header => exact .headless no_header
  | headed header comes =>
    obtain ⟨records, left, hrest, hunfolds, hlast⟩ := comes.records
    exact .records header hrest hunfolds hlast

/-- What is read does not depend on how the source hands out its bytes or on the sizes of the reads: it is what
there is to read, and then the end of the frame or the error, just as when all is decompressed at once. -/
theorem reads_alike_however_buffered (src : ByteArray) :
    ∃ delivered, (∀ content, Readable src content ↔ content = delivered) ∧
      ∀ {φ : Type} [Feed φ] (feed : φ) (sizes : Nat → Nat), Feed.Reliable feed → (∀ i, 0 < sizes i) →
        ∃ pieces error last, (Reader.new ⟨feed, src, 0⟩).drainBy sizes ByteArray.empty 0 =
            ⟨delivered, pieces, error, last⟩ ∧
          (∀ e, decompressFrame src = .error e → error = some e) ∧
          ∀ out, decompressFrame src = .ok out → error = none ∧ delivered = out ∧ last.produced = out.size ∧
            ∀ n, last.read n = .ended last := by
  obtain ⟨delivered, outcome, hcomes, hall⟩ := Reader.drainBy_comes src
  have hwhole := decompressFrame_of_delivered (hall ⟨⟩ _ (steady_reliable _) fun _ => by decide)
  refine ⟨delivered, fun content => ⟨fun h => h.unique hcomes.readable, fun h => h ▸ hcomes.readable⟩, ?_⟩
  intro φ _ feed sizes hfeed hsizes
  have hdelivered := hall feed sizes hfeed hsizes
  generalize (Reader.new ⟨feed, src, 0⟩).drainBy sizes ByteArray.empty 0 = drained at hdelivered
  obtain ⟨bytes, pieces, error, last⟩ := drained
  obtain ⟨hbytes, hfailed, hended⟩ := hdelivered
  cases hbytes
  refine ⟨pieces, error, last, rfl, ?_, ?_⟩
  · intro e he
    rw [hwhole] at he
    cases outcome with
    | ok tail => cases he
    | error e' =>
      cases he
      exact hfailed e rfl
  · intro out hout
    rw [hwhole] at hout
    cases outcome with
    | error e => cases hout
    | ok tail =>
      cases hout
      obtain ⟨hnone, hspent⟩ := hended tail rfl
      exact ⟨hnone, rfl, hspent.produced_eq, hspent.read⟩

/-- A stored block of one byte, and behind it a block that is too large or the end of the frame, a byte at a
time. -/
theorem reads_alike_however_buffered_of_single_bytes :
    (∃ pieces last, (Reader.new ⟨Faulty.mk ⟨.other, ""⟩ (some 1) none none,
        ⟨#[4, 34, 77, 24, 96, 64, 130, 1, 0, 0, 128, 97, 112, 17, 1, 0]⟩, 0⟩).drainBy (· + 1) ByteArray.empty 0 =
      ⟨⟨#[97]⟩, pieces, some (.frame .oversizedBlock), last⟩) ∧
    ∃ pieces last, (Reader.new ⟨Faulty.mk ⟨.other, ""⟩ (some 1) none none,
        ⟨#[4, 34, 77, 24, 96, 64, 130, 1, 0, 0, 128, 97, 0, 0, 0, 0]⟩, 0⟩).drainBy (· + 1) ByteArray.empty 0 =
      ⟨⟨#[97]⟩, pieces, none, last⟩ ∧ last.produced = 1 ∧ last.read 9 = .ended last := by
  have hfeed : Feed.Reliable (Faulty.mk ⟨.other, ""⟩ (some 1) none none) := by
    refine ⟨fun f => f = Faulty.mk ⟨.other, ""⟩ (some 1) none none, rfl, ?_⟩
    rintro _ pos wanted rfl hwanted
    exact ⟨min wanted 1, _, rfl, by omega, rfl⟩
  constructor
  · obtain ⟨delivered, _, hall⟩ := reads_alike_however_buffered
      ⟨#[4, 34, 77, 24, 96, 64, 130, 1, 0, 0, 128, 97, 112, 17, 1, 0]⟩
    obtain ⟨pieces, error, last, hdrained, hfailed, _⟩ := hall _ (· + 1) hfeed Nat.succ_pos
    have herror := hfailed (.frame .oversizedBlock) (by cbv)
    have hbytes := congrArg Reader.Drained.bytes hdrained
    have hone : delivered = ⟨#[97]⟩ := hbytes.symm.trans (by cbv)
    exact ⟨pieces, last, by rw [hdrained, herror, hone]⟩
  · obtain ⟨delivered, _, hall⟩ := reads_alike_however_buffered
      ⟨#[4, 34, 77, 24, 96, 64, 130, 1, 0, 0, 128, 97, 0, 0, 0, 0]⟩
    obtain ⟨pieces, error, last, hdrained, _, hended⟩ := hall _ (· + 1) hfeed Nat.succ_pos
    obtain ⟨hnone, hone, hproduced, hread⟩ := hended ⟨#[97]⟩ (by cbv)
    exact ⟨pieces, last, by rw [hdrained, hnone, hone], hproduced, hread 9⟩

end LempelZiv
