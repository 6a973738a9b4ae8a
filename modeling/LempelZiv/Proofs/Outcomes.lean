import LempelZiv.Proofs.Alongside
import LempelZiv.Proofs.LinkedBlocks

namespace LempelZiv

namespace Descriptor

/-- No reader gets on behind `out`, where `rest` is to come: what begins there is no block, and the error is
the same for all of them. -/
structure Stuck (d : Descriptor) (out rest : ByteArray) (e : Error) : Prop where
  no_record : d.NoRecord out rest
  fails : ∀ {φ : Type} [Feed φ] {r : Reader φ}, r.Stands d out → Feed.Reliable r.source.feed →
    r.source.rest = rest → ∃ next h, r.nextBlock = .failed e next h

/-- What comes of reading on behind `out`: all of the content, and what is left behind the end of the frame, or
the content before the error. -/
inductive ComesTo (d : Descriptor) :
    (out rest result : ByteArray) → (outcome : Except Error ByteArray) → Prop
  | block {out more rest result : ByteArray} {outcome : Except Error ByteArray} {b : Record}
      (fits : b.Fits d.blockSize.bytes) (adds : b.Adds d.blockSize.bytes (d.history out) more)
      (later : ComesTo d (out ++ more) rest result outcome) :
      ComesTo d out (b.bytes d.blockChecksum ++ rest) result outcome
  | trailer {out tail : ByteArray} (size_eq : ∀ n, d.contentSize = some n → n = out.size) :
      ComesTo d out (d.trailer out ++ tail) out (.ok tail)
  | stuck {out rest : ByteArray} {e : Error} (stuck : d.Stuck out rest e) : ComesTo d out rest out (.error e)

variable {d : Descriptor} {out rest result tail : ByteArray} {outcome : Except Error ByteArray}

theorem ComesTo.exists_more (h : d.ComesTo out rest result outcome) : ∃ more, result = out ++ more := by
  induction h with
  | @block _ first _ _ _ _ _ _ _ ih =>
    obtain ⟨more, hmore⟩ := ih
    exact ⟨first ++ more, by rw [hmore, ByteArray.append_assoc]⟩
  | trailer => exact ⟨ByteArray.empty, ByteArray.append_empty.symm⟩
  | stuck => exact ⟨ByteArray.empty, ByteArray.append_empty.symm⟩

theorem Decodes.comesTo {bs : List Record} (h : d.Decodes out bs result)
    (hsize : ∀ n, d.contentSize = some n → n = result.size) :
    d.ComesTo out (recordsBytes d.blockChecksum bs ++ (d.trailer result ++ tail)) result (.ok tail) := by
  induction h with
  | nil =>
    rw [recordsBytes, ByteArray.empty_append]
    exact .trailer hsize
  | cons fits adds _ ih =>
    rw [recordsBytes, ByteArray.append_assoc]
    exact .block fits adds (ih hsize)

theorem ComesTo.ended (h : d.ComesTo out rest result (.ok tail)) :
    ∃ bs, d.Decodes out bs result ∧
      rest = recordsBytes d.blockChecksum bs ++ (d.trailer result ++ tail) ∧
      ∀ n, d.contentSize = some n → n = result.size := by
  generalize hok : Except.ok tail = outcome at h
  induction h with
  | @block _ _ _ _ _ b fits adds _ ih =>
    obtain ⟨bs, hdecodes, hrest, hsize⟩ := ih hok
    refine ⟨b :: bs, .cons fits adds hdecodes, ?_, hsize⟩
    rw [hrest, recordsBytes, ByteArray.append_assoc]
  | trailer size_eq =>
    cases hok
    exact ⟨[], .nil, ByteArray.empty_append.symm, size_eq⟩
  | stuck => cases hok

end Descriptor

namespace Reader

variable {φ : Type} [Feed φ] {r : Reader φ} {d : Descriptor} {out : ByteArray}

theorem Stands.stuck {next : Reader φ} {e : Error} {h : next.source.left ≤ r.source.left} (hr : r.Stands d out)
    (hs : Feed.Reliable r.source.feed) (hfailed : r.nextBlock = .failed e next h) :
    d.Stuck out r.source.rest e where
  no_record := by
    intro b more tail hrest hfits hadds
    obtain ⟨_, _, hok, _⟩ := nextBlock_record hr hs hrest hfits (Descriptor.adds_reach_iff.mp hadds)
    rw [hok] at hfailed
    cases hfailed
  fails := by
    intro ψ _ r' hr' hs' hrest
    have hrest' : r'.source.rest = r.source.rest ++ ByteArray.empty := by simpa using hrest
    have hsame := (hr.alongside hr' hs hs' hrest').nextBlock
    rw [hfailed] at hsame
    generalize r'.nextBlock = step at hsame ⊢
    cases hsame with
    | failed => exact ⟨_, _, rfl⟩
    | short more_pos => cases more_pos

/-- Every reader comes to something. -/
theorem Stands.comesTo (hr : r.Stands d out) (hs : Feed.Reliable r.source.feed) :
    ∃ result outcome, d.ComesTo out r.source.rest result outcome := by
  induction hk : r.source.left using Nat.strongRecOn generalizing r out with
  | ind k ih =>
    rcases hblock : r.nextBlock with ⟨more, next, h⟩ | ⟨e, next, h⟩
    case failed => exact ⟨out, .error e, .stuck (hr.stuck hs hblock)⟩
    cases nextBlock_advance hr hblock with
    | trailer rest_eq size_eq =>
      rw [rest_eq]
      exact ⟨out, .ok next.source.rest, .trailer size_eq⟩
    | @block _ b more fits adds rest_eq stands =>
      obtain ⟨next', h', hok, _, _, hs', _⟩ := nextBlock_record hr hs rest_eq fits adds
      rw [hblock] at hok
      cases hok
      obtain ⟨result, outcome, hlater⟩ := ih next.source.left (by omega) stands hs' rfl
      rw [rest_eq]
      exact ⟨result, outcome, .block fits adds hlater⟩

end Reader

end LempelZiv
