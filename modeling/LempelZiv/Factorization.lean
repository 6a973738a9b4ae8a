import LempelZiv.Sequence.Encoding
import LempelZiv.Search.Chains

namespace LempelZiv

/-- The last bytes of a block are literals. -/
def lastLiterals : Nat := 5

/-- No match starts nearer to the end of a block. -/
def matchMargin : Nat := 12

/-- An input cut into sequences and the literals after the last of them. -/
structure Factorization where
  sequences : Array Sequence
  tail : ByteArray

namespace Factorization

/-- Puts a match off, one byte at a time, as long as the next one is better. Says by how much. -/
def settle (c : Chains) (pos searchEnd delay : Nat) (found : Match) :
    Except Fault (Nat × Match × Chains) :=
  if pos + delay < searchEnd then
    match c.better (pos + delay) found.length with
    | .ok (some next, c) => settle c pos searchEnd (delay + 1) next
    | .ok (none, c) => .ok (delay, found, c)
    | .error f => .error f
  else .ok (delay, found, c)
  termination_by searchEnd - (pos + delay)

/-- How many positions to pass over after `misses` searches in a row without a match. -/
def skipped (params : SearchParams) (misses : Nat) : Except Fault Nat :=
  match params.skipStrength with
  | none => .ok 0
  | some strength => if strength < 32 then .ok (misses >>> strength) else .error .overflow

/-- The sequence of a match at `start`, cut so that the block's last bytes stay literals. -/
def sequenceAt (src : ByteArray) (anchor start : Nat) (found : Match) : Except Fault Sequence := do
  let room ← subSize (src.size - lastLiterals) start
  let length := min found.length room
  if h : 0 < found.offset ∧ found.offset ≤ maxDistance then
    if hl : minMatch ≤ length then
      return ⟨src.extract anchor start, found.offset, length, h.1, h.2, hl⟩
    else throw .overflow
  else throw .assertion

/-- Goes through the input from `pos` on; what lies between `anchor` and `pos` is literal so far. -/
def cut (src : ByteArray) (c : Chains) (pos anchor misses : Nat) (done : Array Sequence) :
    Except Fault Factorization :=
  if _hp : pos + minMatch ≤ src.size ∧ pos ≤ src.size - matchMargin then
    match c.find pos with
    | .error f => .error f
    | .ok (none, c) =>
      let misses := min (misses + 1) 4294967295
      match skipped c.params misses with
      | .error f => .error f
      | .ok n => cut src c (min (pos + 1 + n) src.size) anchor misses done
    | .ok (some found, c) =>
      match (if c.params.lazySearch then settle c pos (src.size - matchMargin) 0 found
        else .ok (0, found, c)) with
      | .error f => .error f
      | .ok (delay, found, c) =>
        match sequenceAt src anchor (pos + delay) found with
        | .error f => .error f
        | .ok s =>
          cut src c (pos + delay + s.length) (pos + delay + s.length) 0 (done.push s)
  else .ok ⟨done, dropBytes src anchor⟩
  termination_by src.size - pos
  decreasing_by
    · have := _hp.1
      simp only [minMatch] at this
      omega
    · have := _hp.1
      have := s.minMatch_le
      simp only [minMatch] at *
      omega

end Factorization

/-- Cuts `src` into sequences by a search over all of it. -/
def factorize (params : SearchParams) (src : ByteArray) : Except Fault Factorization := do
  let c ← Chains.empty params
  let c ← c.reset src
  Factorization.cut src c 0 0 0 #[]

section

variable {σ : Type} [ByteSink σ]

/-- Writes the sequences from number `i` on. -/
def Factorization.writeFrom (f : Factorization) (i : Nat) (sink : σ) : Except Fault σ :=
  if h : i < f.sequences.size then
    match f.sequences[i].write sink with
    | .ok sink => writeFrom f (i + 1) sink
    | .error e => .error e
  else .ok sink
  termination_by f.sequences.size - i

theorem Factorization.writeFrom_eq_foldlM (f : Factorization) (i : Nat) (sink : σ) :
    f.writeFrom i sink = (f.sequences.toList.drop i).foldlM (fun sink s => s.write sink) sink := by
  induction hn : f.sequences.size - i generalizing i sink with
  | zero =>
    rw [writeFrom, dif_neg (by omega), List.drop_eq_nil_of_le (by rw [Array.length_toList]; omega)]
    rfl
  | succ n ih =>
    have hi : i < f.sequences.size := by omega
    have hlist : i < f.sequences.toList.length := hi
    rw [writeFrom, dif_pos hi, List.drop_eq_getElem_cons hlist, List.foldlM_cons, Array.getElem_toList]
    cases f.sequences[i].write sink with
    | error e => rfl
    | ok sink => exact ih (i + 1) sink (by omega)

/-- A block without its last literals. -/
def Factorization.writeOpen (f : Factorization) (sink : σ) : Except Fault σ := f.writeFrom 0 sink

/-- A whole block. -/
def Factorization.writeClosed (f : Factorization) (sink : σ) : Except Fault σ := do
  let sink ← f.writeOpen sink
  writeLast f.tail sink

theorem Factorization.writeClosed_eq_foldlM (f : Factorization) (sink : σ) : f.writeClosed sink =
    f.sequences.toList.foldlM (fun sink s => s.write sink) sink >>= writeLast f.tail := by
  rw [writeClosed, writeOpen, writeFrom_eq_foldlM, List.drop_zero]

end

end LempelZiv
