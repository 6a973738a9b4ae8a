import LempelZiv.Sequence
import LempelZiv.Sequence.Sink

namespace LempelZiv

/-- The largest number that half of a token holds; it says that more bytes follow. -/
def nibbleLimit : Nat := 15

section

variable {σ : Type} [ByteSink σ]

/-- The rest of a length that did not fit its half of the token: 255s, then a smaller byte. -/
def putLength (sink : σ) (n : Nat) : Except Fault σ :=
  if _h : 255 ≤ n then
    match put sink 255 with
    | .ok sink => putLength sink (n - 255)
    | .error f => .error f
  else put sink n.toUInt8
  termination_by n
  decreasing_by exact Nat.sub_lt (Nat.lt_of_lt_of_le (Nat.zero_lt_succ _) _h) (Nat.zero_lt_succ _)

theorem putLength_add (sink : σ) (n : Nat) :
    putLength sink (n + 255) = put sink 255 >>= (putLength · n) := by
  rw [putLength, dif_pos (Nat.le_add_left 255 n), Nat.add_sub_cancel]
  cases put sink 255 with
  | ok sink => rfl
  | error f => rfl

theorem putLength_of_lt (sink : σ) {n : Nat} (h : n < 255) : putLength sink n = put sink n.toUInt8 := by
  rw [putLength, dif_neg (Nat.not_le.mpr h)]

/-- The token's high half has the number of literals, its low half is `code`. -/
def putToken (sink : σ) (literals code : Nat) : Except Fault σ := do
  let sink ← put sink (min literals nibbleLimit * 16 + code).toUInt8
  if nibbleLimit ≤ literals then putLength sink (literals - nibbleLimit) else return sink

def Sequence.write (s : Sequence) (sink : σ) : Except Fault σ := do
  let code := s.length - minMatch
  let sink ← putToken sink s.literals.size (min code nibbleLimit)
  let sink ← putAll sink s.literals
  let sink ← putAll sink (leBytes 2 s.offset)
  if nibbleLimit ≤ code then putLength sink (code - nibbleLimit) else return sink

/-- The last sequence of a block has literals only. -/
def writeLast (literals : ByteArray) (sink : σ) : Except Fault σ := do
  let sink ← putToken sink literals.size 0
  putAll sink literals

end

end LempelZiv
