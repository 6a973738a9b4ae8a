import LempelZiv.Bytes
import LempelZiv.Search.Params

namespace LempelZiv

/-- Literal bytes, then a match that reaches back over what stands before it. -/
structure Sequence where
  literals : ByteArray
  offset : Nat
  length : Nat
  offset_pos : 0 < offset
  offset_le : offset ≤ maxDistance
  minMatch_le : minMatch ≤ length

/-- Appends `n` bytes, each the one that stands `offset` bytes before it. -/
def copyBack (out : ByteArray) (offset : Nat) : (n : Nat) → ByteArray
  | 0 => out
  | n + 1 => copyBack (out.push (byteAt out (out.size - offset))) offset n

/-- What a sequence adds to the bytes before it. -/
def Sequence.expand (out : ByteArray) (s : Sequence) : ByteArray :=
  copyBack (out ++ s.literals) s.offset s.length

theorem size_copyBack (out : ByteArray) (offset n : Nat) :
    (copyBack out offset n).size = out.size + n := by
  induction n generalizing out with
  | zero => rfl
  | succ n ih =>
    rw [copyBack, ih, ByteArray.size_push]
    omega

theorem Sequence.size_expand (out : ByteArray) (s : Sequence) :
    (s.expand out).size = out.size + s.literals.size + s.length := by
  rw [Sequence.expand, size_copyBack, ByteArray.size_append]

end LempelZiv
