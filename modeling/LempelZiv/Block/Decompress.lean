import LempelZiv.Error
import LempelZiv.Sequence.Encoding

namespace LempelZiv

/-- Where a block is read from and how much it may still add. -/
structure Decoding where
  src : ByteArray
  /-- The size of the output before the block. -/
  start : Nat
  limit : Nat

namespace Decoding

/-- Adds bytes to `n` up to the first that is not 255. The second part counts them. -/
def readLength (src : ByteArray) (flaw : BlockFlaw) (ip used n : Nat) : Except Error (Nat × Nat) :=
  if h : ip + used < src.size then
    let b := src[ip + used]
    match addSize n b.toNat with
    | .error _ => .error (.block .lengthOverflow)
    | .ok n => if b = 255 then readLength src flaw ip (used + 1) n else .ok (n, used + 1)
  else .error (.block flaw)
  termination_by src.size - (ip + used)

/-- A length whose first part is half of a token, and how many bytes its rest takes at `ip`. -/
def tokenLength (src : ByteArray) (flaw : BlockFlaw) (ip nibble : Nat) : Except Error (Nat × Nat) :=
  if nibble = nibbleLimit then readLength src flaw ip 0 nibble else .ok (nibble, 0)

/-- The block may add `n` more bytes to `out`. -/
def reserve (d : Decoding) (out : ByteArray) (n : Nat) : Except Error Unit :=
  if out.size - d.start + n ≤ d.limit then .ok () else .error (.capacity d.limit)

/-- The literals of the token before `ip`: how many there are, and the bytes of their length. -/
def literals (d : Decoding) (out : ByteArray) (ip token : Nat) : Except Error (Nat × Nat) := do
  let (n, used) ← tokenLength d.src .truncatedLiteralLength ip (token / 16)
  if d.src.size < ip + used + n then throw (.block .literalsPastEnd)
  d.reserve out n
  return (n, used)

/-- The match whose offset stands at `ip`: offset, length, and the bytes of its length. -/
def backReference (d : Decoding) (out : ByteArray) (ip token : Nat) :
    Except Error (Nat × Nat × Nat) := do
  if d.src.size < ip + 2 then throw (.block .truncatedOffset)
  let offset := readLE d.src ip 2
  if offset = 0 ∨ out.size < offset then throw (.matchOffset offset (out.size - d.start))
  let (n, used) ← tokenLength d.src .truncatedMatchLength (ip + 2) (token % 16)
  let n ← addSize n minMatch
  d.reserve out n
  return (offset, n, used)

/-- Decodes sequences from `ip` on. An output that comes with an error may hold some of them. -/
def run (d : Decoding) (ip : Nat) (out : ByteArray) : Except Error Unit × ByteArray :=
  if h : ip < d.src.size then
    let token := d.src[ip].toNat
    match d.literals out (ip + 1) token with
    | .error e => (.error e, out)
    | .ok (n, used) =>
      let first := ip + 1 + used
      let last := first + n
      let out := out ++ d.src.extract first last
      if last = d.src.size then (.ok (), out)
      else
        match d.backReference out last token with
        | .error e => (.error e, out)
        | .ok (offset, length, used) => run d (last + 2 + used) (copyBack out offset length)
  else (.error (.block .truncatedToken), out)
  termination_by d.src.size - ip

end Decoding

/-- Decodes a block behind the bytes of `out`, which its matches may reach. At most `limit` bytes
are added; a block with an error adds none. -/
def decompressInto (src out : ByteArray) (limit : Nat) : Except Error Nat × ByteArray :=
  if src.isEmpty then (.error (.block .emptyBlock), out)
  else
    let start := out.size
    match Decoding.run ⟨src, start, limit⟩ 0 out with
    | (.ok (), out) => (.ok (out.size - start), out)
    | (.error e, out) => (.error e, out.extract 0 start)

def decompress (src : ByteArray) (limit : Nat) : Except Error ByteArray :=
  match decompressInto src ByteArray.empty limit with
  | (.ok _, out) => .ok out
  | (.error e, _) => .error e

end LempelZiv
