import LempelZiv.Block.Decompress

namespace LempelZiv

/-- Appends a body and puts the bytes of `carried` in front of its first literals. Offsets count
from the place of a match, so that they stay right. -/
def splice (out carried body : ByteArray) : Except Error ByteArray := do
  if carried.isEmpty then return out ++ body
  if h : 0 < body.size then
    let token := body[0].toNat
    let (n, used) ← Decoding.tokenLength body .truncatedLiteralLength 1 (token / 16)
    let out ← (putToken out (carried.size + n) (token % 16) : Except Fault ByteArray)
    return out ++ carried ++ dropBytes body (1 + used)
  else throw (.block .emptyBody)

end LempelZiv
