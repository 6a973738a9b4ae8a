import LempelZiv.Block.Splice

namespace LempelZiv

/-- The body of a chunk and the number of its last bytes that the body leaves out. -/
structure ChunkBody where
  body : ByteArray
  pending : Nat

/-- Joins bodies into one block. What a chunk leaves out goes in front of the next body; a chunk
without any match leaves out all of it. -/
def joinFrom (input : ByteArray) (chunkSize : Nat) :
    (i carryFrom : Nat) → (out : ByteArray) → List ChunkBody → Except Error ByteArray
  | _, _, out, [] => .ok out
  | i, carryFrom, out, c :: cs =>
    let start := i * chunkSize
    let stop := min (start + chunkSize) input.size
    if c.body.isEmpty then joinFrom input chunkSize (i + 1) carryFrom out cs
    else if carryFrom ≤ start then
      match splice out (input.extract carryFrom start) c.body with
      | .error e => .error e
      | .ok out =>
        match subSize stop c.pending with
        | .error f => .error (.fault f)
        | .ok carryFrom => joinFrom input chunkSize (i + 1) carryFrom out cs
    else .error (.fault .outOfRange)

def joinChunks (input : ByteArray) (chunkSize : Nat) (chunks : List ChunkBody) :
    Except Error ByteArray :=
  joinFrom input chunkSize 0 0 ByteArray.empty chunks

end LempelZiv
