import LempelZiv.Factorization
import LempelZiv.Level

namespace LempelZiv

def minBlockSize : Nat := 16
def maxBlockSize : Nat := 4194304

def checkBlockSize (n : Nat) : Except Error Unit :=
  if minBlockSize ≤ n ∧ n ≤ maxBlockSize then .ok () else .error (.blockSize n)

/-- The size that no packed block of `n` bytes exceeds. -/
def packedBound (n : Nat) : Except Fault Nat := do addSize (← addSize n (n / 255)) 16

structure BlockOptions where
  level : Level
  variant : Variant
  deriving DecidableEq

namespace BlockOptions

def params (o : BlockOptions) : SearchParams := o.level.params o.variant

def ofLevel (n : Nat) : Except Error BlockOptions := (Level.ofNat n).map (⟨·, .improved⟩)

end BlockOptions

/-- A whole block for `src`, of whatever size. -/
def packChunk (src : ByteArray) (o : BlockOptions) : Except Fault ByteArray := do
  (← factorize o.params src).writeClosed ByteArray.empty

/-- A block for `src` that other blocks follow: it stops after the last match, and the second
part says how many bytes of `src` are still to come. -/
def packOpenChunk (src : ByteArray) (o : BlockOptions) : Except Fault (ByteArray × Nat) := do
  let f ← factorize o.params src
  return (← f.writeOpen ByteArray.empty, f.tail.size)

def compressWith (src : ByteArray) (o : BlockOptions) : Except Error ByteArray := do
  checkBlockSize src.size
  packChunk src o

def compress (src : ByteArray) (level : Nat) : Except Error ByteArray := do
  compressWith src (← BlockOptions.ofLevel level)

def compressBaseline (src : ByteArray) (level : Nat) : Except Error ByteArray := do
  compressWith src { ← BlockOptions.ofLevel level with variant := .baseline }

/-- Compresses into a buffer that must have room for the worst case. The number says how many of
its bytes are filled; a refused buffer is as it was. -/
def compressInto (src : ByteArray) (level : Nat) (buffer : ByteArray) :
    Except Error (Nat × ByteArray) := do
  let o ← BlockOptions.ofLevel level
  checkBlockSize src.size
  let needed ← packedBound src.size
  if buffer.size < needed then throw (.destination needed buffer.size)
  let w ← ((← factorize o.params src).writeClosed (⟨buffer, 0⟩ : Window) : Except Fault Window)
  return (w.filled, w.buffer)

end LempelZiv
