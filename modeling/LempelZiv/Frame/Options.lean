import LempelZiv.Block.Compress
import LempelZiv.Frame.Descriptor

namespace LempelZiv

/-- What a writer of frames is told. -/
structure FrameOptions where
  level : Level := Level.standard
  blockSize : BlockSize := .kb64
  variant : Variant := .improved
  blockChecksum : Bool := false
  contentChecksum : Bool := false
  /-- The size that the content must turn out to have. -/
  contentSize : Option Nat := none
  dictionary : Option Nat := none
  deriving DecidableEq

namespace FrameOptions

def ofLevel (n : Nat) : Except Error FrameOptions := (Level.ofNat n).map ({ level := · })

def block (o : FrameOptions) : BlockOptions := ⟨o.level, o.variant⟩

/-- The header that a writer starts with: its blocks are independent. -/
def descriptor (o : FrameOptions) : Descriptor where
  blockSize := o.blockSize
  independent := true
  blockChecksum := o.blockChecksum
  contentChecksum := o.contentChecksum
  contentSize := o.contentSize
  dictionary := o.dictionary

end FrameOptions

end LempelZiv
