import LempelZiv.Error

namespace LempelZiv

/-- The most bytes that a block of a frame holds. -/
inductive BlockSize where
  | kb64
  | kb256
  | mb1
  | mb4
  deriving DecidableEq, Repr

namespace BlockSize

def ofCode : Nat → Except Error BlockSize
  | 4 => .ok kb64
  | 5 => .ok kb256
  | 6 => .ok mb1
  | 7 => .ok mb4
  | _ => .error (.frame .blockSizeCode)

def code : BlockSize → Nat
  | kb64 => 4
  | kb256 => 5
  | mb1 => 6
  | mb4 => 7

def bytes : BlockSize → Nat
  | kb64 => 65536
  | kb256 => 262144
  | mb1 => 1048576
  | mb4 => 4194304

theorem ofCode_code (b : BlockSize) : ofCode b.code = .ok b := by cases b <;> rfl

theorem bytes_pos (b : BlockSize) : 0 < b.bytes := by cases b <;> decide

end BlockSize

/-- What the header of a frame says. -/
structure Descriptor where
  blockSize : BlockSize := .kb64
  independent : Bool := false
  blockChecksum : Bool := false
  contentChecksum : Bool := false
  contentSize : Option Nat := none
  dictionary : Option Nat := none
  deriving DecidableEq, Repr

namespace Descriptor

def bit (b : Bool) (weight : Nat) : Nat := if b then weight else 0

/-- The flag byte: version 1 in the two high bits, and a bit for each property. -/
def flags (d : Descriptor) : Nat :=
  64 + bit d.independent 32 + bit d.blockChecksum 16 + bit d.contentSize.isSome 8
    + bit d.contentChecksum 4 + bit d.dictionary.isSome 1

def headerSize (d : Descriptor) : Nat :=
  7 + bit d.contentSize.isSome 8 + bit d.dictionary.isSome 4

end Descriptor

end LempelZiv
