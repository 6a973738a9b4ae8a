import LempelZiv.Bytes
import LempelZiv.Checksum
import LempelZiv.Frame.Descriptor

namespace LempelZiv

def frameMagic : Nat := 407708164

/-- The first bytes of a header, which tell how long it is. -/
def headerStart : Nat := 6

/-- The second byte of the digest of the descriptor. -/
def headerChecksum (descriptor : ByteArray) : Nat := (xxh32 0 descriptor).toNat / 256 % 256

namespace Descriptor

/-- Everything between the magic number and the checksum byte. -/
def body (d : Descriptor) : ByteArray :=
  leBytes 1 d.flags ++ leBytes 1 (d.blockSize.code * 16)
    ++ (match d.contentSize with | some n => leBytes 8 n | none => ByteArray.empty)
    ++ (match d.dictionary with | some n => leBytes 4 n | none => ByteArray.empty)

def header (d : Descriptor) : ByteArray :=
  leBytes 4 frameMagic ++ d.body ++ leBytes 1 (headerChecksum d.body)

def hasContentSize (flags : Nat) : Bool := flags / 8 % 2 = 1
def hasDictionary (flags : Nat) : Bool := flags % 2 = 1

/-- Checks the first six bytes. The number is that of the header bytes after them. -/
def restLength (start : ByteArray) : Except Error Nat := do
  if readLE start 0 4 ≠ frameMagic then throw (.frame .magic)
  let flags := (byteAt start 4).toNat
  if flags / 64 ≠ 1 then throw (.frame .version)
  if flags / 2 % 2 = 1 then throw (.frame .reservedFlag)
  let block := (byteAt start 5).toNat
  if 128 ≤ block ∨ block % 16 ≠ 0 then throw (.frame .reservedDescriptor)
  let _ ← BlockSize.ofCode (block / 16)
  return 1 + bit (hasContentSize flags) 8 + bit (hasDictionary flags) 4

/-- The descriptor in a header, whose checksum byte is not compared. -/
def ofHeader (start rest : ByteArray) : Except Error Descriptor := do
  let n ← restLength start
  if rest.size ≠ n then throw (.frame .truncatedHeader)
  let flags := (byteAt start 4).toNat
  let blockSize ← BlockSize.ofCode ((byteAt start 5).toNat / 16)
  return {
    blockSize
    independent := flags / 32 % 2 = 1
    blockChecksum := flags / 16 % 2 = 1
    contentChecksum := flags / 4 % 2 = 1
    contentSize := if hasContentSize flags then some (readLE rest 0 8) else none
    dictionary :=
      if hasDictionary flags then some (readLE rest (bit (hasContentSize flags) 8) 4) else none }

/-- The descriptor at the start of `src`, and how many bytes its header takes. -/
def read (src : ByteArray) : Except Error (Descriptor × Nat) := do
  if src.size < headerStart then throw (.frame .truncatedHeader)
  let start := src.extract 0 headerStart
  let n ← restLength start
  if src.size < headerStart + n then throw (.frame .truncatedHeader)
  return (← ofHeader start (src.extract headerStart (headerStart + n)), headerStart + n)

end Descriptor

end LempelZiv
