import LempelZiv.Size

namespace LempelZiv

/-- The kinds of failure that a byte stream can report. -/
inductive StreamFailure where
  | brokenPipe
  | invalidInput
  | invalidData
  | timedOut
  | writeZero
  | unexpectedEnd
  | other
  deriving DecidableEq, Repr

structure StreamError where
  failure : StreamFailure
  text : String
  deriving DecidableEq, Repr

inductive FrameFlaw where
  | magic
  | version
  | reservedFlag
  | reservedDescriptor
  | blockSizeCode
  | truncatedHeader
  | unexpectedEnd
  | failedEarlier
  | oversizedBlock
  | noted (text : String)
  deriving DecidableEq, Repr

inductive BlockFlaw where
  | emptyBlock
  | truncatedToken
  | truncatedLiteralLength
  | truncatedMatchLength
  | lengthOverflow
  | literalsPastEnd
  | truncatedOffset
  | emptyBody
  | noted (text : String)
  deriving DecidableEq, Repr

inductive PoolFlaw where
  | noCapacity (workers slots : Nat)
  | noted (text : String)
  deriving DecidableEq, Repr

inductive ChecksumKind where
  | block
  | content
  deriving DecidableEq, Repr

/-- Why an operation of the library fails. -/
inductive Error where
  | blockSize (size : Nat)
  | level (level : Nat)
  | frame (flaw : FrameFlaw)
  | block (flaw : BlockFlaw)
  | matchOffset (offset position : Nat)
  | capacity (limit : Nat)
  | destination (needed available : Nat)
  | checksum (kind : ChecksumKind) (expected actual : Nat)
  | contentSize (declared actual : Nat)
  | closed
  | pool (flaw : PoolFlaw)
  | worker (chunk : Nat)
  | stream (error : StreamError)
  | fault (fault : Fault)
  deriving DecidableEq, Repr

instance : MonadLift (Except Fault) (Except Error) where
  monadLift
    | .ok a => .ok a
    | .error f => .error (.fault f)

def FrameFlaw.message : FrameFlaw → String
  | magic => "bad magic number"
  | version => "unsupported frame version"
  | reservedFlag => "reserved flag bit set"
  | reservedDescriptor => "reserved block descriptor bits set"
  | blockSizeCode => "unsupported block size code"
  | truncatedHeader => "truncated frame header"
  | unexpectedEnd => "unexpected end of frame"
  | failedEarlier => "frame reader failed earlier"
  | oversizedBlock => "block larger than frame maximum"
  | noted text => text

def BlockFlaw.message : BlockFlaw → String
  | emptyBlock => "empty block"
  | truncatedToken => "truncated token"
  | truncatedLiteralLength => "truncated literal length"
  | truncatedMatchLength => "truncated match length"
  | lengthOverflow => "length overflow"
  | literalsPastEnd => "literal run past end of block"
  | truncatedOffset => "truncated match offset"
  | emptyBody => "empty chunk body"
  | noted text => text

def PoolFlaw.message : PoolFlaw → String
  | noCapacity workers slots =>
    s!"need at least one worker and one queue slot (got {workers}, {slots})"
  | noted text => text

def ChecksumKind.name : ChecksumKind → String
  | block => "block"
  | content => "content"

/-- The `k` lowest hexadecimal digits of `n`, the highest first, before `rest`. -/
def hexDigits : (k n : Nat) → (rest : List Char) → List Char
  | 0, _, rest => rest
  | k + 1, n, rest => hexDigits k (n / 16) (Nat.digitChar (n % 16) :: rest)

/-- A byte as two hexadecimal digits, a word as eight, after the mark `0x`. -/
def hexByte (n : Nat) : String := String.ofList ('0' :: 'x' :: hexDigits 2 n [])
def hexWord (n : Nat) : String := String.ofList ('0' :: 'x' :: hexDigits 8 n [])

def Error.message : Error → String
  | blockSize size => s!"invalid block size {size} (expected 16..=4194304 bytes)"
  | level n => s!"invalid compression level {n} (expected 1..=12)"
  | frame flaw => "invalid frame format: " ++ flaw.message
  | block flaw => "malformed block: " ++ flaw.message
  | matchOffset offset position =>
    s!"invalid match offset {offset} at output position {position}"
  | capacity limit => s!"decompressed size would exceed {limit} bytes"
  | destination needed available =>
    s!"destination buffer too small: need {needed} bytes, have {available}"
  | checksum kind expected actual =>
    kind.name ++ " checksum mismatch: expected " ++ hexWord expected ++ ", computed "
      ++ hexWord actual
  | contentSize declared actual =>
    s!"content size mismatch: declared {declared} bytes, got {actual}"
  | closed => "stream already closed"
  | pool flaw => "worker pool unavailable: " ++ flaw.message
  | worker chunk => s!"worker failed while compressing chunk {chunk}"
  | stream error => error.text
  | fault _ => "internal fault"

/-- How a stream reports the error to its user. -/
def Error.toStream : Error → StreamError
  | stream error => error
  | closed => ⟨.brokenPipe, Error.message .closed⟩
  | blockSize size => ⟨.invalidInput, Error.message (.blockSize size)⟩
  | level n => ⟨.invalidInput, Error.message (.level n)⟩
  | pool flaw => ⟨.invalidInput, Error.message (.pool flaw)⟩
  | worker chunk => ⟨.invalidInput, Error.message (.worker chunk)⟩
  | destination needed available => ⟨.invalidInput, Error.message (.destination needed available)⟩
  | e => ⟨.invalidData, e.message⟩

end LempelZiv
