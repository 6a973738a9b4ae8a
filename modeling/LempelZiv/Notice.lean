import LempelZiv.Error

namespace LempelZiv

/-- What the library has to say while it works. Each notice has the verbosity from which on it
is shown. -/
inductive Notice where
  | workersClamped (asked used : Nat)
  | sizeUnknown
  | outputName (name : String)
  | headerWritten (level blockKB flags : Nat)
  | headerRead (blockKB : Nat) (independent : Bool) (contentSize : Option Nat)
  | blockSize (blockKB : Nat)
  | block (consumed produced : Nat) (stored : Bool)
  | frameClosed (bytes : Nat)
  | poolStarted (workers slots chunk : Nat)
  | poolStopped
  | dispatched (chunks chunk workers : Nat)
  | packed (consumed produced : Nat) (percentage : String)
  | decoded (bytes : Nat)
  deriving DecidableEq, Repr

namespace Notice

def verbosity : Notice → Nat
  | workersClamped .. => 2
  | sizeUnknown => 2
  | packed .. => 2
  | decoded .. => 2
  | outputName .. => 3
  | headerWritten .. => 4
  | headerRead .. => 4
  | blockSize .. => 4
  | frameClosed .. => 4
  | poolStarted .. => 4
  | poolStopped => 4
  | block .. => 5
  | dispatched .. => 5

def sizeText : Option Nat → String
  | none => "None"
  | some n => s!"Some({n})"

def message : Notice → String
  | workersClamped asked used => s!"warning: worker count {asked} clamped to {used}"
  | sizeUnknown => "warning: content size unknown for stdin, not recorded"
  | outputName name => "output file will be: " ++ name
  | headerWritten level blockKB flags =>
    s!"frame header: level {level}, block {blockKB} KB, flags " ++ hexByte flags
  | headerRead blockKB independent contentSize =>
    s!"frame header: block {blockKB} KB, " ++ (if independent then "independent" else "linked")
      ++ " blocks, content size " ++ sizeText contentSize
  | blockSize blockKB => s!"block size: {blockKB} KB"
  | block consumed produced stored =>
    s!"frame block: {consumed} -> {produced} bytes" ++ (if stored then " (stored)" else "")
  | frameClosed bytes => s!"frame closed after {bytes} bytes"
  | poolStarted workers slots chunk =>
    s!"dispatcher started: {workers} workers, queue depth {slots}, chunk {chunk} bytes"
  | poolStopped => "dispatcher stopped"
  | dispatched chunks chunk workers =>
    s!"dispatching {chunks} chunks of {chunk} bytes to {workers} workers"
  | packed consumed produced percentage =>
    s!"compressed {consumed} bytes into {produced} bytes (" ++ percentage ++ "%)"
  | decoded bytes => s!"decoded {bytes} bytes"

end Notice

end LempelZiv
