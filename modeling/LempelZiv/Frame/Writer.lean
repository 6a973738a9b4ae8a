import LempelZiv.Notice
import LempelZiv.Frame.Header
import LempelZiv.Frame.Options
import LempelZiv.Stream.Sink

namespace LempelZiv

/-- The result of a step that leaves a state behind, also when it fails. -/
abbrev Outcome (σ : Type) : Type := Except Error Unit × σ

def Outcome.andThen {σ : Type} (r : Outcome σ) (f : σ → Outcome σ) : Outcome σ :=
  match r with
  | (.ok (), s) => f s
  | (.error e, s) => (.error e, s)

/-- The bit of a block's size word that marks its bytes as stored. -/
def storedFlag : Nat := 2147483648

inductive WriterPhase where
  /-- No header has been written. -/
  | fresh
  | begun
  | closed
  deriving DecidableEq, Repr

/-- A frame on its way into a sink. Data gathers in `buffer` until it fills a block. -/
structure Writer (δ : Type) where
  sink : Sink δ
  options : FrameOptions
  phase : WriterPhase := .fresh
  buffer : ByteArray := ByteArray.empty
  digest : Option XXH32
  written : Nat := 0
  /-- Some step failed. A dropped writer then leaves the frame open. -/
  failed : Bool := false
  /-- What there was to say, the last first. -/
  notices : List Notice := []

namespace Writer

variable {δ : Type}

def new (sink : Sink δ) (options : FrameOptions) : Writer δ where
  sink := sink
  options := options
  digest := if options.contentChecksum then some (XXH32.start 0) else none

def isClosed (w : Writer δ) : Bool := w.phase = .closed

def blockBytes (w : Writer δ) : Nat := w.options.blockSize.bytes

def note (w : Writer δ) (n : Notice) : Writer δ := { w with notices := n :: w.notices }

/-- Marks the writer when a step has failed. -/
def marked (r : Outcome (Writer δ)) : Outcome (Writer δ) :=
  match r with
  | (.ok (), w) => (.ok (), w)
  | (.error e, w) => (.error e, { w with failed := true })

/-- Empties the buffer after its block has been written. -/
def cleared (w : Writer δ) : Writer δ := { w with buffer := ByteArray.empty, phase := .begun }

variable [Device δ]

def emit (bytes : ByteArray) (w : Writer δ) : Outcome (Writer δ) :=
  let ⟨sink, options, phase, buffer, digest, written, failed, notices⟩ := w
  match sink.writeAll bytes with
  | (.ok (), sink) => (.ok (), ⟨sink, options, phase, buffer, digest, written, failed, notices⟩)
  | (.error e, sink) =>
    (.error (.stream e), ⟨sink, options, phase, buffer, digest, written, failed, notices⟩)

def flushSink (w : Writer δ) : Outcome (Writer δ) :=
  match w.sink.flush with
  | (.ok (), sink) => (.ok (), { w with sink := sink })
  | (.error e, sink) => (.error (.stream e), { w with sink := sink })

def writeHeader (w : Writer δ) : Outcome (Writer δ) :=
  if w.phase = .fresh then
    let d := w.options.descriptor
    (emit d.header w).andThen fun w =>
      (.ok (), { w.note (.headerWritten w.options.level.number (w.blockBytes / 1024) d.flags) with
        phase := .begun })
  else (.ok (), w)

/-- The size word and the bytes of a block for `data`: packed if that is shorter. -/
def blockParts (o : BlockOptions) (data : ByteArray) : Except Fault (Nat × ByteArray) :=
  if minBlockSize ≤ data.size then
    match packChunk data o with
    | .error f => .error f
    | .ok packed =>
      if packed.size < data.size then .ok (packed.size, packed)
      else .ok (data.size + storedFlag, data)
  else .ok (data.size + storedFlag, data)

/-- Writes the buffer as one block, and leaves it as it is. -/
def emitBlock (w : Writer δ) : Outcome (Writer δ) :=
  match blockParts w.options.block w.buffer with
  | .error f => (.error (.fault f), w)
  | .ok (word, payload) =>
    (emit (leBytes 4 word) (w.note (.block w.buffer.size payload.size (storedFlag ≤ word)))).andThen
      fun w => (emit payload w).andThen fun w =>
        if w.options.blockChecksum then emit (leBytes 4 (xxh32 0 payload).toNat) w
        else (.ok (), w)

/-- Writes what the buffer holds, if anything, as one block. -/
def flushBlock (w : Writer δ) : Outcome (Writer δ) :=
  if w.buffer.isEmpty then (.ok (), w)
  else w.emitBlock.andThen fun w => (.ok (), w.cleared)

/-- Takes the bytes of `data` from `i` on into the buffer, and writes it whenever it is full. -/
def fill (w : Writer δ) (data : ByteArray) (i : Nat) : Outcome (Writer δ) :=
  if _h : i < data.size then
    let ⟨sink, options, _, buffer, digest, written, failed, notices⟩ := w
    let next := i + min (options.blockSize.bytes - buffer.size) (data.size - i)
    let w : Writer δ :=
      ⟨sink, options, .begun, buffer ++ data.extract i next, digest, written, failed, notices⟩
    if w.buffer.size < w.blockBytes then fill w data next
    else
      match marked w.emitBlock with
      | (.error e, w) => (.error e, w)
      | (.ok (), w) => fill w.cleared data next
  else (.ok (), w)
  termination_by (data.size - i, w.buffer.size)
  decreasing_by
    · next hfull =>
      have hsize : buffer.size < options.blockSize.bytes := by
        have : (buffer ++ data.extract i next).size < options.blockSize.bytes := hfull
        rw [ByteArray.size_append] at this
        omega
      exact Prod.Lex.left _ _ (by omega)
    · next w1 _ =>
      by_cases hroom : buffer.size < options.blockSize.bytes
      · exact Prod.Lex.left _ _ (by omega)
      · rw [Nat.sub_eq_zero_of_le (Nat.le_of_not_lt hroom), Nat.zero_min, Nat.add_zero]
        refine Prod.Lex.right _ ?_
        have := options.blockSize.bytes_pos
        show 0 < buffer.size
        omega

/-- Accepts `data` into the frame. -/
def writeData (w : Writer δ) (data : ByteArray) : Outcome (Writer δ) :=
  if w.isClosed then (.error .closed, w)
  else
    (marked w.writeHeader).andThen fun w =>
      fill { w with
        digest := w.digest.map (·.update data)
        written := w.written + data.size } data 0

/-- The end of a frame: what is left in the buffer, the end mark and the content's digest. -/
def finishFrame (w : Writer δ) : Outcome (Writer δ) :=
  w.writeHeader.andThen fun w => w.flushBlock.andThen fun w =>
    (emit (leBytes 4 0) w).andThen fun w =>
      (match w.digest with
        | some x => emit (leBytes 4 x.digest.toNat) w
        | none => (.ok (), w)).andThen flushSink

/-- Ends the frame, once. A content of another size than declared closes the writer, too, and
leaves the frame open. -/
def close (w : Writer δ) : Outcome (Writer δ) :=
  if w.isClosed then (.ok (), w)
  else
    match w.options.contentSize with
    | some declared =>
      if declared = w.written then terminate w
      else (.error (.contentSize declared w.written), { w with phase := .closed, failed := true })
    | none => terminate w
where
  terminate (w : Writer δ) : Outcome (Writer δ) :=
    (marked w.finishFrame).andThen fun w =>
      (.ok (), { w.note (.frameClosed w.written) with phase := .closed })

/-- Writes the buffer as a block and flushes the sink. -/
def flush (w : Writer δ) : Outcome (Writer δ) :=
  if w.isClosed then (.ok (), w) else (marked w.flushBlock).andThen flushSink

/-- Gives up the writer: a frame without failures is closed as well as can be. -/
def drop (w : Writer δ) : Writer δ :=
  if w.failed || w.isClosed then w else w.close.2

/-- Closes the frame and gives up the writer, whatever comes of it. -/
def finish (w : Writer δ) : Outcome (Writer δ) :=
  match w.close with
  | (.ok (), w) => (.ok (), w)
  | (.error e, w) => (.error e, w.drop)

end Writer

/-- One complete frame for `data`. -/
def compressFrame (data : ByteArray) (options : FrameOptions) : Except Error ByteArray :=
  let w : Writer Memory := Writer.new ⟨⟨⟩, ByteArray.empty, 0⟩ options
  match (w.writeData data).andThen Writer.finish with
  | (.ok (), w) => .ok w.sink.held
  | (.error e, _) => .error e

end LempelZiv
