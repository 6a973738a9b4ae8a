import LempelZiv.Command.Overwrite
import LempelZiv.Command.Percentage
import LempelZiv.Command.Session
import LempelZiv.Frame.Writer

namespace LempelZiv

namespace Run

def frameExtension : String := ".lz4"
def blockExtension : String := ".lz4b"

/-- What stands before the extension; a name without it has nothing. -/
def stripExtension (extension name : String) : Option String :=
  if name.endsWith extension then
    some (String.ofList (name.toList.take (name.length - extension.length)))
  else none

/-- The size that the system reports of a directory. -/
def directorySize : Nat := 4096

def declaredSize (input : String) : Run (Option Nat) := do
  if input = Arguments.dash then
    note .sizeUnknown
    return none
  let s ← get
  match s.files.open? input with
  | .ok (.file name) => return some ((s.files.content? name).getD ByteArray.empty).size
  | .ok .directory => return some directorySize
  | .error e => throw (.stat input e)

/-- Gives up a frame after an error. What has been written of it stays. -/
def abandon (w : Writer Memory) (target : Target) (e : CommandError) : Run Unit := do
  let w := w.drop
  notes w.notices
  deliver target w.sink.held
  throw e

def compress (paths : Paths) (options : FrameOptions) (contentSize : Bool) : Run Unit := do
  let options ←
    if contentSize then pure { options with contentSize := ← declaredSize paths.input }
    else pure options
  let outName ← outputName paths fun input => some (input ++ frameExtension)
  let origin ← openInput paths.input
  let target ← openOutput outName paths.force
  let w : Writer Memory := Writer.new ⟨⟨⟩, ByteArray.empty, 0⟩ options
  match ← content origin with
  | .error e => abandon w target (.compression paths.input (.stream e.toStream))
  | .ok bytes =>
    match if bytes.isEmpty then (.ok (), w) else w.writeData bytes with
    | (.error e, w) => abandon w target (.compression paths.input e)
    | (.ok (), w) =>
      let (finished, w) := w.finish
      notes w.notices
      deliver target w.sink.held
      ofLibrary finished
      note (.packed w.written w.sink.held.size (percentage w.sink.held.size w.written))

/-- A source over what can be read of the input. -/
def sourceOf : Except FileError ByteArray → Source ReadAhead
  | .ok bytes => ⟨⟨fileChunk, 0, none⟩, bytes, 0⟩
  | .error e => ⟨⟨fileChunk, 0, some e.toStream⟩, ByteArray.empty, 0⟩

/-- A reader of a frame whose header has been read. -/
def openFrame (input : String) : Run (Origin × Descriptor × Reader ReadAhead) := do
  let origin ← openInput input
  let r := Reader.new (sourceOf (← content origin))
  let (d, r) := r.info
  notes r.notices
  match d with
  | .ok d => return (origin, d, { r with notices := [] })
  | .error e => throw (.notFrame input e)

/-- The output is the file that is read. -/
def inPlace : Origin → Target → Bool
  | .opened (.file a), .file b => a = b
  | _, _ => false

def decompress (paths : Paths) : Run Unit := do
  let outName ← outputName paths (stripExtension frameExtension)
  let (origin, d, r) ← openFrame paths.input
  note (.blockSize (d.blockSize.bytes / 1024))
  let target ← openOutput outName paths.force
  let all := if inPlace origin target then overwrite r else r.drain fileChunk
  notes all.reader.notices
  deliver target all.bytes
  match all.error with
  | some e => throw (.decompression paths.input e)
  | none => note (.decoded all.bytes.size)

def yesNo (b : Bool) : String := if b then "true" else "false"

/-- The lines that describe a header. -/
def describe (input : String) (d : Descriptor) : List String :=
  [input,
    s!"  block size       : {d.blockSize.bytes / 1024} KB",
    "  block mode       : " ++ (if d.independent then "independent" else "linked"),
    "  block checksum   : " ++ yesNo d.blockChecksum,
    "  content checksum : " ++ yesNo d.contentChecksum,
    "  content size     : " ++
      (match d.contentSize with | some n => toString n | none => "unknown")]
  ++ (match d.dictionary with | some n => ["  dictionary id    : " ++ hexWord n] | none => [])

def info (input : String) : Run Unit := do
  let (_, d, _) ← openFrame input
  deliver .standard (String.join ((describe input d).map (· ++ "\n"))).toUTF8

def block (paths : Paths) (level : Nat) (variant : Variant) (threads chunkSize : Nat) :
    Run Unit := do
  let outName ← outputName paths fun input => some (input ++ blockExtension)
  let data ← readAll paths.input
  let c ← ofLibrary (Compressor.new threads chunkSize variant)
  let (packed, c) := c.start.compress data level
  notes c.stop.notices
  let packed ← ofLibrary packed
  let target ← openOutput outName paths.force
  deliver target packed
  note (.packed data.size packed.size (percentage packed.size data.size))

def unblock (paths : Paths) (maxSize : Nat) : Run Unit := do
  let outName ← outputName paths (stripExtension blockExtension)
  let data ← readAll paths.input
  let raw ← ofLibrary (LempelZiv.decompress data maxSize)
  let target ← openOutput outName paths.force
  deliver target raw
  note (.decoded raw.size)

def frameOptions (level : Nat) (variant : Variant) (blockSize : Nat)
    (contentChecksum blockChecksum : Bool) : Except Error FrameOptions := do
  let o ← FrameOptions.ofLevel level
  let blockSize ← BlockSize.ofCode blockSize
  return { o with blockSize, variant, contentChecksum, blockChecksum }

def command : Command → Run Unit
  | .compress paths level variant blockSize contentChecksum blockChecksum contentSize => do
    let o ← ofLibrary (frameOptions level variant blockSize contentChecksum blockChecksum)
    compress paths o contentSize
  | .decompress paths => decompress paths
  | .info input => info input
  | .block paths level variant threads chunkSize => do
    let _ ← ofLibrary (Level.ofNat level)
    block paths level variant threads chunkSize
  | .unblock paths maxSize => unblock paths maxSize

end Run

/-- Carries out an invocation. The session that comes back has all it did, also before an error. -/
def Invocation.run (i : Invocation) (s : Session) : Except CommandError Unit × Session :=
  (Run.command i.command).run.run s

/-- The messages that an invocation shows. -/
def Invocation.shown (i : Invocation) (s : Session) : List String :=
  (s.notices.reverse.filter (·.verbosity ≤ i.verbosity)).map Notice.message

end LempelZiv
