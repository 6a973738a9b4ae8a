import LempelZiv.Command.Arguments
import LempelZiv.Command.Error
import LempelZiv.Notice

namespace LempelZiv

/-- Everything that a command reads and leaves behind. -/
structure Session where
  files : Files
  input : ByteArray
  /-- Standard input is a console, which is never read. -/
  console : Bool := false
  output : ByteArray := ByteArray.empty
  /-- What there was to say, the last first. -/
  notices : List Notice := []

/-- A step of a command. What it did before an error stays done. -/
abbrev Run (α : Type) : Type := ExceptT CommandError (StateM Session) α

namespace Run

def note (n : Notice) : Run Unit := modify fun s => { s with notices := n :: s.notices }

def notes (ns : List Notice) : Run Unit := modify fun s => { s with notices := ns ++ s.notices }

def ofLibrary {α : Type} : Except Error α → Run α
  | .ok a => pure a
  | .error e => throw (.library e)

/-- Where a command takes its bytes from. -/
inductive Origin where
  | standard
  | opened (o : Files.Opened)
  deriving DecidableEq

/-- Where a command puts its bytes. -/
inductive Target where
  | standard
  | file (name : String)
  deriving DecidableEq

def openInput (path : String) : Run Origin := do
  let s ← get
  if path = Arguments.dash then
    if s.console then throw .console
    return .standard
  match s.files.open? path with
  | .ok o => return .opened o
  | .error e => throw (.cannotOpen path e)

/-- The bytes that a reader finds now. A directory has none, only an error. -/
def content (o : Origin) : Run (Except FileError ByteArray) := do
  let s ← get
  match o with
  | .standard => return .ok s.input
  | .opened .directory => return .error .isDirectory
  | .opened (.file name) => return .ok ((s.files.content? name).getD ByteArray.empty)

def readAll (path : String) : Run ByteArray := do
  match ← content (← openInput path) with
  | .ok bytes => return bytes
  | .error e => throw (.unreadable path e)

/-- Opens the output; a file is empty from then on. -/
def openOutput (path : String) (force : Bool) : Run Target := do
  if path = Arguments.dash then return .standard
  let s ← get
  if !force && s.files.pathExists path then throw (.occupied path)
  match s.files.create path with
  | .ok (name, files) =>
    set { s with files := files }
    return .file name
  | .error e => throw (.cannotCreate path e)

def deliver (t : Target) (bytes : ByteArray) : Run Unit :=
  modify fun s =>
    match t with
    | .standard => { s with output := s.output ++ bytes }
    | .file name => { s with files := s.files.put name bytes }

/-- The output asked for, standard output for standard input, or a name made from the input's. -/
def outputName (paths : Paths) (derive : String → Option String) : Run String :=
  match paths.output with
  | some name => return name
  | none =>
    if paths.input = Arguments.dash then return Arguments.dash
    else
      match derive paths.input with
      | some name => do
        note (.outputName name)
        return name
      | none => throw (.noOutputName paths.input)

end Run

end LempelZiv
