import LempelZiv.Command.Run
import LempelZiv.Version

namespace LempelZiv

/-- The paths that a command may read or write. -/
def Command.mentioned : Command → List String
  | .compress p .. => both p frameExtension
  | .decompress p => both p frameExtension
  | .block p .. => both p blockExtension
  | .unblock p _ => both p blockExtension
  | .info input => [input]
where
  both (p : Paths) (extension : String) : List String :=
    [p.input, p.output.getD (p.input ++ extension)] ++ (Run.stripExtension extension p.input).toList
  frameExtension := Run.frameExtension
  blockExtension := Run.blockExtension

/-- Takes a path of the system into the session's files. -/
def loadPath (fs : Files) (path : String) : IO Files := do
  if (fs.content? path).isSome || fs.directories.contains path then return fs
  try
    if ← (← IO.FS.realPath path).isDir then
      return { fs with directories := path :: fs.directories }
    else return fs.put path (← IO.FS.readBinFile path)
  catch _ => return fs

/-- All that a stream still has. -/
partial def readRest (stream : IO.FS.Stream) (read : ByteArray) : IO ByteArray := do
  let more ← stream.read 65536
  if more.isEmpty then return read else readRest stream (read ++ more)

/-- The name under which the program speaks of itself. -/
def programName : String := "lz4chain"

def usageText : String :=
  "usage: [-v] [-q] compress|decompress|info|block|unblock [options] [input]"

def refusal : UsageError → String
  | .unknownArgument => "unexpected argument"
  | .missingValue => "a value is required for an option"
  | .badValue => "invalid value for an option"
  | .repeated => "an option cannot be used multiple times"
  | .unwantedValue => "unexpected value for a flag"
  | .missingRequired => "the option --max-size is required"
  | .missingCommand => "a command is required"
  | .unknownCommand => "unrecognized command"
  | .help => usageText
  | .helpForNothing => usageText
  | .version => programName ++ " " ++ versionText

end LempelZiv

open LempelZiv in
def main (args : List String) : IO UInt32 := do
  let level ← IO.getEnv "LZ4_CLEVEL"
  let workers ← IO.getEnv "LZ4_NBWORKERS"
  match Invocation.ofArguments args ⟨level, workers, 1⟩ with
  | .error e =>
    if e = .help ∨ e = .version then
      IO.println (refusal e)
      return 0
    else
      IO.eprintln (refusal e)
      return 2
  | .ok invocation =>
    let mentioned := invocation.command.mentioned
    let mut files : Files := {}
    for path in mentioned.flatMap Directory.waypoints do
      files ← loadPath files path
    let stdin ← IO.getStdin
    let console ← stdin.isTty
    let input ←
      if mentioned.contains Arguments.dash && !console then readRest stdin ByteArray.empty
      else pure ByteArray.empty
    let (result, session) := invocation.run ({ files, input, console } : Session)
    for (path, bytes) in session.files.entries do
      if (files.content? path).map ByteArray.data ≠ some bytes.data then IO.FS.writeBinFile path bytes
    let stdout ← IO.getStdout
    stdout.write session.output
    stdout.flush
    for line in invocation.shown session do
      IO.eprintln line
    match result with
    | .ok () => return 0
    | .error e =>
      IO.eprintln (programName ++ ": " ++ e.message)
      return 1
