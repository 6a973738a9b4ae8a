import LempelZiv.Command.Files

namespace LempelZiv

/-- Why a command fails. -/
inductive CommandError where
  | console
  | stat (path : String) (error : FileError)
  | noOutputName (input : String)
  | cannotOpen (path : String) (error : FileError)
  | occupied (path : String)
  | cannotCreate (path : String) (error : FileError)
  | unreadable (path : String) (error : FileError)
  | compression (path : String) (error : Error)
  | notFrame (path : String) (error : Error)
  | decompression (path : String) (error : Error)
  | library (error : Error)
  deriving DecidableEq, Repr

def CommandError.message : CommandError → String
  | console => "refusing to read from a console"
  | stat path e => path ++ ": cannot stat input: " ++ e.message
  | noOutputName input => "cannot determine an output filename for " ++ input
  | cannotOpen path e => path ++ ": cannot open input: " ++ e.message
  | occupied path => path ++ " already exists; use --force to overwrite"
  | cannotCreate path e => path ++ ": cannot create output: " ++ e.message
  | unreadable path e => path ++ ": read error: " ++ e.message
  | compression path e => path ++ ": compression failed: " ++ e.message
  | notFrame path e => path ++ ": not an LZ4 frame: " ++ e.message
  | decompression path e => path ++ ": decompression failed: " ++ e.message
  | library e => e.message

end LempelZiv
