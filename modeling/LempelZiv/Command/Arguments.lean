import LempelZiv.Level
import LempelZiv.Parallel.Compressor
import LempelZiv.Command.Options

namespace LempelZiv

structure Paths where
  input : String
  output : Option String
  force : Bool
  deriving DecidableEq, Repr

inductive Command where
  | compress (paths : Paths) (level : Nat) (variant : Variant) (blockSize : Nat)
      (contentChecksum blockChecksum contentSize : Bool)
  | decompress (paths : Paths)
  | info (input : String)
  | block (paths : Paths) (level : Nat) (variant : Variant) (threads chunkSize : Nat)
  | unblock (paths : Paths) (maxSize : Nat)
  deriving DecidableEq, Repr

structure Invocation where
  verbose : Nat
  quiet : Nat
  command : Command
  deriving DecidableEq, Repr

/-- Notices up to this verbosity are shown. -/
def Invocation.verbosity (i : Invocation) : Nat := min (2 + i.verbose - i.quiet) 5

/-- Values for options that the command line leaves out. -/
structure Surroundings where
  level : Option String := none
  workers : Option String := none
  processors : Nat := 1

namespace Arguments

/-- The name that stands for standard input or output. -/
def dash : String := "-"

inductive Value where
  | on
  | text (s : String)
  | number (n : Nat)
  deriving DecidableEq, Repr

/-- What has been read of a command line. An option may still wait for its value, or for the check
of it, which comes when something else is read. -/
structure Reading where
  verbose : Option Nat := none
  quiet : Option Nat := none
  given : List (OptionName × Value) := []
  input : Option String := none
  waiting : Option (OptionName × Option String) := none

/-- A decimal number, with a plus sign if one likes. -/
def number? (s : String) : Option Nat :=
  let digits := match s.toList with
    | '+' :: cs => cs
    | cs => cs
  if digits ≠ [] ∧ digits.all Char.isDigit then
    some (digits.foldl (fun n c => n * 10 + (c.toNat - '0'.toNat)) 0)
  else none

def checkValue (o : OptionName) (s : String) : Except UsageError Value :=
  match o.kind with
  | .none => .ok .on
  | .text => .ok (.text s)
  | .number low high =>
    match number? s with
    | some n => if low ≤ n ∧ n ≤ high then .ok (.number n) else .error .badValue
    | none => .error .badValue

/-- One more mention of a counted flag; the count stops at 255. -/
def counted (n : Option Nat) : Option Nat := some (min (n.getD 0 + 1) 255)

namespace Reading

def value? (r : Reading) (o : OptionName) : Option Value := r.given.lookup o

def has (r : Reading) (o : OptionName) : Bool := (r.value? o).isSome

/-- Records an option with its value, if that is the first mention of it. -/
def give (r : Reading) (o : OptionName) (s : String) : Except UsageError Reading :=
  if r.has o then .error .repeated
  else (checkValue o s).map fun v => { r with given := (o, v) :: r.given }

/-- Settles the option that waits. -/
def settle (r : Reading) : Except UsageError Reading :=
  match r.waiting with
  | none => .ok r
  | some (_, none) => .error .missingValue
  | some (o, some s) => { r with waiting := none }.give o s

/-- A flag, or an option together with its value. -/
def mention (r : Reading) (o : OptionName) (s : String) : Except UsageError Reading := do
  let r ← r.settle
  match o with
  | .help => throw .help
  | .version => throw .version
  | .verbose => return { r with verbose := counted r.verbose }
  | .quiet => return { r with quiet := counted r.quiet }
  | o => r.give o s

/-- An option whose value comes with the next argument. -/
def await (r : Reading) (o : OptionName) : Except UsageError Reading := do
  return { ← r.settle with waiting := some (o, none) }

/-- A plain argument: the value that an option waits for, or the input. -/
def plain (r : Reading) (s : String) (ended : Bool) : Except UsageError Reading :=
  match r.waiting, ended with
  | some (o, none), false => .ok { r with waiting := some (o, some s) }
  | _, _ =>
    if r.input.isSome then .error .unknownArgument
    else r.settle.map ({ · with input := some s })

def long (r : Reading) (options : List OptionName) (name : String) (value : Option String) :
    Except UsageError Reading :=
  match options.find? (·.long = name) with
  | none => .error .unknownArgument
  | some o =>
    if o.kind = .none then
      match value with
      | some _ => .error .unwantedValue
      | none => r.mention o ""
    else
      match value with
      | some s => r.mention o s
      | none => r.await o

/-- A cluster of one-letter options; the first that wants a value takes the rest of it. -/
def short (r : Reading) (options : List OptionName) : List Char → Except UsageError Reading
  | [] => .ok r
  | c :: cs =>
    match options.find? (·.short? = some c) with
    | none => .error .unknownArgument
    | some o =>
      if o.kind = .none then
        match r.mention o "" with
        | .ok r => short r options cs
        | .error e => .error e
      else
        match cs with
        | [] => r.await o
        | '=' :: cs => r.mention o (String.ofList cs)
        | cs => r.mention o (String.ofList cs)

end Reading

/-- The forms of an argument, as long as options are read. -/
inductive Form where
  | end
  | long (name : String) (value : Option String)
  | short (letters : List Char)
  | plain

def Form.of (s : String) : Form :=
  match s.toList with
  | ['-', '-'] => .end
  | '-' :: '-' :: cs =>
    match cs.dropWhile (· ≠ '=') with
    | [] => .long (String.ofList cs) none
    | _ :: value => .long (String.ofList (cs.takeWhile (· ≠ '='))) (some (String.ofList value))
  | '-' :: c :: cs => .short (c :: cs)
  | _ => .plain

/-- Reads the arguments after a command. After `--` all of them are plain. -/
def readAfter (options : List OptionName) (r : Reading) (ended : Bool) :
    List String → Except UsageError Reading
  | [] => r.settle
  | s :: rest =>
    if ended then
      match r.plain s true with
      | .ok r => readAfter options r true rest
      | .error e => .error e
    else
      match Form.of s with
      | .end => readAfter options r true rest
      | form =>
        match (match form with
          | .long name value => r.long options name value
          | .short letters => r.short options letters
          | _ => r.plain s false) with
        | .ok r => readAfter options r false rest
        | .error e => .error e

/-- A number given on the command line, else by the surroundings, else the usual one. -/
def numberOf (r : Reading) (o : OptionName) (surrounding : Option String) (usual : Nat) :
    Except UsageError Nat :=
  match r.value? o, surrounding with
  | some (.number n), _ => .ok n
  | _, some s =>
    match checkValue o s with
    | .ok (.number n) => .ok n
    | .ok _ => .ok usual
    | .error e => .error e
  | _, none => .ok usual

def paths (r : Reading) : Paths where
  input := r.input.getD dash
  output := match r.value? .output with
    | some (.text s) => some s
    | _ => none
  force := r.has .force

def variant (r : Reading) : Variant := if r.has .baseline then .baseline else .improved

def command (name : CommandName) (r : Reading) (s : Surroundings) : Except UsageError Command :=
  match name with
  | .compress => do
    let level ← numberOf r .level s.level 6
    let blockSize ← numberOf r .blockSize none 4
    return .compress (paths r) level (variant r) blockSize (r.has .contentChecksum)
      (r.has .blockChecksum) (r.has .contentSize)
  | .decompress => .ok (.decompress (paths r))
  | .info => .ok (.info (paths r).input)
  | .block => do
    let level ← numberOf r .level s.level 6
    let threads ← numberOf r .threads s.workers s.processors
    let chunkSize ← numberOf r .chunkSize none standardChunk
    return .block (paths r) level (variant r) threads chunkSize
  | .unblock =>
    match r.value? .maxSize with
    | some (.number n) => .ok (.unblock (paths r) n)
    | _ => .error .missingRequired

/-- Help on what the arguments name. There is none on what does not exist. -/
def helpOn : List String → UsageError
  | [] => .help
  | [s] => if s = "help" ∨ (CommandName.ofText? s).isSome then .help else .unknownCommand
  | _ => .unknownCommand

/-- Reads a command line from before the command. A flag counts where it stands last: before the
command, or after it. -/
def readCommand (s : Surroundings) (r : Reading) (ended : Bool) :
    List String → Except UsageError Invocation
  | [] =>
    .error (if r.verbose.isSome || r.quiet.isSome then .missingCommand else .helpForNothing)
  | arg :: rest =>
    if ended then
      if arg = "help" ∨ (CommandName.ofText? arg).isSome then .error .unknownArgument
      else .error .unknownCommand
    else
      match Form.of arg with
      | .end => readCommand s r true rest
      | .long name value =>
        match r.long OptionName.general name value with
        | .ok r => readCommand s r false rest
        | .error e => .error e
      | .short letters =>
        match r.short OptionName.general letters with
        | .ok r => readCommand s r false rest
        | .error e => .error e
      | .plain =>
        if arg = "help" then .error (helpOn rest)
        else
          match CommandName.ofText? arg with
          | none => .error .unknownCommand
          | some name => do
            let after ← readAfter name.options {} false rest
            let command ← command name after s
            return ⟨(after.verbose.or r.verbose).getD 0, (after.quiet.or r.quiet).getD 0, command⟩

end Arguments

/-- What the arguments ask for. -/
def Invocation.ofArguments (args : List String) (s : Surroundings) : Except UsageError Invocation :=
  Arguments.readCommand s {} false args

end LempelZiv
