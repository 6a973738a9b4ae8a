namespace LempelZiv

/-- Why a command line is not carried out. -/
inductive UsageError where
  | unknownArgument
  | missingValue
  | badValue
  | repeated
  | unwantedValue
  | missingRequired
  | missingCommand
  | unknownCommand
  | help
  | helpForNothing
  | version
  deriving DecidableEq, Repr

inductive CommandName where
  | compress
  | decompress
  | info
  | block
  | unblock
  deriving DecidableEq, Repr

inductive OptionName where
  | verbose
  | quiet
  | help
  | version
  | output
  | force
  | level
  | baseline
  | blockSize
  | contentChecksum
  | blockChecksum
  | contentSize
  | threads
  | chunkSize
  | maxSize
  deriving DecidableEq, Repr

namespace CommandName

def all : List CommandName := [compress, decompress, info, block, unblock]

def text : CommandName → String
  | compress => "compress"
  | decompress => "decompress"
  | info => "info"
  | block => "block"
  | unblock => "unblock"

def ofText? (s : String) : Option CommandName := all.find? (·.text = s)

end CommandName

namespace OptionName

def long : OptionName → String
  | verbose => "verbose"
  | quiet => "quiet"
  | help => "help"
  | version => "version"
  | output => "output"
  | force => "force"
  | level => "level"
  | baseline => "baseline"
  | blockSize => "block-size"
  | contentChecksum => "content-checksum"
  | blockChecksum => "block-checksum"
  | contentSize => "content-size"
  | threads => "threads"
  | chunkSize => "chunk-size"
  | maxSize => "max-size"

def short? : OptionName → Option Char
  | verbose => some 'v'
  | quiet => some 'q'
  | help => some 'h'
  | version => some 'V'
  | output => some 'o'
  | force => some 'f'
  | level => some 'l'
  | blockSize => some 'B'
  | threads => some 'T'
  | _ => none

/-- What an option's value has to be. -/
inductive ValueKind where
  | none
  | text
  | number (low high : Nat)
  deriving DecidableEq, Repr

def kind : OptionName → ValueKind
  | output => .text
  | level => .number 1 12
  | blockSize => .number 4 7
  | threads => .number 1 200
  | chunkSize => .number 0 18446744073709551615
  | maxSize => .number 0 18446744073709551615
  | _ => .none

/-- Options that stand before the command. -/
def general : List OptionName := [verbose, quiet, help, version]

end OptionName

open OptionName in
/-- Options that may follow a command. -/
def CommandName.options : CommandName → List OptionName
  | compress =>
    [verbose, quiet, help, output, force, level, baseline, OptionName.blockSize, contentChecksum,
      blockChecksum, contentSize]
  | decompress => [verbose, quiet, help, output, force]
  | info => [verbose, quiet, help]
  | block => [verbose, quiet, help, output, force, level, baseline, threads, chunkSize]
  | unblock => [verbose, quiet, help, output, force, maxSize]

end LempelZiv
