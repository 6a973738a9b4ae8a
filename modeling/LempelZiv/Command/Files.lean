import LempelZiv.Bytes
import LempelZiv.Command.Directory
import LempelZiv.Error

namespace LempelZiv

inductive FileError where
  | missing
  | isDirectory
  | notDirectory
  | tooLarge
  | nameTooLong
  | nulCharacter
  deriving DecidableEq, Repr

def FileError.message : FileError → String
  | missing => "No such file or directory (os error 2)"
  | notDirectory => "Not a directory (os error 20)"
  | isDirectory => "Is a directory (os error 21)"
  | tooLarge => "File too large (os error 27)"
  | nameTooLong => "File name too long (os error 36)"
  | nulCharacter => "file name contained an unexpected NUL byte"

def FileError.toStream (e : FileError) : StreamError := ⟨.other, e.message⟩

/-- Files by path, and the directories besides the current one. There are no links: a file has one
path, from the root or from the current directory, and two keys are always two files. -/
structure Files where
  entries : List (String × ByteArray) := []
  directories : List String := []

namespace Files

def content? (fs : Files) (key : String) : Option ByteArray := fs.entries.lookup key

/-- Replaces the content of a file, or adds the file at the end. -/
def putEntry (key : String) (bytes : ByteArray) :
    List (String × ByteArray) → List (String × ByteArray)
  | [] => [(key, bytes)]
  | (k, b) :: rest => if k = key then (k, bytes) :: rest else (k, b) :: putEntry key bytes rest

def put (fs : Files) (key : String) (bytes : ByteArray) : Files :=
  { fs with entries := putEntry key bytes fs.entries }

/-- Files together with the directories that they lie in. -/
def ofList (entries : List (String × ByteArray)) : Files where
  entries := entries
  directories := entries.flatMap fun e => (Directory.waypoints e.1).dropLast

def longestName : Nat := 255
def longestPath : Nat := 4095

/-- Something that can be opened: a file, or a directory, which cannot be read. -/
inductive Opened where
  | file (key : String)
  | directory
  deriving DecidableEq, Repr

/-- What has the name in the directory. -/
def find (fs : Files) (d : Directory) (name : String) : Except FileError Opened :=
  let key := (d.child name).path
  if longestName < name.utf8ByteSize then .error .nameTooLong
  else if key ∈ fs.directories then .ok .directory
  else if (fs.content? key).isSome then .ok (.file key)
  else .error .missing

/-- The end of a path: a directory, or a name in one, which nothing need have. -/
inductive Place where
  | directory
  | entry (d : Directory) (name : String)
  | nowhere (error : FileError)
  deriving DecidableEq, Repr

/-- Follows names from a directory. All but the last have to lead to directories, so that a dot
can stand behind nothing else. -/
def descend (fs : Files) (d : Directory) : List String → Place
  | [] => .directory
  | name :: rest =>
    if name = "." ∨ name = ".." then descend fs (d.step name) rest
    else if rest.isEmpty then .entry d name
    else
      match fs.find d name with
      | .ok .directory => descend fs (d.step name) rest
      | .ok (.file _) => .nowhere .notDirectory
      | .error e => .nowhere e

def place (fs : Files) (path : String) : Place :=
  if path.contains '\x00' then .nowhere .nulCharacter
  else if path = "" then .nowhere .missing
  else if longestPath < path.utf8ByteSize then .nowhere .nameTooLong
  else fs.descend (Directory.start path) (Directory.steps path)

/-- A path with a slash at its end can only mean a directory. -/
def isSlashed (path : String) : Bool := path.endsWith "/"

def open? (fs : Files) (path : String) : Except FileError Opened :=
  match fs.place path with
  | .directory => .ok .directory
  | .nowhere e => .error e
  | .entry d name =>
    match fs.find d name with
    | .ok (.file key) => if isSlashed path then .error .notDirectory else .ok (.file key)
    | other => other

def pathExists (fs : Files) (path : String) : Bool :=
  match fs.open? path with
  | .ok _ => true
  | .error _ => false

/-- Makes an empty file, also out of one that has content. -/
def create (fs : Files) (path : String) : Except FileError (String × Files) :=
  match fs.place path with
  | .directory => .error .isDirectory
  | .nowhere e => .error e
  | .entry d name =>
    let key := (d.child name).path
    if isSlashed path then .error .isDirectory
    else
      match fs.find d name with
      | .ok .directory => .error .isDirectory
      | .ok (.file _) => .ok (key, fs.put key ByteArray.empty)
      | .error .missing => .ok (key, fs.put key ByteArray.empty)
      | .error e => .error e

end Files

end LempelZiv
