namespace LempelZiv

/-- A directory by the names that lead to it, the last first. They start from the root or from the
current directory, and the latter is left by names "..". Where the current directory lies below the
root is left out, so that a way from the one never meets a way from the other. -/
structure Directory where
  rooted : Bool := false
  names : List String := []
  deriving DecidableEq, Repr

namespace Directory

/-- The path of a directory; that of the current one is empty. -/
def path (d : Directory) : String :=
  (if d.rooted then "/" else "") ++ "/".intercalate d.names.reverse

def child (d : Directory) (name : String) : Directory := { d with names := name :: d.names }

/-- The directory around `d`. The root is its own. -/
def parent (d : Directory) : Directory :=
  match d.names with
  | [] => if d.rooted then d else d.child ".."
  | name :: rest => if name = ".." then d.child ".." else { d with names := rest }

/-- Where one name of a path leads. -/
def step (d : Directory) (name : String) : Directory :=
  if name = "." then d else if name = ".." then d.parent else d.child name

/-- All places on a way from `d`. -/
def along (d : Directory) : List String → List Directory
  | [] => []
  | name :: rest => d.step name :: along (d.step name) rest

/-- Where a path starts. -/
def start (path : String) : Directory where
  rooted := path.startsWith "/"

/-- The names in a path. -/
def steps (path : String) : List String := (path.splitOn "/").filter (· ≠ "")

/-- The paths of all places that a path leads through, its end included. -/
def waypoints (path : String) : List String := ((start path).along (steps path)).map Directory.path

end Directory

end LempelZiv
