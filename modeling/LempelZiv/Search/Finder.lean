import LempelZiv.Search.Chains

namespace LempelZiv

/-- What to do with the match at the cursor: emit it, or emit one literal and the match after. -/
inductive LazyChoice where
  | keep
  | defer (next : Match)
  deriving DecidableEq, Repr

/-- A search with a cursor that moves through the input. -/
structure Finder where
  chains : Chains
  cursor : Nat

namespace Finder

/-- A finder without input. It has nothing to find. -/
def new (params : SearchParams) : Except Fault Finder :=
  (Chains.empty params).map (⟨·, 0⟩)

def reset (f : Finder) (input : ByteArray) : Except Fault Finder :=
  (f.chains.reset input).map (⟨·, 0⟩)

def params (f : Finder) : SearchParams := f.chains.params

/-- Moves the cursor on by `n`, but not past the end. -/
def advance (f : Finder) (n : Nat) : Except Fault Finder :=
  (addSize f.cursor n).map fun p => { f with cursor := min p f.chains.input.size }

/-- Too few bytes are left for a match. -/
def atEnd (f : Finder) : Bool := f.chains.remaining f.cursor < minMatch

def insert (f : Finder) (pos : Nat) : Except Fault Finder :=
  (f.chains.insert pos).map ({ f with chains := · })

def previous (f : Finder) (pos : Nat) : Option Nat := f.chains.previous pos

def newest (f : Finder) (pos : Nat) : Except Fault (Option Nat) := f.chains.newest pos

def find (f : Finder) (pos : Nat) : Except Fault (Option Match × Finder) :=
  (f.chains.find pos).map fun (found, chains) => (found, { f with chains := chains })

/-- Decides about a match of `length` bytes at the cursor. -/
def choose (f : Finder) (length : Nat) : Except Fault (LazyChoice × Finder) :=
  (f.chains.better f.cursor length).map fun (found, chains) =>
    (match found with
      | some next => .defer next
      | none => .keep,
     { f with chains := chains })

end Finder

end LempelZiv
