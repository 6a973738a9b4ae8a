namespace LempelZiv

def minMatch : Nat := 4
def maxDistance : Nat := 65535
def maxMatchLength : Nat := 65535

/-- A back-reference: `length` bytes that also stand `offset` bytes earlier. -/
structure Match where
  offset : Nat
  length : Nat
  deriving DecidableEq, Repr

/-- How hard to search, and for what. -/
structure SearchParams where
  maxAttempts : Nat := 32
  windowSize : Nat := maxDistance
  /-- A hash keeps this many bits. -/
  hashLog : Nat := 15
  /-- After `2 ^ s` misses in a row positions are skipped. -/
  skipStrength : Option Nat := none
  hashesFive : Bool := false
  lazySearch : Bool := true
  lazyMargin : Nat := 1
  lazyCutoff : Nat := 32
  /-- The first match of this length ends a search. -/
  goodEnough : Nat := maxMatchLength
  /-- Positions inside an emitted match enter the tables, too. -/
  insertCovered : Bool := true
  deriving DecidableEq, Repr

def SearchParams.hashWidth (p : SearchParams) : Nat := if p.hashesFive then 5 else 4

end LempelZiv
