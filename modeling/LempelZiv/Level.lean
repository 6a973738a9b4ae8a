import LempelZiv.Error
import LempelZiv.Search.Params

namespace LempelZiv

/-- A compression level, from 1 to 12. -/
structure Level where
  number : Nat
  one_le : 1 ≤ number
  le_twelve : number ≤ 12
  deriving DecidableEq

/-- Whether the level's finer search is used or a plain greedy one. -/
inductive Variant where
  | baseline
  | improved
  deriving DecidableEq, Repr

namespace Level

def ofNat (n : Nat) : Except Error Level :=
  if h : 1 ≤ n ∧ n ≤ 12 then .ok ⟨n, h.1, h.2⟩ else .error (.level n)

def lowest : Level := ⟨1, by decide, by decide⟩
def highest : Level := ⟨12, by decide, by decide⟩
def standard : Level := ⟨6, by decide, by decide⟩

instance : Inhabited Level := ⟨standard⟩

/-- Levels from 7 on hash five bytes and prefer any longer match. -/
def isEnhanced (l : Level) : Bool := 7 ≤ l.number

/-- Search without covered positions, skipping ahead where nothing matches. -/
def fast (attempts window log skip : Nat) : SearchParams where
  maxAttempts := attempts
  windowSize := window
  hashLog := log
  skipStrength := some skip
  lazySearch := false
  insertCovered := false

def chained (attempts log : Nat) : SearchParams where
  maxAttempts := attempts
  windowSize := 32768
  hashLog := log

def deep (attempts log : Nat) : SearchParams where
  maxAttempts := attempts
  hashLog := log
  hashesFive := true
  lazyMargin := 0
  goodEnough := 64

def improvedParams (l : Level) : SearchParams :=
  match l.number with
  | 1 => fast 1 16384 12 4
  | 2 => fast 2 32768 13 5
  | 3 => fast 4 32768 13 6
  | 4 => chained 8 14
  | 5 => chained 16 15
  | 6 => chained 32 15
  | 7 => deep 64 16
  | 8 => deep 128 16
  | 9 => deep 256 16
  | 10 => deep 1024 17
  | 11 => deep 2048 17
  | _ => deep 4096 17

/-- The baseline variant hashes four bytes and takes every match as it comes. -/
def params (l : Level) : Variant → SearchParams
  | .improved => l.improvedParams
  | .baseline => { l.improvedParams with hashesFive := false, lazySearch := false }

end Level

end LempelZiv
