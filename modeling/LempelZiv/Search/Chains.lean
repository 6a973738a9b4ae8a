import LempelZiv.Search.Params
import LempelZiv.Search.Hash
import LempelZiv.Search.CommonPrefix

namespace LempelZiv

/-- Positions of one input by hash. `heads` has the newest position of each hash, `links` leads
from a position to the one before it of the same hash. Position 0 stands for "none". -/
structure Chains where
  params : SearchParams
  input : ByteArray
  heads : Array Nat
  links : Array Nat
  /-- The first position that no search has inserted yet. -/
  next : Nat

namespace Chains

/-- Empty tables; `links` takes its size from the first input. -/
def empty (params : SearchParams) : Except Fault Chains :=
  if params.hashLog ≤ 32 then
    .ok ⟨params, ByteArray.empty, Array.replicate (1 <<< params.hashLog) 0, #[], 0⟩
  else .error .overflow

/-- Starts over on `input`. Old links stay: without heads nothing leads to them. -/
def reset (c : Chains) (input : ByteArray) : Except Fault Chains :=
  if input.size < 4294967296 then
    .ok { c with
      input := input
      heads := Array.replicate c.heads.size 0
      links := c.links ++ Array.replicate (input.size - c.links.size) 0
      next := 0 }
  else .error .assertion

def remaining (c : Chains) (pos : Nat) : Nat := c.input.size - pos

/-- Enough bytes follow `pos` to hash it. -/
def hashable (c : Chains) (pos : Nat) : Bool := c.params.hashWidth ≤ c.remaining pos

def hash (c : Chains) (pos : Nat) : Except Fault Nat :=
  if c.params.hashesFive then hash5 c.input pos c.params.hashLog
  else hash4 c.input pos c.params.hashLog

/-- Puts `pos` in front of its chain. -/
def link (c : Chains) (pos h : Nat) : Except Fault Chains :=
  let ⟨params, input, heads, links, next⟩ := c
  if hb : h < heads.size ∧ pos < links.size then
    have := hb.1
    let head := heads[h]
    .ok ⟨params, input, heads.set h pos hb.1, links.set pos head hb.2, next⟩
  else .error .outOfRange

def insert (c : Chains) (pos : Nat) : Except Fault Chains :=
  if c.hashable pos then
    match c.hash pos with
    | .ok h => c.link pos h
    | .error f => .error f
  else .ok c

/-- Inserts `n` positions in turn, from `next` on. -/
def insertNext : (n : Nat) → Chains → Except Fault Chains
  | 0, c => .ok c
  | n + 1, c =>
    match c.insert c.next with
    | .ok c => insertNext n { c with next := c.next + 1 }
    | .error f => .error f

def insertUpTo (c : Chains) (target : Nat) : Except Fault Chains := insertNext (target - c.next) c

/-- Brings the tables up to `pos`, which stays out. -/
def catchUp (c : Chains) (pos : Nat) : Except Fault Chains :=
  if c.params.insertCovered then c.insertUpTo pos
  else .ok (if c.next < pos then { c with next := pos } else c)

/-- The position before `pos` in its chain. -/
def previous (c : Chains) (pos : Nat) : Option Nat := c.links[pos]?.filter (· ≠ 0)

/-- The newest position with the hash of `pos`. -/
def newest (c : Chains) (pos : Nat) : Except Fault (Option Nat) :=
  if c.hashable pos then
    match c.hash pos with
    | .ok h =>
      if hb : h < c.heads.size then
        .ok (if c.heads[h] = 0 then none else some c.heads[h])
      else .error .outOfRange
    | .error f => .error f
  else .ok none

/-- Where a walk along a chain looks for matches of `pos`. -/
structure Walk where
  pos : Nat
  floor : Nat
  limit : Nat
  goodEnough : Nat

/-- Follows the chain from `candidate` and keeps the longest match, the nearest of equals. -/
def walk (c : Chains) (w : Walk) :
    (attempts candidate bestLength : Nat) → (best : Option Match) → Except Fault (Option Match)
  | 0, _, _, best => .ok best
  | attempts + 1, candidate, bestLength, best =>
    if candidate = 0 ∨ candidate < w.floor then .ok best
    else if hb : candidate < c.links.size then
      if hc : candidate < w.pos then
        if h : w.pos + bestLength < c.input.size then
          if c.input[candidate + bestLength] = c.input[w.pos + bestLength] then
            match commonPrefix c.input candidate w.pos w.limit with
            | .ok length =>
              if bestLength < length then
                let found := some ⟨w.pos - candidate, length⟩
                if w.goodEnough ≤ length then .ok found
                else walk c w attempts c.links[candidate] length found
              else walk c w attempts c.links[candidate] bestLength best
            | .error f => .error f
          else walk c w attempts c.links[candidate] bestLength best
        else .error .outOfRange
      else walk c w attempts c.links[candidate] bestLength best
    else .error .outOfRange

/-- The longest match of `pos` in the tables as they stand. -/
def search (c : Chains) (pos : Nat) : Except Fault (Option Match) :=
  match c.newest pos with
  | .ok none => .ok none
  | .ok (some head) =>
    let limit := min (c.remaining pos) maxMatchLength
    c.walk ⟨pos, pos - c.params.windowSize, limit, min c.params.goodEnough limit⟩
      c.params.maxAttempts head (minMatch - 1) none
  | .error f => .error f

/-- The longest earlier occurrence of the bytes at `pos`. Leaves `pos` in the tables. -/
def find (c : Chains) (pos : Nat) : Except Fault (Option Match × Chains) :=
  if c.remaining pos < minMatch then .ok (none, c)
  else do
    let c ← c.catchUp pos
    let found ← c.search pos
    let c ← c.insertUpTo (pos + 1)
    return (found, c)

/-- The match one byte after `pos`, if it makes up for giving up one of `length` bytes at `pos`. -/
def better (c : Chains) (pos length : Nat) : Except Fault (Option Match × Chains) :=
  if c.params.lazyCutoff ≤ length ∨ c.remaining pos < 2 then .ok (none, c)
  else do
    let (found, c) ← c.find (pos + 1)
    match found with
    | none => return (none, c)
    | some m =>
      let bar ← addSize length c.params.lazyMargin
      return (if bar < m.length then some m else none, c)

end Chains

end LempelZiv
