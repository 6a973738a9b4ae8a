namespace LempelZiv

/-- A broken internal rule: never the data's fault, always a number out of its range or a
precondition that the caller did not keep. -/
inductive Fault where
  | overflow
  | outOfRange
  | assertion
  deriving DecidableEq, Repr

/-- Sizes and positions are numbers below `2 ^ 64`. -/
def sizeLimit : Nat := 18446744073709551616

def addSize (a b : Nat) : Except Fault Nat :=
  if a + b < sizeLimit then .ok (a + b) else .error .overflow

def subSize (a b : Nat) : Except Fault Nat :=
  if b ≤ a then .ok (a - b) else .error .overflow

theorem addSize_eq_ok {a b : Nat} (h : a + b < sizeLimit) : addSize a b = .ok (a + b) := by
  simp [addSize, h]

theorem subSize_eq_ok {a b : Nat} (h : b ≤ a) : subSize a b = .ok (a - b) := by
  simp [subSize, h]

end LempelZiv
