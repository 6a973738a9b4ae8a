import LempelZiv.Error

namespace LempelZiv

/-- A job ends with a value or breaks off. -/
abbrev Job (α : Type) : Type := Unit → Except Fault α

/-- Workers that share a gate with so many slots. A job holds a slot from its admission until it
has ended, whichever way. -/
structure Pool where
  workers : Nat
  slots : Nat
  idle : Nat
  deriving DecidableEq, Repr

namespace Pool

def new (workers slots : Nat) : Except Error Pool :=
  if workers = 0 ∨ slots = 0 then .error (.pool (.noCapacity workers slots))
  else .ok ⟨workers, slots, slots⟩

def enter (p : Pool) : Pool := { p with idle := p.idle - 1 }

def release (p : Pool) : Pool := { p with idle := p.idle + 1 }

/-- Runs the jobs. The results come in the order of the jobs, a broken one in its own place. -/
def runFrom {α : Type} (p : Pool) : List (Job α) → Array (Except Fault α) →
    Array (Except Fault α) × Pool
  | [], results => (results, p)
  | job :: jobs, results => runFrom p.enter.release jobs (results.push (job ()))

def runOrdered {α : Type} (p : Pool) (jobs : List (Job α)) : Array (Except Fault α) × Pool :=
  p.runFrom jobs #[]

end Pool

end LempelZiv
