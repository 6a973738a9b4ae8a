import LempelZiv.Bytes
import LempelZiv.Stream.Sink

namespace LempelZiv

/-- How a feed answers one read: the most bytes it hands out now, or an error. -/
inductive Pull where
  | upTo (n : Nat)
  | failed (error : StreamError)

/-- What decides how a source hands out its bytes. Its state may change with every read. -/
class Feed (φ : Type) where
  pull : φ → (pos wanted : Nat) → Pull × φ

structure Source (φ : Type) where
  feed : φ
  data : ByteArray
  pos : Nat := 0

namespace Source

variable {φ : Type} [Feed φ]

/-- The number of bytes not read yet. -/
def left (s : Source φ) : Nat := s.data.size - s.pos

def rest (s : Source φ) : ByteArray := dropBytes s.data s.pos

/-- The outcome of reading `n` bytes from `s`. What was read before an error is lost. -/
inductive Fetched (s : Source φ) (n : Nat) where
  | got (bytes : ByteArray) (rest : Source φ) (left_eq : rest.left + n = s.left)
  | broken (error : StreamError) (rest : Source φ) (left_le : rest.left ≤ s.left)

/-- Reads until `got` has all the `n` bytes that were asked of `origin`. -/
def fetchMore (origin s : Source φ) (n need : Nat) (got : ByteArray)
    (h : s.left + n = origin.left + need) (hn : need ≤ n) : Fetched origin n :=
  if hz : need = 0 then .got got s (by omega)
  else
    match Feed.pull s.feed s.pos need with
    | (.failed e, feed) => .broken e { s with feed := feed } (by
        show s.left ≤ _
        omega)
    | (.upTo k, feed) =>
      let taken := min k (min need s.left)
      if ht : 0 < taken then
        let next : Source φ := ⟨feed, s.data, s.pos + taken⟩
        have hl : next.left + taken = s.left := by
          have : taken ≤ s.left := by omega
          show s.data.size - (s.pos + taken) + taken = s.left
          unfold left at *
          omega
        fetchMore origin next n (need - taken) (got ++ s.data.extract s.pos (s.pos + taken))
          (by omega) (by omega)
      else .broken ⟨.unexpectedEnd, "failed to fill whole buffer"⟩ { s with feed := feed } (by
        show s.left ≤ _
        omega)
  termination_by need

/-- Reads exactly `n` bytes, in as many pieces as the feed makes of them. -/
def fetch (s : Source φ) (n : Nat) : Fetched s n :=
  fetchMore s s n n ByteArray.empty rfl (Nat.le_refl n)

end Source

/-- A feed that hands out all that is asked for. -/
structure Steady where

instance : Feed Steady where
  pull f _ wanted := (.upTo wanted, f)

/-- A feed of `chunk` bytes at a time that fails from position `failAt` on, `times` times. -/
structure Faulty where
  error : StreamError
  chunk : Option Nat := none
  failAt : Option Nat := none
  times : Option Nat := none

def Faulty.pull (f : Faulty) (pos wanted : Nat) : Pull × Faulty :=
  match f.failAt with
  | none => (.upTo (atMost wanted f.chunk), f)
  | some k =>
    if pos < k then (.upTo (min (atMost wanted f.chunk) (k - pos)), f)
    else if f.times = some 0 then (.upTo (atMost wanted f.chunk), f)
    else (.failed f.error, { f with times := f.times.map (· - 1) })

instance : Feed Faulty where
  pull := Faulty.pull

/-- A feed that takes in `chunk` bytes at a time; those before `taken` it has. A longer read that
finds none waiting takes in all of its bytes. With an error there is nothing to be had. -/
structure ReadAhead where
  chunk : Nat
  taken : Nat := 0
  error : Option StreamError := none

def ReadAhead.pull (f : ReadAhead) (pos wanted : Nat) : Pull × ReadAhead :=
  match f.error with
  | some e => (.failed e, f)
  | none =>
    if pos < f.taken then (.upTo (f.taken - pos), f)
    else
      let n := max wanted f.chunk
      (.upTo n, { f with taken := pos + n })

instance : Feed ReadAhead where
  pull := ReadAhead.pull

end LempelZiv
