import LempelZiv.Error

namespace LempelZiv

/-- How a device answers an offer of bytes: how many of them it took, or an error. -/
inductive Reply where
  | took (n : Nat)
  | failed (error : StreamError)

/-- A device behind a sink. Its state may change with every call, so that it can fail at one time
and take everything at another. -/
class Device (δ : Type) where
  offer : δ → (length : Nat) → Reply × δ
  flush : δ → Option StreamError × δ

/-- The bytes that a device has taken, and how often it was asked to flush. -/
structure Sink (δ : Type) where
  device : δ
  held : ByteArray := ByteArray.empty
  flushes : Nat := 0

namespace Sink

variable {δ : Type} [Device δ]

/-- Offers the bytes from `i` on until all are taken. What was taken before an error stays. -/
def writeFrom (s : Sink δ) (bytes : ByteArray) (i : Nat) : Except StreamError Unit × Sink δ :=
  if _h : i < bytes.size then
    let ⟨device, held, flushes⟩ := s
    match Device.offer device (bytes.size - i) with
    | (.failed e, device) => (.error e, ⟨device, held, flushes⟩)
    | (.took n, device) =>
      if 0 < min n (bytes.size - i) then
        let next := i + min n (bytes.size - i)
        writeFrom ⟨device, held ++ bytes.extract i next, flushes⟩ bytes next
      else (.error ⟨.writeZero, "failed to write whole buffer"⟩, ⟨device, held, flushes⟩)
  else (.ok (), s)
  termination_by bytes.size - i

def writeAll (s : Sink δ) (bytes : ByteArray) : Except StreamError Unit × Sink δ :=
  s.writeFrom bytes 0

def flush (s : Sink δ) : Except StreamError Unit × Sink δ :=
  let ⟨device, held, flushes⟩ := s
  match Device.flush device with
  | (none, device) => (.ok (), ⟨device, held, flushes + 1⟩)
  | (some e, device) => (.error e, ⟨device, held, flushes + 1⟩)

end Sink

/-- A device that never fails. -/
structure Memory where

instance : Device Memory where
  offer m n := (.took n, m)
  flush m := (none, m)

/-- A device with room for `room` more bytes that takes `chunk` at a time; `none` is no bound. When
it can take nothing it says so, or fails with `full`. -/
structure Quota where
  room : Option Nat := none
  chunk : Option Nat := none
  full : Option StreamError := none
  flushError : Option StreamError := none

/-- The smaller of `n` and a bound, if there is one. -/
def atMost (n : Nat) : Option Nat → Nat
  | none => n
  | some bound => min n bound

def Quota.offer (q : Quota) (length : Nat) : Reply × Quota :=
  let n := atMost (atMost length q.room) q.chunk
  if n = 0 then
    match q.full with
    | some e => (.failed e, q)
    | none => (.took 0, q)
  else (.took n, { q with room := q.room.map (· - n) })

instance : Device Quota where
  offer := Quota.offer
  flush q := (q.flushError, q)

end LempelZiv
