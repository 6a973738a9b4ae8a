import LempelZiv.Bytes
import LempelZiv.Size

namespace LempelZiv

def hashPrime : UInt32 := 2654435761

/-- The `log` high bits of a product. -/
def highBits (product : UInt32) (log : Nat) : Except Fault Nat :=
  if 1 ≤ log ∧ log ≤ 32 then .ok (product >>> (32 - log).toUInt32).toNat else .error .overflow

/-- Multiplicative hash of the four bytes at `pos`. -/
def hash4 (data : ByteArray) (pos log : Nat) : Except Fault Nat :=
  if h : pos + 3 < data.size then highBits (wordAt data pos h * hashPrime) log
  else .error .outOfRange

/-- Hash of the five bytes at `pos`: the fifth joins between two multiplications. -/
def hash5 (data : ByteArray) (pos log : Nat) : Except Fault Nat :=
  if h : pos + 4 < data.size then
    highBits (((wordAt data pos (by omega) * hashPrime) ^^^ data[pos + 4].toUInt32) * hashPrime) log
  else .error .outOfRange

theorem highBits_lt {product : UInt32} {log h : Nat} (hh : highBits product log = .ok h) :
    h < 1 <<< log := by
  unfold highBits at hh
  split at hh
  next hl =>
    cases hh
    have hs : (32 - log).toUInt32.toNat = 32 - log :=
      UInt32.toNat_ofNat_of_lt' (by simp [UInt32.size]; omega)
    have hp : product.toNat < 2 ^ log * 2 ^ (32 - log) := by
      rw [← Nat.pow_add, Nat.add_sub_cancel' hl.2]
      exact product.toNat_lt
    rw [UInt32.toNat_shiftRight, hs, Nat.mod_eq_of_lt (by omega), Nat.shiftRight_eq_div_pow]
    rw [Nat.shiftLeft_eq, Nat.one_mul]
    exact Nat.div_lt_of_lt_mul (by rwa [Nat.mul_comm])
  next => cases hh

end LempelZiv
