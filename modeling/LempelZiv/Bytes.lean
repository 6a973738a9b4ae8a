namespace LempelZiv

/-- Appends the `k` low bytes of `n`, the lowest first. -/
def pushLE (out : ByteArray) : (k n : Nat) → ByteArray
  | 0, _ => out
  | k + 1, n => pushLE (out.push n.toUInt8) k (n / 256)

def leBytes (k n : Nat) : ByteArray := pushLE ByteArray.empty k n

/-- The byte at `i`; zero past the end. -/
def byteAt (src : ByteArray) (i : Nat) : UInt8 :=
  if h : i < src.size then src[i] else 0

/-- The number whose `k` bytes start at `i`, the lowest first. -/
def readLE (src : ByteArray) (i : Nat) : (k : Nat) → Nat
  | 0 => 0
  | k + 1 => (byteAt src i).toNat + 256 * readLE src (i + 1) k

/-- The four bytes from `i` on as one word, the lowest first. -/
@[inline] def wordAt (src : ByteArray) (i : Nat) (h : i + 3 < src.size) : UInt32 :=
  src[i].toUInt32 ||| (src[i + 1].toUInt32 <<< 8) ||| (src[i + 2].toUInt32 <<< 16)
    ||| (src[i + 3].toUInt32 <<< 24)

/-- What follows the first `i` bytes. -/
def dropBytes (src : ByteArray) (i : Nat) : ByteArray := src.extract i src.size

/-- The first `n` bytes, with zeros for those that are missing. -/
def resize (src : ByteArray) (n : Nat) : ByteArray :=
  src.extract 0 n ++ ⟨Array.replicate (n - src.size) 0⟩

theorem pushLE_eq_append (out : ByteArray) (k n : Nat) : pushLE out k n = out ++ leBytes k n := by
  induction k generalizing out n with
  | zero => simp [pushLE, leBytes]
  | succ k ih =>
    rw [leBytes, pushLE, pushLE, ih, ih (ByteArray.empty.push n.toUInt8)]
    apply ByteArray.ext
    simp [ByteArray.data_append, ByteArray.data_push]

theorem size_leBytes (k n : Nat) : (leBytes k n).size = k := by
  induction k generalizing n with
  | zero => rfl
  | succ k ih =>
    rw [leBytes, pushLE, pushLE_eq_append, ByteArray.size_append, ih, ByteArray.size_push]
    simp [Nat.add_comm]

end LempelZiv
