import LempelZiv.Size

namespace LempelZiv

/-- Eight bytes as one word, the lowest first. -/
@[inline] def longAt (data : ByteArray) (pos : Nat) (h : pos + 7 < data.size) : UInt64 :=
  data[pos].toUInt64 ||| (data[pos + 1].toUInt64 <<< 8) ||| (data[pos + 2].toUInt64 <<< 16)
    ||| (data[pos + 3].toUInt64 <<< 24) ||| (data[pos + 4].toUInt64 <<< 32)
    ||| (data[pos + 5].toUInt64 <<< 40) ||| (data[pos + 6].toUInt64 <<< 48)
    ||| (data[pos + 7].toUInt64 <<< 56)

/-- How many of the `k` lowest bytes of `w` are zero before the first that is not. -/
def zeroBytes : (k : Nat) → (w : UInt64) → Nat
  | 0, _ => 0
  | k + 1, w => if w &&& 255 = 0 then zeroBytes k (w >>> 8) + 1 else 0

/-- Two stretches of `limit` bytes that lie inside the data. -/
structure Stretches (data : ByteArray) (earlier later limit : Nat) : Prop where
  earlier_lt : earlier < later
  later_le : later + limit ≤ data.size

/-- Goes on from `n` equal bytes, one byte at a time. -/
def prefixByBytes (data : ByteArray) (earlier later limit n : Nat)
    (h : Stretches data earlier later limit) : Nat :=
  if hn : n < limit then
    have hl : later + n < data.size := by have := h.later_le; omega
    have he : earlier + n < data.size := by have := h.earlier_lt; omega
    if data[earlier + n] = data[later + n] then prefixByBytes data earlier later limit (n + 1) h
    else n
  else n
  termination_by limit - n

/-- Goes on from `n` equal bytes, eight at a time while eight are left. -/
def prefixByWords (data : ByteArray) (earlier later limit n : Nat)
    (h : Stretches data earlier later limit) : Nat :=
  if hn : n + 8 ≤ limit then
    have hl : later + n + 7 < data.size := by have := h.later_le; omega
    have he : earlier + n + 7 < data.size := by have := h.earlier_lt; omega
    let diff := longAt data (earlier + n) he ^^^ longAt data (later + n) hl
    if diff = 0 then prefixByWords data earlier later limit (n + 8) h else n + zeroBytes 8 diff
  else prefixByBytes data earlier later limit n h
  termination_by limit - n

/-- The number of equal bytes at `earlier` and `later`, `limit` at most. -/
def commonPrefix (data : ByteArray) (earlier later limit : Nat) : Except Fault Nat :=
  if h : earlier < later ∧ later + limit ≤ data.size then
    .ok (prefixByWords data earlier later limit 0 ⟨h.1, h.2⟩)
  else .error .assertion

end LempelZiv
