import LempelZiv.Bytes

namespace LempelZiv

/-- A running XXH32 digest. Bytes wait in `pending` until sixteen of them make a stripe. -/
structure XXH32 where
  seed : UInt32
  lane1 : UInt32
  lane2 : UInt32
  lane3 : UInt32
  lane4 : UInt32
  length : Nat
  pending : ByteArray

namespace XXH32

def prime1 : UInt32 := 2654435761
def prime2 : UInt32 := 2246822519
def prime3 : UInt32 := 3266489917
def prime4 : UInt32 := 668265263
def prime5 : UInt32 := 374761393

def rotateLeft (x : UInt32) (n : UInt32) : UInt32 := (x <<< n) ||| (x >>> (32 - n))

def start (seed : UInt32) : XXH32 where
  seed := seed
  lane1 := seed + prime1 + prime2
  lane2 := seed + prime2
  lane3 := seed
  lane4 := seed - prime1
  length := 0
  pending := ByteArray.empty

def word (src : ByteArray) (i : Nat) : UInt32 := if h : i + 3 < src.size then wordAt src i h else 0

def mixLane (lane w : UInt32) : UInt32 := rotateLeft (lane + w * prime2) 13 * prime1

/-- Takes one more byte, and folds in the stripe that it completes. -/
def push (s : XXH32) (b : UInt8) : XXH32 :=
  let ⟨seed, lane1, lane2, lane3, lane4, length, pending⟩ := s
  let pending := pending.push b
  if pending.size < 16 then
    ⟨seed, lane1, lane2, lane3, lane4, length + 1, pending⟩
  else
    ⟨seed, mixLane lane1 (word pending 0), mixLane lane2 (word pending 4),
      mixLane lane3 (word pending 8), mixLane lane4 (word pending 12), length + 1, ByteArray.empty⟩

def updateFrom (s : XXH32) (data : ByteArray) (i : Nat) : XXH32 :=
  if h : i < data.size then updateFrom (s.push data[i]) data (i + 1) else s
  termination_by data.size - i

def update (s : XXH32) (data : ByteArray) : XXH32 := s.updateFrom data 0

/-- The words of a tail shorter than a stripe, then its single bytes. -/
def finishFrom (acc : UInt32) (tail : ByteArray) (i : Nat) : UInt32 :=
  if i + 4 ≤ tail.size then
    finishFrom (rotateLeft (acc + word tail i * prime3) 17 * prime4) tail (i + 4)
  else if h : i < tail.size then
    finishFrom (rotateLeft (acc + tail[i].toUInt32 * prime5) 11 * prime1) tail (i + 1)
  else acc
  termination_by tail.size - i

def avalanche (h : UInt32) : UInt32 :=
  let h := (h ^^^ (h >>> 15)) * prime2
  let h := (h ^^^ (h >>> 13)) * prime3
  h ^^^ (h >>> 16)

/-- The digest of all bytes taken so far. The running state stays usable. -/
def digest (s : XXH32) : UInt32 :=
  let acc :=
    if s.length < 16 then s.seed + prime5
    else rotateLeft s.lane1 1 + rotateLeft s.lane2 7 + rotateLeft s.lane3 12 + rotateLeft s.lane4 18
  avalanche (finishFrom (acc + s.length.toUInt32) s.pending 0)

end XXH32

def xxh32 (seed : UInt32) (data : ByteArray) : UInt32 := ((XXH32.start seed).update data).digest

end LempelZiv
