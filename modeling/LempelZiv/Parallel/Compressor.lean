import LempelZiv.Notice
import LempelZiv.Block.Compress
import LempelZiv.Parallel.Join
import LempelZiv.Parallel.Pool

namespace LempelZiv

def maxWorkers : Nat := 200
def slotsPerWorker : Nat := 2
def standardChunk : Nat := 1048576

/-- An input shorter than this is never cut. -/
def minParallelInput : Nat := 4096

/-- A compressor of long inputs: it cuts them into chunks that are searched separately, by a pool
of workers while there is one. -/
structure Compressor where
  workers : Nat
  chunkSize : Nat
  variant : Variant := .improved
  pool : Option Pool := none
  /-- What there was to say, the last first. -/
  notices : List Notice := []

namespace Compressor

def note (c : Compressor) (n : Notice) : Compressor := { c with notices := n :: c.notices }

def clampWorkers (n : Nat) : Nat := max 1 (min n maxWorkers)

def new (workers chunkSize : Nat) (variant : Variant) : Except Error Compressor := do
  checkBlockSize chunkSize
  let used := clampWorkers workers
  return {
    workers := used
    chunkSize
    variant
    notices := if used = workers then [] else [.workersClamped workers used] }

def isRunning (c : Compressor) : Bool := c.pool.isSome

/-- Sets up the pool, unless there is one. -/
def start (c : Compressor) : Compressor :=
  if c.isRunning then c
  else
    match Pool.new c.workers (c.workers * slotsPerWorker) with
    | .ok pool =>
      { c.note (.poolStarted pool.workers pool.slots c.chunkSize) with pool := some pool }
    | .error _ => c

def stop (c : Compressor) : Compressor :=
  if c.isRunning then { c.note .poolStopped with pool := none } else c

/-- The body of one chunk. Only the last is a whole block. -/
def encodeChunk (o : BlockOptions) (data : ByteArray) (last : Bool) : Except Fault ChunkBody :=
  if last then (packChunk data o).map (⟨·, 0⟩)
  else (packOpenChunk data o).map fun (body, pending) => ⟨body, pending⟩

/-- The number of chunks that `input` is cut into. -/
def chunkCount (c : Compressor) (input : ByteArray) : Nat :=
  (input.size + c.chunkSize - 1) / c.chunkSize

/-- One job for each chunk, in order. -/
def jobs (c : Compressor) (o : BlockOptions) (input : ByteArray) : List (Job ChunkBody) :=
  let count := c.chunkCount input
  (List.range count).map fun i _ =>
    encodeChunk o (input.extract (i * c.chunkSize) ((i + 1) * c.chunkSize)) (i + 1 == count)

/-- The bodies, or the first chunk that no worker finished. -/
def collect : (i : Nat) → List (Except Fault ChunkBody) → Except Error (List ChunkBody)
  | _, [] => .ok []
  | i, .ok b :: rest => (collect (i + 1) rest).map (b :: ·)
  | i, .error _ :: _ => .error (.worker i)

/-- Encodes all chunks, by the pool if there is one. -/
def encodeChunks (c : Compressor) (o : BlockOptions) (input : ByteArray) :
    Except Error (List ChunkBody) × Compressor :=
  match c.pool with
  | some pool =>
    let c := c.note (.dispatched (c.chunkCount input) c.chunkSize pool.workers)
    let (results, pool) := pool.runOrdered (c.jobs o input)
    (collect 0 results.toList, { c with pool := some pool })
  | none =>
    ((c.jobs o input).mapM fun job =>
      match job () with
      | .ok b => .ok b
      | .error f => .error (.fault f), c)

/-- One block for `input`, however long it is. -/
def compress (c : Compressor) (input : ByteArray) (level : Nat) :
    Except Error ByteArray × Compressor :=
  match Level.ofNat level with
  | .error e => (.error e, c)
  | .ok l =>
    let o : BlockOptions := ⟨l, c.variant⟩
    if input.size < minBlockSize then (.error (.blockSize input.size), c)
    else if input.size ≤ c.chunkSize ∨ input.size < minParallelInput then
      ((packChunk input o).mapError .fault, c)
    else
      match c.encodeChunks o input with
      | (.error e, c) => (.error e, c)
      | (.ok chunks, c) => (joinChunks input c.chunkSize chunks, c)

end Compressor

end LempelZiv
