import LempelZiv.Parallel.Compressor
import LempelZiv.Proofs.BlockRoundTrip
import LempelZiv.Proofs.Joining

namespace LempelZiv

/-- A pool gives the results of its jobs in their order. -/
theorem Pool.runFrom_toList {α : Type} (p : Pool) (jobs : List (Job α)) (results : Array (Except Fault α)) :
    (p.runFrom jobs results).1.toList = results.toList ++ jobs.map fun job => job () := by
  induction jobs generalizing p results with
  | nil => simp [runFrom]
  | cons job jobs ih => simp [runFrom, ih]

namespace Compressor

variable {c : Compressor} {input : ByteArray}

theorem collect_ok (i : Nat) (bodies : List ChunkBody) : collect i (bodies.map .ok) = .ok bodies := by
  induction bodies generalizing i with
  | nil => rfl
  | cons b bodies ih =>
    rw [List.map_cons, collect, ih]
    rfl

theorem mapM_ok {jobs : List (Job ChunkBody)} {bodies : List ChunkBody}
    (h : jobs.map (fun job => job ()) = bodies.map .ok) :
    (jobs.mapM fun job => match job () with
      | .ok b => .ok b
      | .error f => .error (.fault f) : Except Error (List ChunkBody)) = .ok bodies := by
  induction jobs generalizing bodies with
  | nil =>
    cases bodies with
    | nil => rfl
    | cons b bodies => cases h
  | cons job jobs ih =>
    cases bodies with
    | nil => cases h
    | cons b bodies =>
      rw [List.map_cons, List.map_cons, List.cons.injEq] at h
      rw [List.mapM_cons, h.1, ih h.2]
      rfl

theorem encodeChunks_ok {o : BlockOptions} {bodies : List ChunkBody}
    (h : (c.jobs o input).map (fun job => job ()) = bodies.map .ok) :
    ∃ c', c.encodeChunks o input = (.ok bodies, c') ∧ c'.chunkSize = c.chunkSize := by
  rw [encodeChunks]
  cases c.pool with
  | none => exact ⟨c, Prod.ext (mapM_ok h) rfl, rfl⟩
  | some pool =>
    have hresults : (pool.runOrdered (c.jobs o input)).1.toList = bodies.map .ok := by
      rw [Pool.runOrdered, Pool.runFrom_toList, h]
      rfl
    have hcollect : collect 0 (pool.runOrdered (c.jobs o input)).1.toList = .ok bodies := by
      rw [hresults, collect_ok]
    exact ⟨_, Prod.ext hcollect rfl, rfl⟩

theorem encodeChunk_bodies {o : BlockOptions} {chunkSize : Nat} (hsize : chunkSize ≤ maxBlockSize)
    (k i : Nat)
    (inside : (i + k) * chunkSize < input.size) (ends : input.size ≤ (i + k + 1) * chunkSize) :
    ∃ bodies, (List.range' i (k + 1)).map
        (fun j => encodeChunk o (chunkAt input chunkSize j) (j + 1 == i + k + 1)) = bodies.map .ok ∧
      Bodies input chunkSize o.params.windowSize i bodies := by
  have hchunk : ∀ j, (chunkAt input chunkSize j).size < 2 ^ 32 := by
    intro j
    rw [maxBlockSize] at hsize
    rw [chunkAt, ByteArray.size_extract, Nat.succ_mul]
    omega
  induction k generalizing i with
  | zero =>
    obtain ⟨ss, stop, hcovers, hpack, _⟩ := packChunk_covers o (hchunk i)
    refine ⟨_, ?_, .last inside ends hcovers⟩
    simp [encodeChunk, hpack, Except.map]
  | succ k ih =>
    obtain ⟨ss, stop, hcovers, _, hopen⟩ := packChunk_covers o (hchunk i)
    have hcount : i + (k + 1) = i + 1 + k := by omega
    rw [hcount] at inside ends ⊢
    obtain ⟨bodies, hmap, hbodies⟩ := ih (i + 1) inside ends
    have hlt : (i + 1) * chunkSize < input.size :=
      Nat.lt_of_le_of_lt (Nat.mul_le_mul_right chunkSize (Nat.le_add_right _ k)) inside
    have hfirst : encodeChunk o (chunkAt input chunkSize i) (i + 1 == i + 1 + k + 1) =
        .ok ⟨sequencesBytes ss, (chunkAt input chunkSize i).size - stop⟩ := by
      rw [beq_false_of_ne (by omega), encodeChunk, if_neg Bool.false_ne_true, hopen]
      rfl
    refine ⟨_ :: bodies, ?_, .more hlt hcovers hbodies⟩
    rw [List.range'_succ, List.map_cons, List.map_cons, hfirst, hmap]

theorem jobs_bodies (o : BlockOptions) (hpos : 0 < c.chunkSize) (hsize : c.chunkSize ≤ maxBlockSize)
    (hinput : 0 < input.size) : ∃ bodies, (c.jobs o input).map (fun job => job ()) = bodies.map .ok ∧
      Bodies input c.chunkSize o.params.windowSize 0 bodies := by
  have hdiv := Nat.div_add_mod (input.size + c.chunkSize - 1) c.chunkSize
  have hmod := Nat.mod_lt (input.size + c.chunkSize - 1) hpos
  have hcount : 0 < c.chunkCount input := Nat.div_pos (by omega) hpos
  obtain ⟨k, hk⟩ := Nat.exists_eq_add_of_lt hcount
  rw [Nat.zero_add] at hk
  rw [← chunkCount, hk, Nat.mul_succ, Nat.mul_comm] at hdiv
  obtain ⟨bodies, hmap, hbodies⟩ :=
    @encodeChunk_bodies input o c.chunkSize hsize k 0 (by rw [Nat.zero_add]; omega)
    (by rw [Nat.zero_add, Nat.succ_mul]; omega)
  refine ⟨bodies, ?_, hbodies⟩
  rw [jobs, hk, List.map_map, List.range_eq_range', ← hmap, Nat.zero_add]
  rfl

/-- An input of any length comes back from its chunks, whether a pool encodes them or not. -/
theorem parallel_round_trip (c : Compressor) (input : ByteArray) (level : Nat)
    (hleast : minBlockSize ≤ c.chunkSize)
    (hmost : c.chunkSize ≤ maxBlockSize) (hmin : minBlockSize ≤ input.size) (hmax : input.size < 2 ^ 48)
    (hone : 1 ≤ level) (htwelve : level ≤ 12) : RoundTrips (c.compress input level).1 input := by
  have hlevel : Level.ofNat level = .ok ⟨level, hone, htwelve⟩ := dif_pos ⟨hone, htwelve⟩
  rw [minBlockSize] at hleast
  rw [compress, hlevel]
  simp only [if_neg (Nat.not_lt.mpr hmin)]
  split
  next hshort =>
    have hsize : input.size < 2 ^ 32 := by
      rw [maxBlockSize] at hmost
      rw [minParallelInput] at hshort
      omega
    obtain ⟨packed, hpack, hdecode⟩ := packChunk_roundTrips ⟨⟨level, hone, htwelve⟩, c.variant⟩ hsize
    rw [lift_eq_ok_iff.mp hpack]
    exact ⟨packed, rfl, hdecode⟩
  next =>
    have hsize : input.size < sizeLimit := by
      rw [sizeLimit]
      omega
    rw [minBlockSize] at hmin
    obtain ⟨bodies, hjobs, hbodies⟩ :=
      @jobs_bodies c input ⟨⟨level, hone, htwelve⟩, c.variant⟩ (by omega) hmost
      (by omega)
    obtain ⟨c', hencode, hchunk⟩ := encodeChunks_ok hjobs
    obtain ⟨ss, stop, hjoin, hcovers⟩ :=
      joinFrom_covers hsize hbodies (.nil (Nat.zero_le _)) (Nat.zero_le _)
    rw [← hchunk] at hjoin
    rw [hencode]
    refine ⟨_, hjoin, ?_⟩
    intro limit hlimit
    exact hcovers.decompress (by decide) hsize hlimit

theorem parallel_round_trip_of_equal_bytes :
    minBlockSize ≤ (⟨Array.replicate 5000 7⟩ : ByteArray).size ∧
      RoundTrips (({ workers := 3, chunkSize := 16 } : Compressor).compress ⟨Array.replicate 5000 7⟩ 4).1
        ⟨Array.replicate 5000 7⟩ := by
  have hsize : (⟨Array.replicate 5000 7⟩ : ByteArray).size = 5000 := Array.size_replicate
  have hmin : minBlockSize ≤ (⟨Array.replicate 5000 7⟩ : ByteArray).size := by
    rw [hsize]
    decide
  exact ⟨hmin, parallel_round_trip _ _ 4 (by decide) (by decide) hmin (by rw [hsize]; decide)
    (by decide) (by decide)⟩

end Compressor

end LempelZiv
