import LempelZiv.Proofs.LawfulBlocks
import LempelZiv.Proofs.ParallelRoundTrip

namespace LempelZiv

variable {input : ByteArray} {chunkSize window start : Nat}

theorem size_chunkAt_eq (input : ByteArray) (chunkSize i : Nat) :
    (chunkAt input chunkSize i).size = min ((i + 1) * chunkSize) input.size - i * chunkSize :=
  ByteArray.size_extract

theorem size_chunkAt_le (input : ByteArray) (chunkSize i : Nat) :
    (chunkAt input chunkSize i).size ≤ chunkSize := by
  have hsize := size_chunkAt_eq input chunkSize i
  have hnext : (i + 1) * chunkSize = i * chunkSize + chunkSize := Nat.succ_mul i chunkSize
  omega

/-- A match found in a chunk keeps the rules of a block for that chunk alone, wherever it comes to stand. -/
theorem Match.InChunk.lawful {s : Sequence}
    (h : Match.InChunk ⟨s.offset, s.length⟩ input chunkSize window start) (hwindow : window ≤ maxDistance) :
    ∃ i, Match.Lawful ⟨s.offset, s.length⟩ maxDistance (i * chunkSize)
      (min ((i + 1) * chunkSize) input.size) start := by
  obtain ⟨i, hle, hplaced⟩ := h
  have hsize := size_chunkAt_eq input chunkSize i
  have hsource : s.offset < start - i * chunkSize := hplaced.offset_lt
  have hoffset : s.offset ≤ window := hplaced.offset_le
  have hstart := hplaced.start_le
  have hend : start - i * chunkSize + s.length + lastLiterals ≤ (chunkAt input chunkSize i).size :=
    hplaced.end_le
  have hmargin : matchMargin = 12 := rfl
  have hlast : lastLiterals = 5 := rfl
  refine ⟨i, s.offset_pos, Nat.le_trans hoffset hwindow, ?_, s.minMatch_le, hplaced.length_le, ?_, ?_⟩
  · change i * chunkSize + s.offset < start
    omega
  · omega
  · change start + s.length + lastLiterals ≤ _
    omega

namespace Compressor

variable {c : Compressor} {o : BlockOptions}

/-- The chunks of a long input are all encoded, and joined into one block for it. -/
theorem join_encoded (hpos : 0 < c.chunkSize) (hmost : c.chunkSize ≤ maxBlockSize) (hinput : 0 < input.size) :
    ∃ bodies c' ss stop, c.encodeChunks o input = (.ok bodies, c') ∧
      joinChunks input c'.chunkSize bodies = .ok (Parse.bytes ⟨ss, dropBytes input stop, 0, by decide⟩) ∧
      Covers input (fun start m => m.InChunk input c.chunkSize o.params.windowSize start) 0 stop ss := by
  obtain ⟨bodies, hjobs, hbodies⟩ := jobs_bodies o hpos hmost hinput
  obtain ⟨c', hencode, hchunk⟩ := encodeChunks_ok hjobs
  have hchunks : ∀ i, (chunkAt input c.chunkSize i).size < sizeLimit := by
    intro i
    have hle := size_chunkAt_le input c.chunkSize i
    have hlimit : maxBlockSize < sizeLimit := by decide
    omega
  obtain ⟨ss, stop, hjoin, hcovers⟩ :=
    joinFrom_chunks hchunks hbodies (.nil (Nat.zero_le _)) (Nat.zero_le _)
  refine ⟨bodies, c', ss, stop, hencode, ?_, hcovers⟩
  rw [hchunk]
  exact hjoin

/-- The block for an input covers it, whether it is cut or not. -/
theorem compress_covers (hleast : minBlockSize ≤ c.chunkSize) (hmost : c.chunkSize ≤ maxBlockSize)
    (hmin : minBlockSize ≤ input.size) {level : Nat} {l : Level} (hlevel : Level.ofNat level = .ok l) :
    ∃ (rule : Nat → Match → Prop) (ss : List Sequence) (stop : Nat), Covers input rule 0 stop ss ∧
      (c.compress input level).1 = .ok (Parse.bytes ⟨ss, dropBytes input stop, 0, by decide⟩) := by
  rw [compress, hlevel]
  simp only [if_neg (Nat.not_lt.mpr hmin)]
  rw [minBlockSize] at hleast hmin
  split
  next hshort =>
    rw [maxBlockSize] at hmost
    rw [minParallelInput] at hshort
    obtain ⟨ss, stop, hcovers, hpack, _⟩ := @packChunk_covers input ⟨l, c.variant⟩ (by omega)
    refine ⟨_, ss, stop, hcovers, ?_⟩
    rw [hpack]
    rfl
  next =>
    obtain ⟨bodies, c', ss, stop, hencode, hjoin, hcovers⟩ :=
      @join_encoded input c ⟨l, c.variant⟩ (by omega) hmost (by omega)
    refine ⟨_, ss, stop, hcovers, ?_⟩
    rw [hencode]
    exact hjoin

theorem compress_accepts {level : Nat} {packed : ByteArray} (h : (c.compress input level).1 = .ok packed) :
    minBlockSize ≤ input.size ∧ ∃ l, Level.ofNat level = .ok l := by
  rw [compress] at h
  split at h
  next => cases h
  next l hlevel =>
    simp only at h
    split at h
    next => cases h
    next hmin => exact ⟨Nat.le_of_not_lt hmin, l, hlevel⟩

/-- Joining keeps every match inside the chunk that it was found in, and the block ends in literals, however
short its last chunk is. -/
theorem parallel_matches_stay_in_chunks (c : Compressor) (input : ByteArray) (level : Nat)
    (hleast : minBlockSize ≤ c.chunkSize) (hmost : c.chunkSize ≤ maxBlockSize)
    (hlong : c.chunkSize < input.size) (hmin : minParallelInput ≤ input.size)
    (hone : 1 ≤ level) (htwelve : level ≤ 12) :
    ∃ p : Parse, (c.compress input level).1 = .ok p.bytes ∧ (∀ q : Parse, q.bytes = p.bytes → q = p) ∧
      (p.Spells input fun start m => ∃ i, m.Lawful maxDistance (i * c.chunkSize)
        (min ((i + 1) * c.chunkSize) input.size) start) ∧
      lastLiterals ≤ p.tail.size := by
  have hlevel : Level.ofNat level = .ok ⟨level, hone, htwelve⟩ := dif_pos ⟨hone, htwelve⟩
  have hfour : minParallelInput = 4096 := rfl
  have hsixteen : minBlockSize = 16 := rfl
  obtain ⟨bodies, c', ss, stop, hencode, hjoin, hcovers⟩ :=
    @join_encoded input c ⟨⟨level, hone, htwelve⟩, c.variant⟩ (by omega) hmost (by omega)
  have hwindow := ((⟨level, hone, htwelve⟩ : Level).params_sane c.variant).windowSize_le
  have hlawful : Covers input (fun start m => ∃ i, m.Lawful maxDistance (i * c.chunkSize)
      (min ((i + 1) * c.chunkSize) input.size) start) 0 stop ss :=
    hcovers.imp fun _ _ h => h.lawful hwindow
  have hspells := hlawful.spells (by
    rintro start m ⟨i, h⟩
    have hend := h.end_le
    omega)
  have htail := hspells.tail_ge
  have hlast : lastLiterals = 5 := rfl
  refine ⟨_, ?_, fun q h => Parse.eq_of_bytes_eq h, hspells, by omega⟩
  have hshort : ¬input.size < minBlockSize := by omega
  have hsingle : ¬(input.size ≤ c.chunkSize ∨ input.size < minParallelInput) := by omega
  rw [compress, hlevel]
  simp only [if_neg hshort, if_neg hsingle, hencode]
  exact hjoin

/-- The last of these chunks has a single byte. -/
theorem parallel_matches_stay_in_chunks_of_single_byte :
    minParallelInput ≤ (⟨Array.replicate 4097 7⟩ : ByteArray).size ∧
      ∃ p : Parse, (({ workers := 3, chunkSize := 16 } : Compressor).compress ⟨Array.replicate 4097 7⟩ 4).1 =
          .ok p.bytes ∧
        (p.Spells ⟨Array.replicate 4097 7⟩ fun start m => ∃ i, m.Lawful maxDistance (i * 16)
          (min ((i + 1) * 16) 4097) start) ∧
        lastLiterals ≤ p.tail.size := by
  have hsize : (⟨Array.replicate 4097 7⟩ : ByteArray).size = 4097 := Array.size_replicate
  have hmin : minParallelInput ≤ (⟨Array.replicate 4097 7⟩ : ByteArray).size := by
    rw [hsize]
    decide
  obtain ⟨p, hpacked, _, hspells, htail⟩ :=
    parallel_matches_stay_in_chunks { workers := 3, chunkSize := 16 } ⟨Array.replicate 4097 7⟩ 4
      (by decide) (by decide) (by rw [hsize]; decide) hmin (by decide) (by decide)
  rw [hsize] at hspells
  exact ⟨hmin, p, hpacked, hspells, htail⟩

end Compressor

end LempelZiv
