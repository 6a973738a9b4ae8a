import LempelZiv.Proofs.Cutting

namespace LempelZiv

theorem Factorization.writeOpen_eq (f : Factorization) (sink : ByteArray) :
    f.writeOpen sink = .ok (sink ++ sequencesBytes f.sequences.toList) := by
  rw [writeOpen, writeFrom_eq_foldlM, List.drop_zero, write_sequences_eq]

theorem Factorization.writeClosed_eq (f : Factorization) (sink : ByteArray) :
    f.writeClosed sink = .ok (sink ++ Parse.bytes ⟨f.sequences.toList, f.tail, 0, by decide⟩) := by
  rw [writeClosed, writeOpen_eq]
  change (putToken (sink ++ sequencesBytes f.sequences.toList) f.tail.size 0 >>= fun sink =>
    .ok (sink ++ f.tail)) = _
  rw [putToken_eq]
  change Except.ok _ = _
  simp only [Parse.bytes, ByteArray.append_assoc]

/-- Both ways to pack write the same sequences; a whole block has the literals after them, too. -/
theorem packChunk_covers {src : ByteArray} (o : BlockOptions) (hsize : src.size < 2 ^ 32) :
    ∃ ss stop, Covers src (fun start m => m.PlacedIn src.size o.params.windowSize start) 0 stop ss ∧
      packChunk src o = .ok (Parse.bytes ⟨ss, dropBytes src stop, 0, by decide⟩) ∧
      packOpenChunk src o = .ok (sequencesBytes ss, src.size - stop) := by
  obtain ⟨f, stop, hf, htail, hcovers⟩ := factorize_covers (o.level.params_sane o.variant) hsize
  refine ⟨f.sequences.toList, stop, hcovers, ?_, ?_⟩
  · rw [packChunk, BlockOptions.params, hf]
    change f.writeClosed ByteArray.empty = _
    rw [Factorization.writeClosed_eq, ByteArray.empty_append, htail]
  · rw [packOpenChunk, BlockOptions.params, hf]
    change (f.writeOpen ByteArray.empty >>= fun body => .ok (body, f.tail.size)) = _
    rw [Factorization.writeOpen_eq, ByteArray.empty_append, htail, size_dropBytes]
    rfl

/-- Packing succeeds, and its result decodes to `src` wherever there is room for it. -/
def RoundTrips (packed : Except Error ByteArray) (src : ByteArray) : Prop :=
  ∃ bytes, packed = .ok bytes ∧ ∀ limit, src.size ≤ limit → decompress bytes limit = .ok src

theorem packChunk_roundTrips {src : ByteArray} (o : BlockOptions) (hsize : src.size < 2 ^ 32) :
    RoundTrips (packChunk src o) src := by
  obtain ⟨ss, stop, hcovers, hpack, _⟩ := packChunk_covers o hsize
  refine ⟨_, lift_eq_ok_iff.mpr hpack, ?_⟩
  intro limit hlimit
  exact hcovers.decompress (by decide) (by rw [sizeLimit]; omega) hlimit

theorem compressWith_roundTrips {src : ByteArray} (hmin : minBlockSize ≤ src.size)
    (hmax : src.size ≤ maxBlockSize)
    (o : BlockOptions) : RoundTrips (compressWith src o) src := by
  have hsize : src.size < 2 ^ 32 := by
    rw [maxBlockSize] at hmax
    omega
  have hcheck : checkBlockSize src.size = .ok () := if_pos ⟨hmin, hmax⟩
  rw [compressWith, hcheck]
  exact packChunk_roundTrips o hsize

/-- A block of any allowed size comes back from each way to compress it at each level. -/
theorem compress_round_trip (src : ByteArray) (hmin : minBlockSize ≤ src.size)
    (hmax : src.size ≤ maxBlockSize) :
    (∀ o : BlockOptions, RoundTrips (compressWith src o) src) ∧
    ∀ level, 1 ≤ level → level ≤ 12 →
      RoundTrips (compress src level) src ∧ RoundTrips (compressBaseline src level) src := by
  refine ⟨fun o => compressWith_roundTrips hmin hmax o, ?_⟩
  intro level hone htwelve
  have hlevel : BlockOptions.ofLevel level = .ok ⟨⟨level, hone, htwelve⟩, .improved⟩ := by
    rw [BlockOptions.ofLevel, Level.ofNat, dif_pos ⟨hone, htwelve⟩]
    rfl
  rw [compress, compressBaseline, hlevel]
  exact ⟨compressWith_roundTrips hmin hmax _, compressWith_roundTrips hmin hmax _⟩

theorem compress_round_trip_of_shortest :
    minBlockSize ≤ (⟨#[1, 2, 3, 4, 5, 1, 2, 3, 4, 5, 1, 2, 3, 4, 5, 6]⟩ : ByteArray).size ∧
      RoundTrips (compress ⟨#[1, 2, 3, 4, 5, 1, 2, 3, 4, 5, 1, 2, 3, 4, 5, 6]⟩ 12)
        ⟨#[1, 2, 3, 4, 5, 1, 2, 3, 4, 5, 1, 2, 3, 4, 5, 6]⟩ :=
  ⟨by decide, ((compress_round_trip _ (by decide) (by decide)).2 12 (by decide) (by decide)).1⟩

end LempelZiv
