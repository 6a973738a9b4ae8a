import LempelZiv.Proofs.LawfulChunks
import LempelZiv.Proofs.Windows

namespace LempelZiv

theorem size_extension_le_div (n : Nat) : (extension n).size ≤ n / 255 + 1 := by
  rw [extension]
  split
  next h => rw [size_lengthBytes]; omega
  next => exact Nat.zero_le _

theorem size_extension_le_self (n : Nat) : (extension n).size ≤ n := by
  rw [extension]
  split
  next h =>
    rw [nibbleLimit] at h
    rw [size_lengthBytes, nibbleLimit]
    omega
  next => exact Nat.zero_le _

/-- A match pays for its token and its offset, so that only long literals take more than they stand for. -/
theorem Sequence.size_bytes_le (s : Sequence) :
    s.bytes.size ≤ s.literals.size + s.length + s.literals.size / 255 := by
  have hliterals := size_extension_le_div s.literals.size
  have hlength := size_extension_le_self (s.length - minMatch)
  have hmin := s.minMatch_le
  rw [minMatch] at hmin hlength
  rw [s.size_bytes, minMatch]
  omega

theorem size_sequencesBytes_le (ss : List Sequence) :
    (sequencesBytes ss).size ≤ expandedSize ss + expandedSize ss / 255 := by
  induction ss with
  | nil => exact Nat.zero_le _
  | cons s ss ih =>
    have hs := s.size_bytes_le
    rw [sequencesBytes, ByteArray.size_append, expandedSize_cons]
    omega

theorem Parse.size_bytes_le (p : Parse) : p.bytes.size ≤ p.expandedSize + p.expandedSize / 255 + 2 := by
  have hsequences := size_sequencesBytes_le p.sequences
  have htail := size_extension_le_div p.tail.size
  rw [Parse.bytes, ByteArray.size_append, ByteArray.size_append, size_tokenBytes, Parse.expandedSize]
  omega

theorem Covers.expandedSize_eq {src : ByteArray} {rule : Nat → Match → Prop} {anchor stop : Nat}
    {ss : List Sequence} (h : Covers src rule anchor stop ss) : anchor + expandedSize ss = stop := by
  have hle := h.le
  have hsize := size_expandAll (src.extract 0 anchor) ss
  rw [h.expandAll_eq, ByteArray.size_extract, ByteArray.size_extract] at hsize
  omega

theorem packedBound_eq {n : Nat} (h : n < 2 ^ 48) : packedBound n = .ok (n + n / 255 + 16) := by
  have hlimit : n + n / 255 + 16 < sizeLimit := by
    rw [sizeLimit]
    omega
  rw [packedBound, addSize_eq_ok (by omega)]
  exact addSize_eq_ok hlimit

/-- Packing succeeds, and takes no more room than the bound for `n` bytes. -/
def WithinBound (packed : Except Error ByteArray) (n : Nat) : Prop :=
  ∃ bytes bound, packed = .ok bytes ∧ packedBound n = .ok bound ∧ bytes.size ≤ bound

/-- A block that covers `src` keeps the bound, wherever its sequences come from. -/
theorem Covers.size_bytes_le {src : ByteArray} {rule : Nat → Match → Prop} {stop spare : Nat}
    {ss : List Sequence} (h : Covers src rule 0 stop ss) (hspare : spare < 16) :
    (Parse.bytes ⟨ss, dropBytes src stop, spare, hspare⟩).size ≤ src.size + src.size / 255 + 16 := by
  have hall : Parse.expandedSize ⟨ss, dropBytes src stop, spare, hspare⟩ = src.size := by
    have hsequences := h.expandedSize_eq
    have hle := h.le
    change expandedSize ss + (dropBytes src stop).size = src.size
    rw [size_dropBytes]
    omega
  have hsize := Parse.size_bytes_le ⟨ss, dropBytes src stop, spare, hspare⟩
  rw [hall] at hsize
  omega

variable {src : ByteArray}

theorem Covers.withinBound {rule : Nat → Match → Prop} {stop : Nat} {ss : List Sequence}
    {packed : Except Error ByteArray} (h : Covers src rule 0 stop ss) (hlt : src.size < 2 ^ 48)
    (hpacked : packed = .ok (Parse.bytes ⟨ss, dropBytes src stop, 0, by decide⟩)) :
    WithinBound packed src.size :=
  ⟨_, _, hpacked, packedBound_eq hlt, h.size_bytes_le (by decide)⟩

theorem packChunk_withinBound (o : BlockOptions) (hsize : src.size < 2 ^ 32) :
    WithinBound (packChunk src o) src.size := by
  obtain ⟨ss, stop, hcovers, hpack, _⟩ := packChunk_covers o hsize
  exact hcovers.withinBound (by omega) (lift_eq_ok_iff.mpr hpack)

theorem compressWith_withinBound (hmin : minBlockSize ≤ src.size) (hmax : src.size ≤ maxBlockSize)
    (o : BlockOptions) : WithinBound (compressWith src o) src.size := by
  have hcheck : checkBlockSize src.size = .ok () := if_pos ⟨hmin, hmax⟩
  rw [compressWith, hcheck]
  rw [maxBlockSize] at hmax
  exact packChunk_withinBound o (by omega)

/-- A window with room for the bound takes the block, and keeps what stands behind it. -/
theorem factorize_fills (hmin : minBlockSize ≤ src.size) (hmax : src.size ≤ maxBlockSize) (o : BlockOptions)
    {bound : Nat} (hbound : packedBound src.size = .ok bound) {buffer : ByteArray} (hroom : bound ≤ buffer.size) :
    ∃ f packed, factorize o.params src = .ok f ∧ compressWith src o = .ok packed ∧ packed.size ≤ bound ∧
      f.writeClosed (⟨buffer, 0⟩ : Window) = .ok ⟨packed ++ dropBytes buffer packed.size, packed.size⟩ := by
  have hcheck : checkBlockSize src.size = .ok () := if_pos ⟨hmin, hmax⟩
  have hlt : src.size < 2 ^ 32 := by
    rw [maxBlockSize] at hmax
    omega
  obtain ⟨f, stop, hf, htail, hcovers⟩ := factorize_covers (o.level.params_sane o.variant) hlt
  have hsize := hcovers.size_bytes_le (by decide : 0 < 16)
  rw [← htail] at hsize
  rw [packedBound_eq (by omega)] at hbound
  cases hbound
  refine ⟨f, Parse.bytes ⟨f.sequences.toList, f.tail, 0, by decide⟩, hf, ?_, hsize, ?_⟩
  · rw [compressWith, hcheck]
    refine lift_eq_ok_iff.mpr (?_ : packChunk src o = _)
    rw [packChunk, BlockOptions.params, hf]
    change f.writeClosed ByteArray.empty = _
    rw [Factorization.writeClosed_eq, ByteArray.empty_append]
  · rw [Window.writeClosed_eq, Window.onto, if_pos (Nat.le_trans hsize hroom)]

theorem compressInto_ok (hmin : minBlockSize ≤ src.size) (hmax : src.size ≤ maxBlockSize) {level bound : Nat}
    {o : BlockOptions} (hlevel : BlockOptions.ofLevel level = .ok o) (hbound : packedBound src.size = .ok bound)
    {buffer : ByteArray} (hroom : bound ≤ buffer.size) :
    ∃ packed, compressWith src o = .ok packed ∧ packed.size ≤ bound ∧
      compressInto src level buffer = .ok (packed.size, packed ++ dropBytes buffer packed.size) := by
  obtain ⟨f, packed, hf, hpacked, hfits, hw⟩ := factorize_fills hmin hmax o hbound hroom
  refine ⟨packed, hpacked, hfits, ?_⟩
  unfold compressInto
  simp only [bind_eq_ok_iff, check_eq_ok_iff, lift_eq_ok_iff, pure_eq_ok_iff]
  exact ⟨o, hlevel, (), if_pos ⟨hmin, hmax⟩, bound, hbound, Nat.not_lt.mpr hroom, f, hf, _, hw, rfl⟩

/-- Joined chunks keep the bound of one block, however many there are. -/
theorem Compressor.compress_withinBound (c : Compressor) (hleast : minBlockSize ≤ c.chunkSize)
    (hmost : c.chunkSize ≤ maxBlockSize) (hmin : minBlockSize ≤ src.size) (hlt : src.size < 2 ^ 48)
    {level : Nat} {l : Level} (hlevel : Level.ofNat level = .ok l) :
    WithinBound (c.compress src level).1 src.size := by
  obtain ⟨_, _, _, hcovers, hcompress⟩ := compress_covers hleast hmost hmin hlevel
  exact hcovers.withinBound hlt hcompress

/-- What packing takes never exceeds the bound, whichever way it is done, so a buffer of that size is enough. -/
theorem packed_within_bound (src : ByteArray) (level : Nat) (hmin : minBlockSize ≤ src.size)
    (hlt : src.size < 2 ^ 48) (hone : 1 ≤ level) (htwelve : level ≤ 12) :
    packedBound src.size = .ok (src.size + src.size / 255 + 16) ∧
    (src.size ≤ maxBlockSize → WithinBound (compress src level) src.size ∧
      WithinBound (compressBaseline src level) src.size ∧
      (∀ o : BlockOptions, WithinBound (compressWith src o) src.size) ∧
      ∀ buffer : ByteArray, src.size + src.size / 255 + 16 ≤ buffer.size →
        ∃ n filled, compressInto src level buffer = .ok (n, filled) ∧ n ≤ src.size + src.size / 255 + 16 ∧
          filled.size = buffer.size) ∧
    ∀ c : Compressor, minBlockSize ≤ c.chunkSize → c.chunkSize ≤ maxBlockSize →
      WithinBound (c.compress src level).1 src.size := by
  have hlevel : Level.ofNat level = .ok ⟨level, hone, htwelve⟩ := dif_pos ⟨hone, htwelve⟩
  have ho : BlockOptions.ofLevel level = .ok ⟨⟨level, hone, htwelve⟩, .improved⟩ := by
    rw [BlockOptions.ofLevel, hlevel]
    rfl
  have hbound := packedBound_eq hlt
  refine ⟨hbound, ?_, fun c hleast hmost => c.compress_withinBound hleast hmost hmin hlt hlevel⟩
  intro hmax
  refine ⟨?_, ?_, fun o => compressWith_withinBound hmin hmax o, ?_⟩
  · rw [compress, ho]
    exact compressWith_withinBound hmin hmax _
  · rw [compressBaseline, ho]
    exact compressWith_withinBound hmin hmax _
  · intro buffer hroom
    obtain ⟨packed, _, hsize, hinto⟩ := compressInto_ok hmin hmax ho hbound hroom
    refine ⟨packed.size, _, hinto, hsize, ?_⟩
    rw [ByteArray.size_append, size_dropBytes]
    omega

/-- Bytes that hardly ever repeat, into a buffer that has just enough room. -/
theorem packed_within_bound_of_shortest :
    minBlockSize ≤ (⟨#[1, 2, 3, 4, 5, 6, 7, 8, 9, 10, 11, 12, 13, 14, 15, 16]⟩ : ByteArray).size ∧
      WithinBound (compress ⟨#[1, 2, 3, 4, 5, 6, 7, 8, 9, 10, 11, 12, 13, 14, 15, 16]⟩ 12) 16 ∧
      ∃ n filled, compressInto ⟨#[1, 2, 3, 4, 5, 6, 7, 8, 9, 10, 11, 12, 13, 14, 15, 16]⟩ 12
          ⟨Array.replicate 32 0⟩ = .ok (n, filled) ∧ n ≤ 32 ∧ filled.size = 32 := by
  have hmin : minBlockSize ≤ (⟨#[1, 2, 3, 4, 5, 6, 7, 8, 9, 10, 11, 12, 13, 14, 15, 16]⟩ : ByteArray).size := by
    decide
  obtain ⟨_, hblock, _⟩ := packed_within_bound ⟨#[1, 2, 3, 4, 5, 6, 7, 8, 9, 10, 11, 12, 13, 14, 15, 16]⟩ 12 hmin
    (by decide) (by decide) (by decide)
  obtain ⟨hwithin, _, _, hinto⟩ := hblock (by decide)
  exact ⟨hmin, hwithin, hinto ⟨Array.replicate 32 0⟩ (by decide)⟩

end LempelZiv
