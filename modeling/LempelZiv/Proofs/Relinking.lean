import Mathlib
import LempelZiv.Proofs.FrameLanguage
import LempelZiv.Proofs.KeptOutput

namespace LempelZiv

theorem readLE_eq_of_byteAt {a b : ByteArray} {i k : Nat} (h : ∀ j, i ≤ j → j < i + k → byteAt a j = byteAt b j) :
    readLE a i k = readLE b i k := by
  induction k generalizing i with
  | zero => rfl
  | succ k ih => rw [readLE, readLE, h i (by omega) (by omega), ih fun j hi hj => h j (by omega) (by omega)]

theorem dropBytes_eq_of_byteAt {a b : ByteArray} {i : Nat} (hsize : a.size = b.size)
    (h : ∀ j, i ≤ j → byteAt a j = byteAt b j) : dropBytes a i = dropBytes b i := by
  refine ByteArray.ext_getElem (by rw [size_dropBytes, size_dropBytes, hsize]) ?_
  intro j ha hb
  have hlt := ha
  rw [size_dropBytes] at hlt
  rw [← byteAt_of_lt ha, ← byteAt_of_lt hb, dropBytes, dropBytes, byteAt_extract (by omega),
    byteAt_extract (by omega)]
  exact h _ (by omega)

theorem Record.Adds.behind {b : Record} {most : Nat} {near more : ByteArray} (far : ByteArray)
    (h : b.Adds most near more) : b.Adds most (far ++ near) more := by
  rw [Record.Adds] at h ⊢
  split at h
  next hstored => rwa [if_pos hstored]
  next hpacked =>
    rw [if_neg hpacked, ByteArray.append_assoc]
    exact decompressInto_farther far h

namespace Descriptor

/-- The same header, of `used` bytes, but that the flag of independent blocks is clear; the checksum of the header may
be any byte. -/
structure Relinks (used : Nat) (src src' : ByteArray) : Prop where
  size_eq : src'.size = src.size
  flags_eq : byteAt src' 4 = byteAt src 4 &&& ~~~32
  same : ∀ i, i ≠ 4 → i + 1 ≠ used → byteAt src' i = byteAt src i

theorem relinked_bits (b : UInt8) : (b &&& ~~~32).toNat / 64 = b.toNat / 64 ∧
    (b &&& ~~~32).toNat / 32 % 2 = 0 ∧ (b &&& ~~~32).toNat / 16 % 2 = b.toNat / 16 % 2 ∧
    (b &&& ~~~32).toNat / 8 % 2 = b.toNat / 8 % 2 ∧ (b &&& ~~~32).toNat / 4 % 2 = b.toNat / 4 % 2 ∧
    (b &&& ~~~32).toNat / 2 % 2 = b.toNat / 2 % 2 ∧ (b &&& ~~~32).toNat % 2 = b.toNat % 2 := by
  have hall : ∀ n < 256, n &&& 223 = n - 32 * (n / 32 % 2) := by decide +kernel
  have hclear : (b &&& ~~~32).toNat = b.toNat - 32 * (b.toNat / 32 % 2) := by
    rw [UInt8.toNat_and]
    exact hall b.toNat b.toNat_lt
  omega

section

variable {start start' rest rest' : ByteArray} {d : Descriptor}

theorem restLength_relinked (hmagic : readLE start' 0 4 = readLE start 0 4)
    (hflags : byteAt start' 4 = byteAt start 4 &&& ~~~32) (hblock : byteAt start' 5 = byteAt start 5) :
    restLength start' = restLength start := by
  obtain ⟨hversion, _, _, hsize, _, hreserved, hdictionary⟩ := relinked_bits (byteAt start 4)
  rw [← hflags] at *
  simp only [restLength, hasContentSize, hasDictionary, hmagic, hversion, hreserved, hsize, hdictionary, hblock]

theorem restLength_ok {n : Nat} (h : restLength start = .ok n) :
    n = 1 + bit (hasContentSize (byteAt start 4).toNat) 8 + bit (hasDictionary (byteAt start 4).toNat) 4 := by
  unfold restLength at h
  simp only [bind_eq_ok_iff, check_eq_ok_iff, pure_eq_ok_iff] at h
  obtain ⟨_, _, _, _, _, _, hn⟩ := h
  exact hn.symm

theorem ofHeader_relinked (hlength : restLength start = .ok rest.size) (hlength' : restLength start' = .ok rest'.size)
    (hflags : byteAt start' 4 = byteAt start 4 &&& ~~~32) (hblock : byteAt start' 5 = byteAt start 5)
    (hrest : ∀ i, i + 1 < rest.size → byteAt rest' i = byteAt rest i) (hd : ofHeader start rest = .ok d) :
    ofHeader start' rest' = .ok { d with independent := false } := by
  obtain ⟨_, hind, hcheck, hsize, hcontent, _, hdictionary⟩ := relinked_bits (byteAt start 4)
  have hn := restLength_ok hlength
  rw [← hflags] at hind hcheck hsize hcontent hdictionary
  have hsized : hasContentSize (byteAt start' 4).toNat = hasContentSize (byteAt start 4).toNat := by
    rw [hasContentSize, hasContentSize, hsize]
  have hkeyed : hasDictionary (byteAt start' 4).toNat = hasDictionary (byteAt start 4).toNat := by
    rw [hasDictionary, hasDictionary, hdictionary]
  have hcontentSize : (if hasContentSize (byteAt start 4).toNat then some (readLE rest' 0 8) else none) =
      if hasContentSize (byteAt start 4).toNat then some (readLE rest 0 8) else none := by
    split
    next h =>
      rw [h, bit, if_pos rfl] at hn
      rw [readLE_eq_of_byteAt fun i _ hi => hrest i (by omega)]
    next => rfl
  have hdictionaryId : (if hasDictionary (byteAt start 4).toNat then
        some (readLE rest' (bit (hasContentSize (byteAt start 4).toNat) 8) 4) else none) =
      if hasDictionary (byteAt start 4).toNat then
        some (readLE rest (bit (hasContentSize (byteAt start 4).toNat) 8) 4) else none := by
    split
    next h =>
      rw [h, bit.eq_1 true, if_pos rfl] at hn
      rw [readLE_eq_of_byteAt fun i _ hi => hrest i (by omega)]
    next => rfl
  unfold ofHeader at hd ⊢
  simp only [bind_eq_ok_iff, check_eq_ok_iff, pure_eq_ok_iff, hlength, hlength', Except.ok.injEq] at hd ⊢
  obtain ⟨_, rfl, _, size, hcode, rfl⟩ := hd
  refine ⟨_, rfl, fun h => h rfl, size, ?_, ?_⟩
  · rwa [hblock]
  · simp only [hsized, hkeyed, hind, hcheck, hcontent, hcontentSize, hdictionaryId]
    rfl

end

variable {src src' : ByteArray} {d : Descriptor} {used : Nat}

theorem read_relinked (h : Relinks used src src') (hread : read src = .ok (d, used)) :
    read src' = .ok ({ d with independent := false }, used) := by
  obtain ⟨start, rest, tail, rfl, hstart, hlength, hd, rfl⟩ := read_eq_ok_iff.mp hread
  obtain ⟨hsize, hflags, hsame⟩ := h
  have hrestLength := restLength_ok hlength
  rw [headerStart] at *
  simp only [ByteArray.size_append, hstart] at hsize
  have hfirst : ∀ i, i < 6 → byteAt (start ++ (rest ++ tail)) i = byteAt start i :=
    fun i hi => byteAt_append_left _ (by omega)
  have hnext : ∀ i, i < rest.size → byteAt (start ++ (rest ++ tail)) (6 + i) = byteAt rest i := by
    intro i hi
    rw [← hstart, byteAt_append_right, byteAt_append_left _ hi]
  have hfirst' : ∀ i, i < 6 → byteAt (src'.extract 0 6) i = byteAt src' i := by
    intro i hi
    rw [byteAt_extract (by omega), Nat.zero_add]
  have hstart' : (src'.extract 0 6).size = 6 := by
    rw [ByteArray.size_extract]
    omega
  have hrest' : (src'.extract 6 (6 + rest.size)).size = rest.size := by
    rw [ByteArray.size_extract]
    omega
  have hmagic : readLE (src'.extract 0 6) 0 4 = readLE start 0 4 := by
    refine readLE_eq_of_byteAt fun i _ hi => ?_
    rw [hfirst' i (by omega), hsame i (by omega) (by omega), hfirst i (by omega)]
  have hflags' : byteAt (src'.extract 0 6) 4 = byteAt start 4 &&& ~~~32 := by
    rw [hfirst' 4 (by omega), hflags, hfirst 4 (by omega)]
  have hblock : byteAt (src'.extract 0 6) 5 = byteAt start 5 := by
    rw [hfirst' 5 (by omega), hsame 5 (by omega) (by omega), hfirst 5 (by omega)]
  have hfields : ∀ i, i + 1 < rest.size → byteAt (src'.extract 6 (6 + rest.size)) i = byteAt rest i := by
    intro i hi
    rw [byteAt_extract (by omega), hsame (6 + i) (by omega) (by omega), hnext i (by omega)]
  have hlength' : restLength (src'.extract 0 6) = .ok (src'.extract 6 (6 + rest.size)).size := by
    rw [restLength_relinked hmagic hflags' hblock, hlength, hrest']
  rw [read_eq_ok_iff]
  refine ⟨src'.extract 0 6, src'.extract 6 (6 + rest.size), dropBytes src' (6 + rest.size), ?_, hstart', hlength',
    ofHeader_relinked hlength hlength' hflags' hblock hfields hd, by rw [hrest', headerStart]⟩
  rw [extract_append_dropBytes (by omega) (by omega), extract_append_dropBytes (by omega) (by omega), dropBytes_zero]

theorem dropBytes_relinked (h : Relinks used src src') (hread : read src = .ok (d, used)) :
    dropBytes src' used = dropBytes src used := by
  obtain ⟨start, rest, tail, _, _, hlength, _, rfl⟩ := read_eq_ok_iff.mp hread
  have hrestLength := restLength_ok hlength
  rw [headerStart] at *
  exact dropBytes_eq_of_byteAt h.size_eq fun i hi => h.same i (by omega) (by omega)

theorem Unfolds.relinked {out result : ByteArray} {bs : List Record} (h : d.Unfolds out bs result) :
    Unfolds { d with independent := false } out bs result := by
  induction h with
  | nil => exact .nil
  | @cons out more result b bs fits adds _ ih =>
    refine .cons fits ?_ ih
    rw [reach] at adds ⊢
    split at adds
    next => simpa using adds.behind out
    next => exact adds

end Descriptor

/-- Blocks that need nothing before them decode to the same in a frame that lets them reach it. -/
theorem decompressFrame_relinked {src src' out : ByteArray} {d : Descriptor} {used : Nat}
    (hread : Descriptor.read src = .ok (d, used)) (h : Descriptor.Relinks used src src')
    (hout : decompressFrame src = .ok out) : decompressFrame src' = .ok out := by
  obtain ⟨d', used', records, tail, hread', hrest, hunfolds, hsize⟩ :=
    (decompressFrame_eq_ok_iff_framed_blocks src out).mp hout
  rw [hread] at hread'
  cases hread'
  rw [decompressFrame_eq_ok_iff_framed_blocks]
  rw [← Descriptor.dropBytes_relinked h hread] at hrest
  exact ⟨{ d with independent := false }, used, records, tail, Descriptor.read_relinked h hread, hrest,
    hunfolds.relinked, hsize⟩

/-- Of what stands before a block only the end matters, as far back as an offset goes, and a block that decodes behind
less decodes behind more. So a reader may forget what is further back, and blocks that are independent may be read as
if they were not. -/
theorem only_near_history_matters :
    (∀ (src out out' : ByteArray) (limit : Nat), lastBytes maxDistance out = lastBytes maxDistance out' →
      ∃ answer more, decompressInto src out limit = (answer, out ++ more) ∧
        decompressInto src out' limit = (answer, out' ++ more)) ∧
    (∀ (src out result : ByteArray) (limit n : Nat), decompressInto src out limit = (.ok n, result) →
      ∃ more, result = out ++ more ∧
        ∀ far, decompressInto src (far ++ out) limit = (.ok n, far ++ out ++ more)) ∧
    (∀ keep, KeepsReach keep → ∀ src,
      decompressFrame src = (Reader.contentBy keep src).2.elim (.ok (Reader.contentBy keep src).1) .error ∧
      ∀ {φ : Type} [Feed φ] (feed : φ) (sizes : Nat → Nat), Feed.Reliable feed → (∀ i, 0 < sizes i) →
        let drained := (Reader.new ⟨feed, src, 0⟩).drainBy sizes ByteArray.empty 0
        (drained.bytes, drained.error) = Reader.contentBy keep src) ∧
    ∀ (src src' out : ByteArray) (d : Descriptor) (used : Nat), Descriptor.read src = .ok (d, used) →
      Descriptor.Relinks used src src' → decompressFrame src = .ok out → decompressFrame src' = .ok out := by
  refine ⟨?_, ?_, ?_, ?_⟩
  · intro src out out' limit hsame
    exact decompressInto_same_end src limit hsame
  · intro src out result limit n h
    obtain ⟨more, rfl, _⟩ := decompressInto_ok_le h
    refine ⟨more, rfl, fun far => ?_⟩
    rw [ByteArray.append_assoc]
    exact decompressInto_farther far h
  · intro keep hkeep src
    refine ⟨Reader.decompressFrame_eq_contentBy hkeep src, ?_⟩
    intro φ _ feed sizes hfeed hsizes
    exact Reader.drainBy_eq_contentBy hkeep src feed sizes hfeed hsizes
  · intro src src' out d used hread h hout
    exact decompressFrame_relinked hread h hout

/-- The frame has one packed block, which is independent in the first of its two headers. -/
theorem only_near_history_matters_of_small_frame :
    let near : ByteArray := ⟨Array.replicate maxDistance 7⟩
    let block : ByteArray := ⟨#[0, 1, 0, 0x10, 98]⟩
    let frame : ByteArray :=
      ⟨#[4, 34, 77, 24, 0x60, 0x40, 130, 6, 0, 0, 0, 0x12, 97, 1, 0, 0x10, 98, 0, 0, 0, 0]⟩
    let relinked : ByteArray :=
      ⟨#[4, 34, 77, 24, 0x40, 0x40, 192, 6, 0, 0, 0, 0x12, 97, 1, 0, 0x10, 98, 0, 0, 0, 0]⟩
    let content : ByteArray := ⟨#[97, 97, 97, 97, 97, 97, 97, 98]⟩
    (∃ answer more, decompressInto block (⟨#[1]⟩ ++ near) 64 = (answer, ⟨#[1]⟩ ++ near ++ more) ∧
      decompressInto block (⟨#[2, 3]⟩ ++ near) 64 = (answer, ⟨#[2, 3]⟩ ++ near ++ more)) ∧
    decompressInto block ⟨#[9]⟩ 64 = (.ok 5, ⟨#[9, 9, 9, 9, 9, 98]⟩) ∧
    decompressInto block ⟨#[1, 2, 9]⟩ 64 = (.ok 5, ⟨#[1, 2, 9, 9, 9, 9, 9, 98]⟩) ∧
    decompressFrame frame = .ok content ∧ Reader.contentBy id frame = (content, none) ∧
    decompressFrame relinked = .ok content := by
  intro near block frame relinked content
  obtain ⟨hend, hfarther, hkept, hrelinked⟩ := only_near_history_matters
  have hnear : near.size = maxDistance := Array.size_replicate
  have hblock : decompressInto block ⟨#[9]⟩ 64 = (.ok 5, ⟨#[9, 9, 9, 9, 9, 98]⟩) := by cbv
  have hframe : decompressFrame frame = .ok content := by cbv
  have hread : Descriptor.read frame = .ok ({ independent := true }, 7) := by cbv
  refine ⟨?_, hblock, ?_, hframe, ?_, ?_⟩
  · apply hend
    rw [← hnear, lastBytes_append, lastBytes_append]
  · obtain ⟨more, hmore, hfar⟩ := hfarther _ _ _ _ _ hblock
    have hsame : (⟨#[9]⟩ : ByteArray) ++ ⟨#[9, 9, 9, 9, 98]⟩ = ⟨#[9]⟩ ++ more := by
      rw [← hmore]
      rfl
    obtain rfl := (ByteArray.append_right_inj _).mp hsame
    exact hfar ⟨#[1, 2]⟩
  · obtain ⟨hcontent, _⟩ := hkept id keepsReach_id frame
    rw [hframe] at hcontent
    generalize Reader.contentBy id frame = answer at hcontent ⊢
    obtain ⟨bytes, e | e⟩ := answer
    · exact Prod.ext (Except.ok.inj hcontent).symm rfl
    · cases hcontent
  · have hsame : ∀ i < 21, i ≠ 4 → i + 1 ≠ 7 → byteAt relinked i = byteAt frame i := by decide
    refine hrelinked frame relinked content _ _ hread ⟨rfl, by decide, ?_⟩ hframe
    intro i hflags hsum
    by_cases hi : i < 21
    · exact hsame i hi hflags hsum
    · rw [byteAt, byteAt, dif_neg (show ¬i < relinked.size from hi), dif_neg (show ¬i < frame.size from hi)]

end LempelZiv
