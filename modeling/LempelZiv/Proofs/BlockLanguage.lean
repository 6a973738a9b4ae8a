import LempelZiv.Proofs.Decoding

namespace LempelZiv

theorem tokenBytes_unique {src : ByteArray} {ip n m c e : Nat} (hc : c < 16) (he : e < 16)
    (hn : HasAt src ip (tokenBytes n c)) (hm : HasAt src ip (tokenBytes m e)) : n = m ∧ c = e := by
  obtain ⟨_, hhigh, hlow, hext⟩ := (hasAt_tokenBytes hc).mp hn
  obtain ⟨_, hhigh', hlow', hext'⟩ := (hasAt_tokenBytes he).mp hm
  exact ⟨extension_unique (hhigh.symm.trans hhigh') hext hext', hlow.symm.trans hlow'⟩

theorem leBytes_unique {src : ByteArray} {ip k n m : Nat} (hn : n < 256 ^ k) (hm : m < 256 ^ k)
    (h : HasAt src ip (leBytes k n)) (h' : HasAt src ip (leBytes k m)) : n = m :=
  ((hasAt_leBytes hn).mp h).2.symm.trans ((hasAt_leBytes hm).mp h').2

theorem sequence_unique {src : ByteArray} {ip : Nat} {s t : Sequence} (hs : HasAt src ip s.bytes)
    (ht : HasAt src ip t.bytes) : s = t := by
  obtain ⟨htoken, hlits, hoffset, hext⟩ := hasAt_sequence.mp hs
  obtain ⟨htoken', hlits', hoffset', hext'⟩ := hasAt_sequence.mp ht
  obtain ⟨hsize, hcode⟩ :=
    tokenBytes_unique (by rw [nibbleLimit]; omega) (by rw [nibbleLimit]; omega) htoken htoken'
  have hle := s.offset_le
  have hle' := t.offset_le
  rw [maxDistance] at hle hle'
  rw [← hsize] at hlits' hoffset' hext'
  have hliterals := hlits.unique hlits' hsize
  have hoff := leBytes_unique (by omega) (by omega) hoffset hoffset'
  have hlen := extension_unique hcode hext hext'
  have hmin := s.minMatch_le
  have hmin' := t.minMatch_le
  have hlength : s.length = t.length := by omega
  cases s
  cases t
  cases hliterals
  cases hoff
  cases hlength
  rfl

/-- Literals that end with the input have no offset behind them. -/
theorem last_ne_sequence {src tail : ByteArray} {ip spare : Nat} {hspare : spare < 16} {s : Sequence}
    (hp : HasAt src ip (Parse.last tail spare hspare).bytes)
    (hend : ip + (Parse.last tail spare hspare).bytes.size = src.size) : ¬HasAt src ip s.bytes := by
  intro h
  obtain ⟨htoken, _⟩ := hasAt_last.mp hp
  obtain ⟨htoken', _, hoffset, _⟩ := hasAt_sequence.mp h
  have hsize := (tokenBytes_unique hspare (by rw [nibbleLimit]; omega) htoken htoken').1
  have hle := hoffset.le
  rw [Parse.size_bytes_last] at hend
  rw [size_leBytes, ← hsize] at hle
  omega

/-- A block has one cut into sequences. -/
theorem Parse.unique {src : ByteArray} {ip : Nat} {p q : Parse} (hp : HasAt src ip p.bytes)
    (hpe : ip + p.bytes.size = src.size) (hq : HasAt src ip q.bytes)
    (hqe : ip + q.bytes.size = src.size) : p = q := by
  induction p generalizing ip q with
  | last tail spare hspare =>
    cases q with
    | last tail' spare' hspare' =>
      obtain ⟨htoken, htail⟩ := hasAt_last.mp hp
      obtain ⟨htoken', htail'⟩ := hasAt_last.mp hq
      obtain ⟨hsize, hcode⟩ := tokenBytes_unique hspare hspare' htoken htoken'
      rw [← hsize] at htail'
      cases htail.unique htail' hsize
      cases hcode
      rfl
    | cons t q =>
      rw [Parse.bytes_cons] at hq
      exact absurd (hasAt_append.mp hq).1 (last_ne_sequence hp hpe)
  | cons s p ih =>
    rw [Parse.bytes_cons] at hp hpe
    obtain ⟨hs, hrest⟩ := hasAt_append.mp hp
    cases q with
    | last tail spare hspare => exact absurd hs (last_ne_sequence hq hqe)
    | cons t q =>
      rw [Parse.bytes_cons] at hq hqe
      obtain ⟨ht, hrest'⟩ := hasAt_append.mp hq
      cases sequence_unique hs ht
      rw [ByteArray.size_append] at hpe hqe
      rw [ih hrest (by omega) hrest' (by omega)]

theorem Parse.size_le {p : Parse} : p.tail.size ≤ p.bytes.size ∧
    ∀ s ∈ p.sequences, s.literals.size ≤ p.bytes.size ∧ s.length < 19 + 255 * p.bytes.size := by
  induction p with
  | last tail spare hspare =>
    rw [Parse.size_bytes_last]
    exact ⟨Nat.le_add_left _ _, by simp [Parse.last]⟩
  | cons s p ih =>
    obtain ⟨htail, hs⟩ := ih
    have hsize := s.size_bytes
    have hlength := size_extension_le (s.length - minMatch)
    rw [nibbleLimit, minMatch] at hlength
    rw [minMatch] at hsize
    rw [Parse.bytes_cons, ByteArray.size_append]
    refine ⟨by have : (p.cons s).tail = p.tail := rfl; rw [this]; omega, ?_⟩
    intro t ht
    rcases List.mem_cons.mp ht with rfl | ht
    · exact ⟨by omega, by omega⟩
    · obtain ⟨hl, hn⟩ := hs t ht
      exact ⟨by omega, by omega⟩

theorem decompressInto_eq_ok_iff_run {src out result : ByteArray} {limit n : Nat} :
    decompressInto src out limit = (.ok n, result) ↔
      Decoding.run ⟨src, out.size, limit⟩ 0 out = (.ok (), result) ∧ n = result.size - out.size := by
  rw [decompressInto]
  by_cases hsrc : src.isEmpty
  · rw [if_pos hsrc, Decoding.run, dif_neg (by rw [isEmpty_iff.mp hsrc]; exact Nat.lt_irrefl 0)]
    simp
  · rw [if_neg hsrc]
    rcases hrun : Decoding.run ⟨src, out.size, limit⟩ 0 out with ⟨r, out'⟩
    cases r with
    | error e => simp [hrun]
    | ok u =>
      simp only [hrun, Prod.mk.injEq, Except.ok.injEq, true_and]
      constructor
      · intro h
        exact ⟨h.2, by rw [← h.1, h.2]⟩
      · intro h
        exact ⟨by rw [h.2, h.1], h.1⟩

/-- The block can be decoded behind `present` bytes, where `limit` more may be added. -/
structure Parse.Decodable (p : Parse) (present limit : Nat) : Prop where
  within : Within present p.sequences
  sized : ∀ s ∈ p.sequences, s.literals.size < sizeLimit ∧ s.length < sizeLimit
  tail_sized : p.tail.size < sizeLimit
  room : p.expandedSize ≤ limit

theorem decompressInto_eq_ok_iff_decodable {src out result : ByteArray} {limit n : Nat} :
    decompressInto src out limit = (.ok n, result) ↔
      ∃ p : Parse, p.bytes = src ∧ p.Decodable out.size limit ∧ n = p.expandedSize ∧ result = p.expand out := by
  rw [decompressInto_eq_ok_iff_run, Decoding.run_eq_ok_iff (Nat.le_refl _)]
  constructor
  · rintro ⟨⟨p, ⟨hat, hend, hwithin, hsized, htail, hroom⟩, rfl⟩, rfl⟩
    rw [Nat.zero_add] at hend
    rw [Nat.sub_self, Nat.zero_add] at hroom
    refine ⟨p, hat.eq_of_size hend, ⟨hwithin, hsized, htail, hroom⟩, ?_, rfl⟩
    rw [p.size_expand, Nat.add_sub_cancel_left]
  · rintro ⟨p, rfl, ⟨hwithin, hsized, htail, hroom⟩, rfl, rfl⟩
    refine ⟨⟨p, ⟨hasAt_self _, Nat.zero_add _, hwithin, hsized, htail, ?_⟩, rfl⟩, ?_⟩
    · rwa [Nat.sub_self, Nat.zero_add]
    · rw [p.size_expand, Nat.add_sub_cancel_left]

theorem decompressInto_of_parse {out : ByteArray} {limit : Nat} {p : Parse}
    (hwithin : Within out.size p.sequences)
    (hroom : p.expandedSize ≤ limit) (htail : p.tail.size < sizeLimit)
    (hsized : ∀ s ∈ p.sequences, s.literals.size < sizeLimit ∧ s.length < sizeLimit) :
    decompressInto p.bytes out limit = (.ok p.expandedSize, p.expand out) :=
  decompressInto_eq_ok_iff_decodable.mpr ⟨p, rfl, ⟨hwithin, hsized, htail, hroom⟩, rfl, rfl⟩

theorem decompressInto_parse {src out result : ByteArray} {limit n : Nat}
    (h : decompressInto src out limit = (.ok n, result)) :
    ∃ p : Parse, p.bytes = src ∧ Within out.size p.sequences ∧
      p.expandedSize ≤ limit ∧ n = p.expandedSize ∧ result = p.expand out := by
  obtain ⟨p, hp, hdecodable, hn, hresult⟩ := decompressInto_eq_ok_iff_decodable.mp h
  exact ⟨p, hp, hdecodable.within, hdecodable.room, hn, hresult⟩

/-- The decoder takes the blocks of the format and no other bytes: `src` is what some sequences and the
literals after them are written as, no match reaches back too far, and the limit is kept. The sequences are
then the only ones written so, and the block adds what they stand for. -/
theorem decompressInto_eq_ok_iff_written (src out : ByteArray) (limit : Nat) (hsrc : src.size < 2 ^ 48) :
    (∀ n result, decompressInto src out limit = (.ok n, result) ↔
      ∃ p : Parse, p.write ByteArray.empty = .ok src ∧ Within out.size p.sequences ∧
        p.expandedSize ≤ limit ∧
        n = p.expandedSize ∧ result = p.expand out) ∧
    (∀ p q : Parse, p.write ByteArray.empty = .ok src → q.write ByteArray.empty = .ok src → p = q) ∧
    (∀ p : Parse, ∃ more, p.expand out = out ++ more ∧ more.size = p.expandedSize) ∧
    ∀ (s : Sequence) before, s.offset ≤ before.size + s.literals.size →
      Repeats (before ++ s.literals) s.offset s.length (s.expand before) := by
  refine ⟨?_, ?_, fun p => p.expand_eq_append out, ?_⟩
  · intro n result
    constructor
    · intro h
      obtain ⟨p, hp, hrest⟩ := decompressInto_parse h
      exact ⟨p, Parse.write_empty_eq_ok_iff.mpr hp, hrest⟩
    · intro h
      obtain ⟨p, hp, hwithin, hroom, rfl, rfl⟩ := h
      obtain rfl := Parse.write_empty_eq_ok_iff.mp hp
      obtain ⟨htail, hs⟩ := p.size_le
      refine decompressInto_of_parse hwithin hroom ?_ ?_
      · rw [sizeLimit]
        omega
      · intro s hmem
        obtain ⟨hl, hn⟩ := hs s hmem
        rw [sizeLimit]
        omega
  · intro p q hp hq
    obtain rfl := Parse.write_empty_eq_ok_iff.mp hp
    have he := Parse.write_empty_eq_ok_iff.mp hq
    refine Parse.unique (hasAt_self _) (Nat.zero_add _) ?_ ?_
    · rw [he]
      exact hasAt_self _
    · rw [he, Nat.zero_add]
  · intro s before ho
    exact copyBack_repeats s.length s.offset_pos (by rwa [ByteArray.size_append])

/-- A match of offset 3 and length 6 behind one byte of history and two literals, then a last token whose
low half is 15. -/
theorem decompressInto_overlapping_match :
    (⟨#[0x22, 1, 2, 3, 0, 0x1F, 4]⟩ : ByteArray).size < 2 ^ 48 ∧
      decompressInto ⟨#[0x22, 1, 2, 3, 0, 0x1F, 4]⟩ ⟨#[9]⟩ 9 =
        (.ok 9, ⟨#[9, 1, 2, 9, 1, 2, 9, 1, 2, 4]⟩) := by
  have hsize : (⟨#[0x22, 1, 2, 3, 0, 0x1F, 4]⟩ : ByteArray).size < 2 ^ 48 := by decide
  refine ⟨hsize, ((decompressInto_eq_ok_iff_written _ ⟨#[9]⟩ 9 hsize).1 _ _).mpr ?_⟩
  exact ⟨⟨[⟨⟨#[1, 2]⟩, 3, 6, by decide, by decide, by decide⟩], ⟨#[4]⟩,
    15, by decide⟩, by rfl, by decide, by decide,
    by rfl, by rfl⟩

end LempelZiv
