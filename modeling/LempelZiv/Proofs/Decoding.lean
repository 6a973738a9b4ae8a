import LempelZiv.Proofs.Parse

namespace LempelZiv

namespace Decoding

theorem reserve_eq_ok_iff {d : Decoding} {out : ByteArray} {n : Nat} {u : Unit} :
    d.reserve out n = .ok u ↔ out.size - d.start + n ≤ d.limit := by
  rw [reserve]
  split
  next h => exact ⟨fun _ => h, fun _ => rfl⟩
  next h => exact ⟨fun he => (nomatch he), fun he => absurd he h⟩

theorem literals_eq_ok_iff {d : Decoding} {out : ByteArray} {ip token n used : Nat} (hip : ip ≤ d.src.size)
    (ht : token < 256) : d.literals out ip token = .ok (n, used) ↔
      (token / 16 = min n nibbleLimit ∧ n < sizeLimit ∧ used = (extension n).size ∧
        HasAt d.src ip (extension n)) ∧
        ip + used + n ≤ d.src.size ∧ out.size - d.start + n ≤ d.limit := by
  have hnibble : token / 16 ≤ nibbleLimit := by rw [nibbleLimit]; omega
  unfold literals
  simp only [bind_eq_ok_iff, check_eq_ok_iff, reserve_eq_ok_iff, pure_eq_ok_iff, Prod.exists,
    Prod.mk.injEq, Nat.not_lt]
  constructor
  · intro h
    obtain ⟨n', used', htoken, hend, _, hroom, rfl, rfl⟩ := h
    exact ⟨(tokenLength_eq_ok_iff hip hnibble).mp htoken, hend, hroom⟩
  · intro h
    obtain ⟨htoken, hend, hroom⟩ := h
    exact ⟨n, used, (tokenLength_eq_ok_iff hip hnibble).mpr htoken, hend, (), hroom, rfl, rfl⟩

theorem offset_eq_iff {src : ByteArray} {ip offset : Nat} (hip : ip + 2 ≤ src.size) :
    readLE src ip 2 = offset ↔ HasAt src ip (leBytes 2 offset) ∧ offset ≤ maxDistance := by
  have hlt := readLE_lt src ip 2
  rw [maxDistance]
  constructor
  · intro he
    rw [← he]
    exact ⟨(hasAt_leBytes hlt).mpr ⟨hip, rfl⟩, by omega⟩
  · intro h
    exact ((hasAt_leBytes (by omega)).mp h.1).2

theorem backReference_eq_ok_iff {d : Decoding} {out : ByteArray} {ip token offset n used : Nat} :
    d.backReference out ip token = .ok (offset, n, used) ↔
      (HasAt d.src ip (leBytes 2 offset) ∧ 0 < offset ∧ offset ≤ maxDistance ∧ offset ≤ out.size) ∧
      (minMatch ≤ n ∧ n < sizeLimit ∧ token % 16 = min (n - minMatch) nibbleLimit ∧
        used = (extension (n - minMatch)).size ∧ HasAt d.src (ip + 2) (extension (n - minMatch))) ∧
        out.size - d.start + n ≤ d.limit := by
  have hnibble : token % 16 ≤ nibbleLimit := by rw [nibbleLimit]; omega
  unfold backReference
  simp only [bind_eq_ok_iff, check_eq_ok_iff, reserve_eq_ok_iff, pure_eq_ok_iff, lift_eq_ok_iff,
    addSize_eq_ok_iff,
    Prod.exists, Prod.mk.injEq, Nat.not_lt, not_or]
  constructor
  · intro h
    obtain ⟨hip, ⟨hpos, hle⟩, m, used', htoken, n', ⟨rfl, hlt⟩, _, hroom, rfl, rfl, rfl⟩ := h
    obtain ⟨hat, hmax⟩ := (offset_eq_iff hip).mp rfl
    obtain ⟨hmin, _, hused, hext⟩ := (tokenLength_eq_ok_iff hip hnibble).mp htoken
    rw [Nat.add_sub_cancel]
    exact ⟨⟨hat, Nat.pos_of_ne_zero hpos, hmax, hle⟩, ⟨Nat.le_add_left _ _, hlt, hmin, hused, hext⟩, hroom⟩
  · intro h
    obtain ⟨⟨hat, hpos, hmax, hle⟩, ⟨hmatch, hlt, hmin, hused, hext⟩, hroom⟩ := h
    have hip : ip + 2 ≤ d.src.size := by simpa only [size_leBytes] using hat.le
    have he := (offset_eq_iff hip).mpr ⟨hat, hmax⟩
    rw [he]
    refine ⟨hip, ⟨by omega, hle⟩, n - minMatch, used, ?_, n, ⟨by omega, hlt⟩, (), hroom, rfl, rfl, rfl⟩
    exact (tokenLength_eq_ok_iff hip hnibble).mpr ⟨hmin, by omega, hused, hext⟩

/-- From `ip` on the block is made up of the parts `p`, and there is room for them behind `out`. -/
structure Admits (d : Decoding) (ip : Nat) (out : ByteArray) (p : Parse) : Prop where
  hasAt : HasAt d.src ip p.bytes
  ends : ip + p.bytes.size = d.src.size
  within : Within out.size p.sequences
  sized : ∀ s ∈ p.sequences, s.literals.size < sizeLimit ∧ s.length < sizeLimit
  tail_sized : p.tail.size < sizeLimit
  room : out.size - d.start + p.expandedSize ≤ d.limit

theorem admits_last_iff {d : Decoding} {ip : Nat} {out tail : ByteArray} {spare : Nat}
    (hspare : spare < 16) :
    d.Admits ip out (.last tail spare hspare) ↔ ip < d.src.size ∧ (byteAt d.src ip).toNat % 16 = spare ∧
      d.literals out (ip + 1) (byteAt d.src ip).toNat = .ok (tail.size, (extension tail.size).size) ∧
      HasAt d.src (ip + 1 + (extension tail.size).size) tail ∧
      ip + 1 + (extension tail.size).size + tail.size = d.src.size := by
  have hroom := Parse.expandedSize_last tail hspare
  have hsize := @Parse.size_bytes_last tail spare hspare
  constructor
  · intro h
    obtain ⟨htoken, htail⟩ := hasAt_last.mp h.hasAt
    obtain ⟨hip, hhigh, hlow, hext⟩ := (hasAt_tokenBytes hspare).mp htoken
    have hend := h.ends
    have hle := h.room
    refine ⟨hip, hlow, ?_, htail, by omega⟩
    exact (literals_eq_ok_iff (by omega) (UInt8.toNat_lt _)).mpr
      ⟨⟨hhigh, h.tail_sized, rfl, hext⟩, by omega, by omega⟩
  · intro h
    obtain ⟨hip, hlow, hl, htail, hend⟩ := h
    obtain ⟨⟨hhigh, hlt, _, hext⟩, _, hle⟩ := (literals_eq_ok_iff (by omega) (UInt8.toNat_lt _)).mp hl
    have htoken := (hasAt_tokenBytes hspare).mpr ⟨hip, hhigh, hlow, hext⟩
    exact ⟨hasAt_last.mpr ⟨htoken, htail⟩, by omega, trivial, by simp [Parse.last], hlt, by omega⟩

theorem admits_cons_iff {d : Decoding} {ip : Nat} {out : ByteArray} {s : Sequence} {p : Parse}
    (hstart : d.start ≤ out.size) : d.Admits ip out (p.cons s) ↔ ip < d.src.size ∧
      d.literals out (ip + 1) (byteAt d.src ip).toNat =
        .ok (s.literals.size, (extension s.literals.size).size) ∧
      HasAt d.src (ip + 1 + (extension s.literals.size).size) s.literals ∧
      d.backReference (out ++ s.literals) (ip + 1 + (extension s.literals.size).size + s.literals.size)
        (byteAt d.src ip).toNat = .ok (s.offset, s.length, (extension (s.length - minMatch)).size) ∧
      d.Admits (ip + s.bytes.size) (s.expand out) p := by
  have hsize := s.size_bytes
  have hroom := p.expandedSize_cons s
  have hcode : min (s.length - minMatch) nibbleLimit < 16 := by rw [nibbleLimit]; omega
  have hexp := s.size_expand out
  have hlits : (out ++ s.literals).size = out.size + s.literals.size := ByteArray.size_append
  constructor
  · intro h
    obtain ⟨hat, hend, ⟨hoffset, hwithin⟩, hsized, htail, hle⟩ := h
    rw [Parse.bytes_cons] at hend
    rw [Parse.bytes_cons, hasAt_append, hasAt_sequence] at hat
    obtain ⟨⟨htoken, hliterals, hback, hext⟩, hrest⟩ := hat
    obtain ⟨hip, hhigh, hlow, hexternal⟩ := (hasAt_tokenBytes hcode).mp htoken
    obtain ⟨hlt, hlt'⟩ := hsized s List.mem_cons_self
    rw [ByteArray.size_append] at hend
    refine ⟨hip, ?_, hliterals, ?_, hrest, by omega, by rwa [hexp], ?_, htail, by omega⟩
    · have := hback.le
      exact (literals_eq_ok_iff (by omega) (UInt8.toNat_lt _)).mpr
        ⟨⟨hhigh, hlt, rfl, hexternal⟩, by omega, by omega⟩
    · exact backReference_eq_ok_iff.mpr ⟨⟨hback, s.offset_pos, s.offset_le, by omega⟩,
        ⟨s.minMatch_le, hlt', hlow, rfl, hext⟩, by omega⟩
    · exact fun t ht => hsized t (List.mem_cons_of_mem s ht)
  · intro h
    obtain ⟨hip, hl, hliterals, hb, hat, hend, hwithin, hsized, htail, hle⟩ := h
    obtain ⟨⟨hhigh, hlt, _, hexternal⟩, _, _⟩ := (literals_eq_ok_iff (by omega) (UInt8.toNat_lt _)).mp hl
    obtain ⟨⟨hback, _, _, hoffset⟩, ⟨_, hlt', hlow, _, hext⟩, _⟩ := backReference_eq_ok_iff.mp hb
    have htoken := (hasAt_tokenBytes hcode).mpr ⟨hip, hhigh, hlow, hexternal⟩
    refine ⟨?_, ?_, ⟨by omega, by rwa [hexp] at hwithin⟩, ?_, htail, by omega⟩
    · rw [Parse.bytes_cons, hasAt_append, hasAt_sequence]
      exact ⟨⟨htoken, hliterals, hback, hext⟩, hat⟩
    · rw [Parse.bytes_cons, ByteArray.size_append]
      omega
    · intro t ht
      rcases List.mem_cons.mp ht with rfl | ht
      · exact ⟨hlt, hlt'⟩
      · exact hsized t ht

theorem run_admitted {d : Decoding} {ip : Nat} {out : ByteArray} {p : Parse} (hstart : d.start ≤ out.size)
    (h : d.Admits ip out p) : d.run ip out = (.ok (), p.expand out) := by
  induction p generalizing ip out with
  | last tail spare hspare =>
    obtain ⟨hip, _, hl, hat, hend⟩ := (admits_last_iff hspare).mp h
    rw [byteAt_of_lt hip] at hl
    rw [run, dif_pos hip]
    simp only [hl, hat.eq]
    rw [if_pos hend]
    rfl
  | cons s p ih =>
    obtain ⟨hip, hl, hat, hb, hrest⟩ := (admits_cons_iff hstart).mp h
    have hoffset := (backReference_eq_ok_iff.mp hb).1.1.le
    rw [size_leBytes] at hoffset
    have hnext := ih (by rw [s.size_expand]; omega) hrest
    rw [s.size_bytes, show ip + (1 + (extension s.literals.size).size + s.literals.size + 2 +
      (extension (s.length - minMatch)).size) = ip + 1 + (extension s.literals.size).size +
        s.literals.size + 2 +
      (extension (s.length - minMatch)).size by omega] at hnext
    rw [byteAt_of_lt hip] at hl hb
    rw [run, dif_pos hip]
    simp only [hl, hat.eq]
    rw [if_neg (by omega)]
    simp only [hb]
    exact hnext

theorem exists_admitted {d : Decoding} {ip : Nat} {out result : ByteArray} (hstart : d.start ≤ out.size)
    (h : d.run ip out = (.ok (), result)) : ∃ p, d.Admits ip out p := by
  fun_induction run d ip out with
  | case1 => cases h
  | case2 ip out hip token n used hl first last _ hend =>
    have hat : HasAt d.src first (d.src.extract first last) :=
      hasAt_extract (Nat.le_add_right _ _) (by omega)
    have hs : (d.src.extract first last).size = n := by
      rw [ByteArray.size_extract]
      omega
    obtain ⟨⟨_, _, hused, _⟩, _⟩ := (literals_eq_ok_iff (by omega) (UInt8.toNat_lt _)).mp hl
    refine ⟨.last (d.src.extract first last) (token % 16) (Nat.mod_lt _ (by decide)), ?_⟩
    rw [admits_last_iff, byteAt_of_lt hip, hs, ← hused]
    exact ⟨hip, rfl, hl, hat, hend⟩
  | case3 => cases h
  | case4 ip out hip token n used hl first last _ hend offset length more hb ih =>
    obtain ⟨⟨_, _, hused, _⟩, hle, _⟩ := (literals_eq_ok_iff (by omega) (UInt8.toNat_lt _)).mp hl
    have hat : HasAt d.src first (d.src.extract first last) :=
      hasAt_extract (Nat.le_add_right _ _) (by omega)
    have hs : (d.src.extract first last).size = n := by
      rw [ByteArray.size_extract]
      omega
    obtain ⟨⟨_, hpos, hmax, _⟩, ⟨hmin, _, _, hmore, _⟩, _⟩ := backReference_eq_ok_iff.mp hb
    let s : Sequence := ⟨d.src.extract first last, offset, length, hpos, hmax, hmin⟩
    obtain ⟨p, hp⟩ := ih (by rw [size_copyBack, ByteArray.size_append]; omega) h
    refine ⟨p.cons s, ?_⟩
    have hnext : ip + s.bytes.size = last + 2 + more := by
      rw [s.size_bytes, hs, ← hused, ← hmore]
      omega
    rw [admits_cons_iff hstart, byteAt_of_lt hip, hnext, hs, ← hused, ← hmore]
    exact ⟨hip, hl, hat, hb, hp⟩
  | case5 => cases h

/-- Decoding succeeds just on blocks, and gives the bytes that they stand for. -/
theorem run_eq_ok_iff {d : Decoding} {ip : Nat} {out result : ByteArray} (hstart : d.start ≤ out.size) :
    d.run ip out = (.ok (), result) ↔ ∃ p, d.Admits ip out p ∧ result = p.expand out := by
  constructor
  · intro h
    obtain ⟨p, hp⟩ := exists_admitted hstart h
    rw [run_admitted hstart hp, Prod.mk.injEq] at h
    exact ⟨p, hp, h.2.symm⟩
  · intro h
    obtain ⟨p, hp, rfl⟩ := h
    exact run_admitted hstart hp

end Decoding

end LempelZiv
