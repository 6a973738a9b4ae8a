import LempelZiv.Proofs.BlockLimits

namespace LempelZiv

namespace Decoding

variable {front rest out result : ByteArray} {flaw : BlockFlaw} {start limit ip token nibble n used : Nat}

/-- A length of a block is there as a whole, or where only the front of the block is there its end is missed. -/
theorem readLength_front {total count : Nat}
    (h : readLength (front ++ rest) flaw ip used n = .ok (total, count)) :
    (readLength front flaw ip used n = .ok (total, count) ∧ ip + count ≤ front.size) ∨
      readLength front flaw ip used n = .error (.block flaw) := by
  generalize hsrc : front ++ rest = src at h
  fun_induction readLength src flaw ip used n with
  | case1 => cases h
  | case2 used n hlt b n' hadd hfull ih =>
    subst hsrc
    by_cases hfront : ip + used < front.size
    case neg =>
      rw [readLength, dif_neg hfront]
      exact .inr rfl
    have hbyte : front[ip + used] = b := (ByteArray.getElem_append_left hfront).symm
    rw [readLength, dif_pos hfront]
    simp only [hbyte, hadd, if_pos hfull]
    exact ih h
  | case3 used n hlt b n' hadd hshort =>
    subst hsrc
    cases h
    by_cases hfront : ip + used < front.size
    case neg =>
      rw [readLength, dif_neg hfront]
      exact .inr rfl
    have hbyte : front[ip + used] = b := (ByteArray.getElem_append_left hfront).symm
    rw [readLength, dif_pos hfront]
    simp only [hbyte, hadd, if_neg hshort]
    exact .inl ⟨trivial, hfront⟩
  | case4 => cases h

theorem tokenLength_front (hip : ip ≤ front.size)
    (h : tokenLength (front ++ rest) flaw ip nibble = .ok (n, used)) :
    (tokenLength front flaw ip nibble = .ok (n, used) ∧ ip + used ≤ front.size) ∨
      tokenLength front flaw ip nibble = .error (.block flaw) := by
  rw [tokenLength] at h ⊢
  split at h
  next hmore =>
    rw [if_pos hmore]
    exact readLength_front h
  next hwhole =>
    cases h
    rw [if_neg hwhole]
    exact .inl ⟨rfl, hip⟩

theorem literals_front (hip : ip ≤ front.size)
    (h : literals ⟨front ++ rest, start, limit⟩ out ip token = .ok (n, used)) :
    (literals ⟨front, start, limit⟩ out ip token = .ok (n, used) ∧ ip + used + n ≤ front.size) ∨
      ∃ flaw, literals ⟨front, start, limit⟩ out ip token = .error (.block flaw) := by
  unfold literals at h ⊢
  simp only [bind_eq_ok_iff, check_eq_ok_iff, pure_eq_ok_iff, Prod.exists, Prod.mk.injEq] at h
  obtain ⟨n, used, htoken, _, _, hroom, rfl, rfl⟩ := h
  rcases tokenLength_front hip htoken with ⟨hfront, hle⟩ | hflaw
  case inr =>
    rw [hflaw]
    exact .inr ⟨_, rfl⟩
  rw [hfront]
  by_cases hend : front.size < ip + used + n
  · exact .inr ⟨.literalsPastEnd, if_pos hend⟩
  · refine .inl ⟨?_, Nat.le_of_not_lt hend⟩
    simp only [bind_eq_ok_iff, check_eq_ok_iff, pure_eq_ok_iff, Prod.exists, Prod.mk.injEq]
    exact ⟨n, used, rfl, hend, (), hroom, rfl, rfl⟩

/-- An offset and a length that are there as a whole are the same, as is all that they reach. -/
theorem backReference_front {offset : Nat}
    (h : backReference ⟨front ++ rest, start, limit⟩ out ip token = .ok (offset, n, used)) :
    backReference ⟨front, start, limit⟩ out ip token = .ok (offset, n, used) ∨
      ∃ flaw, backReference ⟨front, start, limit⟩ out ip token = .error (.block flaw) := by
  unfold backReference at h ⊢
  by_cases hip : front.size < ip + 2
  · exact .inr ⟨.truncatedOffset, if_pos hip⟩
  have hsame : readLE (front ++ rest) ip 2 = readLE front ip 2 := readLE_append_left rest (Nat.le_of_not_lt hip)
  simp only [bind_eq_ok_iff, check_eq_ok_iff, pure_eq_ok_iff, Prod.exists, Prod.mk.injEq, hsame] at h
  obtain ⟨_, hoffset, m, used, htoken, n, hadd, _, hroom, rfl, rfl, rfl⟩ := h
  rcases tokenLength_front (Nat.le_of_not_lt hip) htoken with ⟨hfront, _⟩ | hflaw
  · refine .inl ?_
    simp only [bind_eq_ok_iff, check_eq_ok_iff, pure_eq_ok_iff, Prod.exists, Prod.mk.injEq]
    exact ⟨hip, hoffset, m, used, hfront, n, hadd, (), hroom, trivial, rfl, rfl⟩
  · refine .inr ⟨.truncatedMatchLength, ?_⟩
    rw [if_neg hip]
    simp only [if_neg hoffset, hflaw]
    rfl

/-- What the front of an input comes to where the whole of it decodes to `result`: something of it is missed, or it
ends with the literals of a sequence, and decodes to the beginning of the output. -/
inductive FrontDecoded (result : ByteArray) : Except Error Unit × ByteArray → Prop
  | missed {flaw : BlockFlaw} {decoded : ByteArray} : FrontDecoded result (.error (.block flaw), decoded)
  | ended {decoded more : ByteArray} (result_eq : result = decoded ++ more) : FrontDecoded result (.ok (), decoded)

/-- Up to the literals of a sequence the front decodes as the whole does. -/
theorem run_front_literals {lits : ByteArray} (hat : HasAt (front ++ rest) (ip + 1 + used) lits)
    (hl : literals ⟨front ++ rest, start, limit⟩ out (ip + 1) (byteAt (front ++ rest) ip).toNat =
      .ok (lits.size, used)) :
    let back := backReference ⟨front, start, limit⟩ (out ++ lits) (ip + 1 + used + lits.size)
      (byteAt (front ++ rest) ip).toNat
    (∃ flaw, run ⟨front, start, limit⟩ ip out = (.error (.block flaw), out)) ∨
      (ip + 1 + used + lits.size = front.size ∧ run ⟨front, start, limit⟩ ip out = (.ok (), out ++ lits)) ∨
      ip + 1 + used + lits.size < front.size ∧
        (∀ e, back = .error e → run ⟨front, start, limit⟩ ip out = (.error e, out ++ lits)) ∧
        ∀ offset length used', back = .ok (offset, length, used') → run ⟨front, start, limit⟩ ip out =
          run ⟨front, start, limit⟩ (ip + 1 + used + lits.size + 2 + used')
            (copyBack (out ++ lits) offset length) := by
  intro back
  by_cases hip : ip < front.size
  case neg =>
    rw [run, dif_neg hip]
    exact .inl ⟨_, rfl⟩
  have hbyte : byteAt (front ++ rest) ip = front[ip] := (byteAt_append_left rest hip).trans (byteAt_of_lt hip)
  simp only [back, hbyte] at hl ⊢
  rcases literals_front hip hl with ⟨hwhole, hle⟩ | ⟨flaw, hflaw⟩
  case inr =>
    rw [run, dif_pos hip]
    simp only [hflaw]
    exact .inl ⟨_, rfl⟩
  have hlits : front.extract (ip + 1 + used) (ip + 1 + used + lits.size) = lits := by
    rw [← extract_append_left rest hle, hat.eq]
  by_cases hend : ip + 1 + used + lits.size = front.size
  · refine .inr (.inl ⟨hend, ?_⟩)
    rw [run, dif_pos hip]
    simp only [hwhole, hlits, if_pos hend]
  · refine .inr (.inr ⟨by omega, ?_, ?_⟩)
    · intro e hback
      rw [run, dif_pos hip]
      simp only [hwhole, hlits, if_neg hend, hback]
    · intro offset length used' hback
      rw [run, dif_pos hip]
      simp only [hwhole, hlits, if_neg hend, hback]

theorem run_front {p : Parse} (hstart : start ≤ out.size) (h : Admits ⟨front ++ rest, start, limit⟩ ip out p) :
    FrontDecoded (p.expand out) (run ⟨front, start, limit⟩ ip out) := by
  induction p generalizing ip out with
  | last tail spare hspare =>
    obtain ⟨_, _, hl, hat, hend⟩ := (admits_last_iff hspare).mp h
    rcases run_front_literals hat hl with ⟨flaw, hmissed⟩ | ⟨_, hended⟩ | ⟨hmore, _⟩
    · rw [hmissed]
      exact .missed
    · rw [hended]
      exact .ended ByteArray.append_empty.symm
    · rw [ByteArray.size_append] at hend
      omega
  | cons s p ih =>
    obtain ⟨_, hl, hat, hb, hrest⟩ := (admits_cons_iff hstart).mp h
    rcases run_front_literals hat hl with ⟨flaw, hmissed⟩ | ⟨_, hended⟩ | ⟨_, hrefused, hgoesOn⟩
    · rw [hmissed]
      exact .missed
    · -- The cut is right behind the literals, which are then the last ones.
      rw [hended]
      obtain ⟨copied, hcopied, _⟩ := copyBack_append (out ++ s.literals) s.offset s.length
      obtain ⟨later, hlater, _⟩ := p.expand_eq_append (s.expand out)
      refine @FrontDecoded.ended _ _ (copied ++ later) ?_
      change p.expand (s.expand out) = _
      rw [hlater, Sequence.expand, hcopied, ByteArray.append_assoc]
    · rcases backReference_front hb with hsame | ⟨flaw, hflaw⟩
      · have hnext := ih (by rw [s.size_expand]; omega) hrest
        rw [s.size_bytes, ← Nat.add_assoc, ← Nat.add_assoc, ← Nat.add_assoc, ← Nat.add_assoc] at hnext
        rw [hgoesOn _ _ _ hsame]
        exact hnext
      · rw [hrefused _ hflaw]
        exact .missed

end Decoding

/-- The front of a block that decodes behind some bytes is no block, or it decodes to the beginning of the same. -/
theorem decompressInto_front {front rest out result : ByteArray} {limit n : Nat}
    (h : decompressInto (front ++ rest) out limit = (.ok n, result)) :
    (∃ flaw, decompressInto front out limit = (.error (.block flaw), out)) ∨
      ∃ decoded more, decompressInto front out limit = (.ok (decoded.size - out.size), decoded) ∧
        result = decoded ++ more := by
  obtain ⟨hrun, rfl⟩ := decompressInto_eq_ok_iff_run.mp h
  obtain ⟨p, hp, rfl⟩ := (Decoding.run_eq_ok_iff (Nat.le_refl _)).mp hrun
  have hfront := Decoding.run_front (Nat.le_refl _) hp
  generalize hrun' : Decoding.run ⟨front, out.size, limit⟩ 0 out = outcome at hfront
  cases hfront with
  | ended result_eq => exact .inr ⟨_, _, decompressInto_eq_ok_iff_run.mpr ⟨hrun', rfl⟩, result_eq⟩
  | @missed flaw decoded =>
    refine .inl ?_
    by_cases hempty : front.isEmpty
    · exact ⟨.emptyBlock, decompressInto_eq_error_iff_run.mpr ⟨by rw [if_pos hempty], rfl⟩⟩
    · exact ⟨flaw, decompressInto_eq_error_iff_run.mpr ⟨by rw [if_neg hempty, hrun'], rfl⟩⟩

/-- A block that is cut off, wherever that is, never decodes to wrong bytes: it is refused as no block, or what it
decodes to is the beginning of the output of the whole block. -/
theorem decompress_truncated {front rest out : ByteArray} {limit : Nat}
    (h : decompress (front ++ rest) limit = .ok out) :
    (∃ flaw, decompress front limit = .error (.block flaw)) ∨
      ∃ decoded more, decompress front limit = .ok decoded ∧ out = decoded ++ more := by
  rw [decompress] at h ⊢
  split at h
  next n result hwhole =>
    cases h
    rcases decompressInto_front hwhole with ⟨flaw, hflaw⟩ | ⟨decoded, more, hdecoded, hresult⟩
    · rw [hflaw]
      exact .inl ⟨flaw, rfl⟩
    · rw [hdecoded]
      exact .inr ⟨decoded, more, rfl, hresult⟩
  next => cases h

/-- The cut is behind the literal of the first sequence, which is then the last one. -/
theorem decompress_truncated_behind_literal :
    let front : ByteArray := ⟨#[0x12, 97]⟩
    let rest : ByteArray := ⟨#[1, 0, 0]⟩
    let out : ByteArray := ⟨#[97, 97, 97, 97, 97, 97, 97]⟩
    decompress (front ++ rest) 7 = .ok out ∧ decompress front 7 = .ok ⟨#[97]⟩ ∧ ∃ more, out = ⟨#[97]⟩ ++ more := by
  intro front rest out
  let whole : Parse := ⟨[⟨⟨#[97]⟩, 1, 6, by decide, by decide, by decide⟩], ByteArray.empty, 0, by decide⟩
  let cut : Parse := ⟨[], ⟨#[97]⟩, 2, by decide⟩
  have hwhole : decompress whole.bytes 7 = .ok (whole.expand ByteArray.empty) := by
    rw [decompress, decompressInto_of_parse (by decide) (by decide) (by decide) (by decide)]
  have hcut : decompress cut.bytes 7 = .ok (cut.expand ByteArray.empty) := by
    rw [decompress, decompressInto_of_parse (by decide) (by decide) (by decide) (by decide)]
  have hbytes : whole.bytes = front ++ rest := by rfl
  rw [hbytes] at hwhole
  refine ⟨hwhole, hcut, ?_⟩
  rcases decompress_truncated hwhole with ⟨flaw, hflaw⟩ | ⟨decoded, more, hdecoded, hout⟩
  · cases hcut.symm.trans hflaw
  · cases hcut.symm.trans hdecoded
    exact ⟨more, hout⟩

end LempelZiv
