import LempelZiv.Proofs.BlockLanguage

namespace LempelZiv

/-- A fault is nobody's data's fault: the code itself went wrong. -/
def Error.isFault : Error → Bool
  | fault _ => true
  | _ => false

theorem Sequence.expandedSize_le (s : Sequence) : s.literals.size + s.length ≤ 255 * s.bytes.size := by
  have hsize := s.size_bytes
  have hlength := size_extension_le (s.length - minMatch)
  rw [nibbleLimit] at hlength
  rw [minMatch] at hsize hlength
  omega

/-- A byte of a block stands for 255 bytes at the most. -/
theorem Parse.expandedSize_le (p : Parse) : p.expandedSize ≤ 255 * p.bytes.size := by
  induction p with
  | last tail spare hspare =>
    rw [size_bytes_last, expandedSize_last]
    omega
  | cons s p ih =>
    have hs := s.expandedSize_le
    rw [bytes_cons, ByteArray.size_append, expandedSize_cons]
    omega

namespace Decoding

/-- What a decoder answers to bytes that it does not take: they are no block, a match reaches back over all that
there is, or the limit is too low. -/
inductive Refuses (d : Decoding) : Error → Prop where
  | malformed (flaw : BlockFlaw) : Refuses d (.block flaw)
  | reach {offset position : Nat} (h : offset = 0 ∨ d.start + position < offset) :
      Refuses d (.matchOffset offset position)
  | limit : Refuses d (.capacity d.limit)

theorem Refuses.isFault {d : Decoding} {e : Error} (h : d.Refuses e) : e.isFault = false := by cases h <;> rfl

theorem readLength_error {src : ByteArray} {flaw : BlockFlaw} {ip used n : Nat} {e : Error}
    (h : readLength src flaw ip used n = .error e) : ∃ flaw, e = .block flaw := by
  fun_induction readLength src flaw ip used n with
  | case1 =>
    cases h
    exact ⟨_, rfl⟩
  | case2 _ _ _ _ _ _ _ ih => exact ih h
  | case3 => cases h
  | case4 =>
    cases h
    exact ⟨_, rfl⟩

theorem tokenLength_error {src : ByteArray} {flaw : BlockFlaw} {ip nibble : Nat} {e : Error}
    (h : tokenLength src flaw ip nibble = .error e) : ∃ flaw, e = .block flaw := by
  rw [tokenLength] at h
  split at h
  next => exact readLength_error h
  next => cases h

theorem tokenLength_le {src : ByteArray} {flaw : BlockFlaw} {ip nibble n used : Nat} (hip : ip ≤ src.size)
    (hnibble : nibble ≤ nibbleLimit) (h : tokenLength src flaw ip nibble = .ok (n, used)) :
    n < nibbleLimit + 255 * src.size := by
  obtain ⟨_, _, _, hext⟩ := (tokenLength_eq_ok_iff hip hnibble).mp h
  have hle := hext.le
  have hsize := size_extension_le n
  omega

theorem reserve_error {d : Decoding} {out : ByteArray} {n : Nat} {e : Error} (h : d.reserve out n = .error e) :
    e = .capacity d.limit := by
  rw [reserve] at h
  split at h
  next => cases h
  next =>
    cases h
    rfl

theorem literals_refuses {d : Decoding} {out : ByteArray} {ip token : Nat} {e : Error}
    (h : d.literals out ip token = .error e) : d.Refuses e := by
  unfold literals at h
  simp only [bind_eq_error_iff, check_eq_error_iff] at h
  rcases h with h | ⟨⟨n, used⟩, _, ⟨_, rfl⟩ | ⟨_, h | ⟨_, _, h⟩⟩⟩
  · obtain ⟨flaw, rfl⟩ := tokenLength_error h
    exact .malformed flaw
  · exact .malformed _
  · obtain rfl := reserve_error h
    exact .limit
  · cases h

variable {d : Decoding} (hsize : d.src.size < 2 ^ 48)
include hsize

/-- The one sum that nothing guards is that of a length and the shortest match; a block cannot be long enough to
make it too large. -/
theorem backReference_refuses {out : ByteArray} {ip token : Nat} {e : Error} (hstart : d.start ≤ out.size)
    (h : d.backReference out ip token = .error e) : d.Refuses e := by
  unfold backReference at h
  simp only [bind_eq_error_iff, check_eq_error_iff] at h
  rcases h with ⟨_, rfl⟩ | ⟨hip, ⟨hreach, rfl⟩ | ⟨_, h | ⟨⟨n, used⟩, htoken, h | ⟨m, _, h | ⟨_, _, h⟩⟩⟩⟩⟩
  · exact .malformed _
  · exact .reach (hreach.imp_right fun hlt => by omega)
  · obtain ⟨flaw, rfl⟩ := tokenLength_error h
    exact .malformed flaw
  · have hle := tokenLength_le (by omega) (by rw [nibbleLimit]; omega) htoken
    have hadd : addSize n minMatch = .ok (n + minMatch) := by
      refine addSize_eq_ok ?_
      rw [nibbleLimit] at hle
      rw [minMatch, sizeLimit]
      omega
    rw [hadd] at h
    cases h
  · obtain rfl := reserve_error h
    exact .limit
  · cases h

theorem run_refuses {ip : Nat} {out : ByteArray} {e : Error} (hstart : d.start ≤ out.size)
    (h : (d.run ip out).1 = .error e) : d.Refuses e := by
  fun_induction run d ip out with
  | case1 ip out hip token e' hliterals =>
    cases h
    exact literals_refuses hliterals
  | case2 => cases h
  | case3 ip out hip token n used hliterals first last out' hlast e' hback =>
    cases h
    refine backReference_refuses hsize (Nat.le_trans hstart ?_) hback
    simp [out']
  | case4 ip out hip token n used hliterals first last out' hlast offset length used' hback ih =>
    refine ih ?_ h
    simp only [size_copyBack, out', ByteArray.size_append]
    omega
  | case5 =>
    cases h
    exact .malformed _

omit hsize

/-- Whatever comes of it, what was decoded before stays in front. -/
theorem run_extends (d : Decoding) (ip : Nat) (out : ByteArray) : ∃ more, (d.run ip out).2 = out ++ more := by
  fun_induction run d ip out with
  | case1 => exact ⟨ByteArray.empty, ByteArray.append_empty.symm⟩
  | case2 => exact ⟨_, rfl⟩
  | case3 => exact ⟨_, rfl⟩
  | case4 ip out hip token n used hliterals first last out' hlast offset length used' hback ih =>
    obtain ⟨more, hmore⟩ := ih
    obtain ⟨copied, hcopied, _⟩ := copyBack_append out' offset length
    exact ⟨d.src.extract first last ++ copied ++ more, by
      rw [hmore, hcopied, ByteArray.append_assoc, ByteArray.append_assoc, ByteArray.append_assoc]⟩
  | case5 => exact ⟨ByteArray.empty, ByteArray.append_empty.symm⟩

end Decoding

/-- A block with an error leaves the output as it was. -/
theorem decompressInto_eq_error_iff_run {src out out' : ByteArray} {limit : Nat} {e : Error} :
    decompressInto src out limit = (.error e, out') ↔
      (if src.isEmpty then e = .block .emptyBlock
        else (Decoding.run ⟨src, out.size, limit⟩ 0 out).1 = .error e) ∧ out' = out := by
  rw [decompressInto]
  split
  next => simp [eq_comm]
  next =>
    obtain ⟨more, hmore⟩ := Decoding.run_extends ⟨src, out.size, limit⟩ 0 out
    rcases hrun : Decoding.run ⟨src, out.size, limit⟩ 0 out with ⟨e' | u, decoded⟩
    · rw [hrun] at hmore
      obtain rfl : decoded = out ++ more := hmore
      simp [hrun, ByteArray.extract_append_eq_left, eq_comm]
    · simp [hrun]

/-- Bytes that are no block are refused, and never make the decoder fault. -/
theorem decompressInto_error {src out out' : ByteArray} {limit : Nat} {e : Error} (hsize : src.size < 2 ^ 48)
    (h : decompressInto src out limit = (.error e, out')) :
    Decoding.Refuses ⟨src, out.size, limit⟩ e ∧ out' = out := by
  obtain ⟨hcause, rfl⟩ := decompressInto_eq_error_iff_run.mp h
  refine ⟨?_, rfl⟩
  split at hcause
  next =>
    cases hcause
    exact .malformed _
  next => exact Decoding.run_refuses hsize (Nat.le_refl _) hcause

theorem decompressInto_ok_le {src out out' : ByteArray} {limit n : Nat}
    (h : decompressInto src out limit = (.ok n, out')) :
    ∃ more, out' = out ++ more ∧ more.size = n ∧ n ≤ limit ∧ n ≤ 255 * src.size := by
  obtain ⟨p, hp, _, hroom, hn, rfl⟩ := decompressInto_parse h
  obtain ⟨more, hmore, hsize⟩ := p.expand_eq_append out
  have hle := p.expandedSize_le
  rw [hp] at hle
  exact ⟨more, hmore, hsize.trans hn.symm, hn ▸ hroom, hn ▸ hle⟩

end LempelZiv
