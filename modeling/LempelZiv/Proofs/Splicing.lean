import LempelZiv.Block.Splice
import LempelZiv.Proofs.Parse

namespace LempelZiv

def Sequence.lead (carried : ByteArray) (s : Sequence) : Sequence :=
  { s with literals := carried ++ s.literals }

/-- Bytes that are put in front of the literals count in the token, and stand right behind it. -/
theorem Sequence.bytes_eq_token (s : Sequence) : ∃ code behind, code < 16 ∧
    s.bytes = tokenBytes s.literals.size code ++ behind ∧
    ∀ carried, (s.lead carried).bytes = tokenBytes (carried.size + s.literals.size) code ++ (carried ++ behind) := by
  have hcode : min (s.length - minMatch) nibbleLimit < 16 := by
    rw [nibbleLimit]
    omega
  refine ⟨_, s.literals ++ (leBytes 2 s.offset ++ extension (s.length - minMatch)), hcode, ?_, ?_⟩
  · rw [Sequence.bytes]
    simp only [ByteArray.append_assoc]
  · intro carried
    rw [Sequence.bytes, Sequence.lead, ByteArray.size_append]
    simp only [ByteArray.append_assoc]

/-- Splicing changes the token and the length behind it, and puts the carried bytes after them. -/
theorem splice_token {carried body rest : ByteArray} {n code : Nat} (out : ByteArray) (hcode : code < 16)
    (hn : n < sizeLimit) (hbody : body = tokenBytes n code ++ rest) :
    splice out carried body = .ok (out ++ (tokenBytes (carried.size + n) code ++ (carried ++ rest))) := by
  rw [splice]
  split
  next hempty =>
    have hcarried := ByteArray.size_eq_zero_iff.mp (isEmpty_iff.mp hempty)
    rw [hbody, hcarried, ByteArray.size_empty, Nat.zero_add, ByteArray.empty_append]
    rfl
  next =>
    have hself := hasAt_self body
    rw [hbody, hasAt_append] at hself
    obtain ⟨hsize, hhigh, hlow, hext⟩ := (hasAt_tokenBytes hcode).mp hself.1
    rw [← hbody] at hsize hhigh hlow hext
    rw [byteAt_of_lt hsize] at hhigh hlow
    have hnibble : min n nibbleLimit ≤ nibbleLimit := Nat.min_le_right _ _
    have htoken : Decoding.tokenLength body .truncatedLiteralLength 1 (min n nibbleLimit) =
        .ok (n, (extension n).size) :=
      (tokenLength_eq_ok_iff hsize hnibble).mpr ⟨rfl, hn, rfl, hext⟩
    have hdrop : dropBytes body (1 + (extension n).size) = rest := by
      rw [hbody, ← size_tokenBytes n code, dropBytes_append]
    rw [dif_pos hsize]
    simp only [hhigh, hlow, htoken, putToken_eq]
    change Except.ok (out ++ tokenBytes (carried.size + n) code ++ carried ++
      dropBytes body (1 + (extension n).size)) = _
    rw [hdrop]
    simp only [ByteArray.append_assoc]

theorem splice_sequences (out carried rest : ByteArray) {s : Sequence} (hs : s.literals.size < sizeLimit) :
    splice out carried (s.bytes ++ rest) = .ok (out ++ ((s.lead carried).bytes ++ rest)) := by
  obtain ⟨code, behind, hcode, hbytes, hlead⟩ := s.bytes_eq_token
  rw [splice_token out hcode hs (by rw [hbytes, ByteArray.append_assoc]), hlead]
  simp only [ByteArray.append_assoc]

theorem splice_last (out carried : ByteArray) {tail : ByteArray} {spare : Nat} (hspare : spare < 16)
    (htail : tail.size < sizeLimit) : splice out carried (Parse.last tail spare hspare).bytes =
      .ok (out ++ (Parse.last (carried ++ tail) spare hspare).bytes) := by
  rw [splice_token out hspare htail (Parse.bytes_last hspare), Parse.bytes_last, ByteArray.size_append]

end LempelZiv
