import LempelZiv.Proofs.BlockLimits
import LempelZiv.Proofs.LinkedBlocks

namespace LempelZiv

/-- The last `n` bytes, or all of them where there are fewer. -/
def lastBytes (n : Nat) (bytes : ByteArray) : ByteArray := dropBytes bytes (bytes.size - n)

theorem exists_append_lastBytes (n : Nat) (bytes : ByteArray) : ∃ far, bytes = far ++ lastBytes n bytes := by
  have hcut := extract_append_dropBytes (Nat.zero_le (bytes.size - n)) (Nat.sub_le bytes.size n)
  rw [dropBytes_zero] at hcut
  exact ⟨bytes.extract 0 (bytes.size - n), hcut.symm⟩

theorem size_lastBytes (n : Nat) (bytes : ByteArray) : (lastBytes n bytes).size = min n bytes.size := by
  rw [lastBytes, size_dropBytes]
  omega

theorem lastBytes_of_le {n : Nat} {bytes : ByteArray} (h : bytes.size ≤ n) : lastBytes n bytes = bytes := by
  rw [lastBytes, Nat.sub_eq_zero_of_le h, dropBytes_zero]

theorem lastBytes_append (far near : ByteArray) : lastBytes near.size (far ++ near) = near := by
  rw [lastBytes, ByteArray.size_append, Nat.add_sub_cancel_right, dropBytes_append]

theorem Within.mono {ss : List Sequence} {m n : Nat} (hle : m ≤ n) (h : Within m ss) : Within n ss := by
  induction ss generalizing m n with
  | nil => trivial
  | cons s ss ih =>
    obtain ⟨hoffset, hrest⟩ := h
    exact ⟨by omega, ih (by omega) hrest⟩

theorem Sequence.expand_behind {s : Sequence} {out : ByteArray} (far : ByteArray)
    (h : s.offset ≤ out.size + s.literals.size) : s.expand (far ++ out) = far ++ s.expand out := by
  rw [← ByteArray.size_append] at h
  rw [Sequence.expand, Sequence.expand, ByteArray.append_assoc, copyBack_behind far s.length h]

theorem expandAll_behind {ss : List Sequence} {out : ByteArray} (far : ByteArray) (h : Within out.size ss) :
    expandAll (far ++ out) ss = far ++ expandAll out ss := by
  induction ss generalizing out with
  | nil => rfl
  | cons s ss ih =>
    obtain ⟨hoffset, hrest⟩ := h
    rw [← s.size_expand] at hrest
    rw [expandAll_cons, expandAll_cons, s.expand_behind far hoffset, ih hrest]

theorem Parse.expand_behind {p : Parse} {out : ByteArray} (far : ByteArray) (h : Within out.size p.sequences) :
    p.expand (far ++ out) = far ++ p.expand out := by
  rw [Parse.expand, Parse.expand, expandAll_behind far h, ByteArray.append_assoc]

theorem Decoding.Admits.behind {src out : ByteArray} {limit ip : Nat} {p : Parse} (far : ByteArray)
    (h : Admits ⟨src, out.size, limit⟩ ip out p) :
    Admits ⟨src, (far ++ out).size, limit⟩ ip (far ++ out) p := by
  have hroom := h.room
  have hmore : out.size ≤ (far ++ out).size := by
    rw [ByteArray.size_append]
    omega
  exact ⟨h.hasAt, h.ends, h.within.mono hmore, h.sized, h.tail_sized, by simpa using hroom⟩

/-- A block that decodes does so behind more bytes too, and adds the same to them. -/
theorem decompressInto_farther {src out result : ByteArray} {limit n : Nat} (far : ByteArray)
    (h : decompressInto src out limit = (.ok n, result)) :
    decompressInto src (far ++ out) limit = (.ok n, far ++ result) := by
  obtain ⟨hrun, rfl⟩ := decompressInto_eq_ok_iff_run.mp h
  obtain ⟨p, hp, rfl⟩ := (Decoding.run_eq_ok_iff (Nat.le_refl _)).mp hrun
  rw [decompressInto_eq_ok_iff_run, ← p.expand_behind far hp.within]
  refine ⟨Decoding.run_admitted (Nat.le_refl _) (hp.behind far), ?_⟩
  rw [p.size_expand, p.size_expand, Nat.add_sub_cancel_left, Nat.add_sub_cancel_left]

theorem decompressInto_extends (src out : ByteArray) (limit : Nat) :
    ∃ answer more, decompressInto src out limit = (answer, out ++ more) := by
  rcases h : decompressInto src out limit with ⟨e | n, result⟩
  · obtain ⟨_, rfl⟩ := decompressInto_eq_error_iff_run.mp h
    exact ⟨.error e, ByteArray.empty, by rw [ByteArray.append_empty]⟩
  · obtain ⟨more, rfl, _⟩ := decompressInto_ok_le h
    exact ⟨.ok n, more, rfl⟩

theorem decompressInto_of_lastBytes (src : ByteArray) {out : ByteArray} (limit : Nat)
    (hreach : maxDistance ≤ out.size) : ∃ answer more,
      decompressInto src (lastBytes maxDistance out) limit = (answer, lastBytes maxDistance out ++ more) ∧
      decompressInto src out limit = (answer, out ++ more) := by
  obtain ⟨far, hfar⟩ := exists_append_lastBytes maxDistance out
  have hnear : maxDistance ≤ (lastBytes maxDistance out).size := by
    rw [size_lastBytes]
    omega
  obtain ⟨answer, more, hmore⟩ := decompressInto_extends src (lastBytes maxDistance out) limit
  have hlong := @decompressInto_behind src (lastBytes maxDistance out) limit far hnear
  rw [hmore, ← ByteArray.append_assoc, ← hfar] at hlong
  exact ⟨answer, more, hmore, hlong⟩

/-- Of two histories that end in the same bytes, as far back as an offset goes, a block cannot tell which it is
behind. -/
theorem decompressInto_same_end (src : ByteArray) {out out' : ByteArray} (limit : Nat)
    (hsame : lastBytes maxDistance out = lastBytes maxDistance out') :
    ∃ answer more, decompressInto src out limit = (answer, out ++ more) ∧
      decompressInto src out' limit = (answer, out' ++ more) := by
  have hsize := congrArg ByteArray.size hsame
  rw [size_lastBytes, size_lastBytes] at hsize
  by_cases hreach : maxDistance ≤ out.size
  · obtain ⟨answer, more, hnear, hlong⟩ := decompressInto_of_lastBytes src limit hreach
    have hreach' : maxDistance ≤ out'.size := by omega
    obtain ⟨answer', more', hnear', hlong'⟩ := decompressInto_of_lastBytes src limit hreach'
    rw [hsame, hnear', Prod.mk.injEq, ByteArray.append_right_inj] at hnear
    obtain ⟨rfl, rfl⟩ := hnear
    exact ⟨answer', more', hlong, hlong'⟩
  · rw [lastBytes_of_le (by omega), lastBytes_of_le (by omega)] at hsame
    subst hsame
    obtain ⟨answer, more, hmore⟩ := decompressInto_extends src out limit
    exact ⟨answer, more, hmore, hmore⟩

end LempelZiv
