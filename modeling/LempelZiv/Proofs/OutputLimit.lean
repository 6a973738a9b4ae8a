import LempelZiv.Proofs.BufferGrowth

namespace LempelZiv

namespace Decoding

variable {src out : ByteArray} {start limit m ip token n used offset : Nat}

theorem reserve_eq (d : Decoding) (out : ByteArray) (n : Nat) :
    d.reserve out n = if out.size - d.start + n ≤ d.limit then .ok () else .error (.capacity d.limit) := rfl

/-- Under another limit only the room for the literals is another. -/
theorem literals_limit (m : Nat) (h : literals ⟨src, start, limit⟩ out ip token = .ok (n, used)) :
    literals ⟨src, start, m⟩ out ip token = (reserve ⟨src, start, m⟩ out n).map fun _ => (n, used) := by
  unfold literals at h ⊢
  simp only [bind_eq_ok_iff, check_eq_ok_iff, pure_eq_ok_iff, Prod.exists, Prod.mk.injEq] at h
  obtain ⟨_, _, htoken, hend, _, _, rfl, rfl⟩ := h
  simp only [htoken]
  change (if _ then _ else _) = _
  rw [if_neg hend]
  rfl

theorem backReference_limit (m : Nat) (h : backReference ⟨src, start, limit⟩ out ip token = .ok (offset, n, used)) :
    backReference ⟨src, start, m⟩ out ip token =
      (reserve ⟨src, start, m⟩ out n).map fun _ => (offset, n, used) := by
  unfold backReference at h ⊢
  simp only [bind_eq_ok_iff, check_eq_ok_iff, pure_eq_ok_iff, lift_eq_ok_iff, Prod.exists, Prod.mk.injEq] at h
  obtain ⟨hip, hoffset, _, _, htoken, _, hadd, _, _, rfl, rfl, rfl⟩ := h
  simp only [if_neg hip, if_neg hoffset, htoken]
  change (liftM (addSize _ minMatch) : Except Error Nat) >>= _ = _
  rw [hadd]
  rfl

theorem Admits.with_limit {p : Parse} (h : Admits ⟨src, start, limit⟩ ip out p)
    (hroom : out.size - start + p.expandedSize ≤ m) : Admits ⟨src, start, m⟩ ip out p :=
  ⟨h.hasAt, h.ends, h.within, h.sized, h.tail_sized, hroom⟩

/-- A block that is longer than the limit is given up where the room ends, and for no other reason. -/
theorem run_starved {p : Parse} (hstart : start ≤ out.size) (h : Admits ⟨src, start, limit⟩ ip out p)
    (hm : m < out.size - start + p.expandedSize) : (run ⟨src, start, m⟩ ip out).1 = .error (.capacity m) := by
  induction p generalizing ip out with
  | last tail spare hspare =>
    obtain ⟨hip, _, hl, _⟩ := (admits_last_iff hspare).mp h
    have hsize := Parse.expandedSize_last tail hspare
    have hfull : ¬out.size - start + tail.size ≤ m := by omega
    rw [byteAt_of_lt hip] at hl
    rw [run, dif_pos hip]
    simp only [literals_limit m hl, reserve_eq, if_neg hfull, Except.map]
  | cons s p ih =>
    obtain ⟨hip, hl, hat, hb, hrest⟩ := (admits_cons_iff hstart).mp h
    have hsize := p.expandedSize_cons s
    have hexpand := s.size_expand out
    have happend : (out ++ s.literals).size = out.size + s.literals.size := ByteArray.size_append
    rw [byteAt_of_lt hip] at hl hb
    rw [run, dif_pos hip]
    by_cases hliterals : out.size - start + s.literals.size ≤ m
    case neg => simp only [literals_limit m hl, reserve_eq, if_neg hliterals, Except.map]
    have hoffset : ip + 1 + (extension s.literals.size).size + s.literals.size + 2 ≤ src.size := by
      simpa only [size_leBytes] using (backReference_eq_ok_iff.mp hb).1.1.le
    simp only [literals_limit m hl, reserve_eq, if_pos hliterals, Except.map, hat.eq]
    rw [if_neg (by omega)]
    by_cases hmatch : (out ++ s.literals).size - start + s.length ≤ m
    case neg => simp only [backReference_limit m hb, reserve_eq, if_neg hmatch, Except.map]
    simp only [backReference_limit m hb, reserve_eq, if_pos hmatch, Except.map]
    have hnext : ip + s.bytes.size = ip + 1 + (extension s.literals.size).size + s.literals.size + 2 +
        (extension (s.length - minMatch)).size := by
      rw [s.size_bytes]
      omega
    rw [hnext] at hrest
    have hlater := ih (by omega) hrest (by omega)
    exact hlater

end Decoding

/-- A block that decodes to `n` bytes decodes to them under each limit from `n` on. Under a lower one it fails for
want of room, and for nothing else. How the buffer grows has no part in it. -/
theorem decompressInto_limit_exact {src out result : ByteArray} {limit n : Nat}
    (h : decompressInto src out limit = (.ok n, result)) :
    (∀ m, n ≤ m → decompressInto src out m = (.ok n, result)) ∧
    (∀ m, m < n → decompressInto src out m = (.error (.capacity m), out)) ∧
    ∀ (a : Allocator) (capacity m : Nat) (hm : m < sizeLimit), src.size < 2 ^ 48 → out.size ≤ 2 ^ 62 →
      out.size ≤ capacity → ∃ capacity', decompressGrowing a src out capacity m hm =
        ((decompressInto src out m).1, (decompressInto src out m).2, capacity') := by
  obtain ⟨hrun, rfl⟩ := decompressInto_eq_ok_iff_run.mp h
  obtain ⟨p, hp, rfl⟩ := (Decoding.run_eq_ok_iff (Nat.le_refl _)).mp hrun
  have hsize : (p.expand out).size - out.size = p.expandedSize := by rw [p.size_expand, Nat.add_sub_cancel_left]
  rw [hsize]
  refine ⟨?_, ?_, ?_⟩
  · intro m hm
    rw [decompressInto_eq_ok_iff_run, hsize]
    exact ⟨Decoding.run_admitted (Nat.le_refl _) (hp.with_limit (by omega)), rfl⟩
  · intro m hm
    have hstarved := Decoding.run_starved (m := m) (Nat.le_refl _) hp (by omega)
    rw [decompressInto_eq_error_iff_run]
    split
    next hempty =>
      rw [decompressInto, if_pos hempty] at h
      cases h
    next => exact ⟨hstarved, rfl⟩
  · intro a capacity m hm hsrc hout hheld
    obtain ⟨capacity', hgrown, _⟩ := decompressGrowing_eq hm hsrc hout hheld
    exact ⟨capacity', hgrown⟩

/-- One literal, repeated six times. -/
theorem decompressInto_limit_exact_of_seven_bytes :
    let src : ByteArray := ⟨#[0x12, 97, 1, 0, 0]⟩
    let out : ByteArray := ⟨#[9]⟩
    let result : ByteArray := ⟨#[9, 97, 97, 97, 97, 97, 97, 97]⟩
    let exact : Allocator := ⟨id, Nat.le_refl⟩
    decompressInto src out 64 = (.ok 7, result) ∧ decompressInto src out 7 = (.ok 7, result) ∧
      decompressInto src out 6 = (.error (.capacity 6), out) ∧
      decompressInto src out 0 = (.error (.capacity 0), out) ∧
      ∃ capacity, decompressGrowing exact src out 1 6 (by decide) = (.error (.capacity 6), out, capacity) := by
  intro src out result exact
  let p : Parse := ⟨[⟨⟨#[97]⟩, 1, 6, by decide, by decide, by decide⟩], ByteArray.empty, 0, by decide⟩
  have hwritten : p.bytes = src := by rfl
  have hexpand : p.expand out = result := by rfl
  have h : decompressInto src out 64 = (.ok 7, result) := by
    rw [← hwritten, ← hexpand]
    exact decompressInto_of_parse (by decide) (by decide) (by decide) (by decide)
  obtain ⟨hfrom, hbelow, hgrowing⟩ := decompressInto_limit_exact h
  have hsix := hbelow 6 (by decide)
  obtain ⟨capacity, hgrown⟩ := hgrowing exact 1 6 (by decide) (by decide) (by decide) (by decide)
  rw [hsix] at hgrown
  exact ⟨h, hfrom 7 (by decide), hsix, hbelow 0 (by decide), capacity, hgrown⟩

end LempelZiv
