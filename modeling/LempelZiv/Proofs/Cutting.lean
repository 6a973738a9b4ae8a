import LempelZiv.Block.Compress
import LempelZiv.Proofs.ChainSearch
import LempelZiv.Proofs.Covering

namespace LempelZiv

/-- Numbers that no search overflows with, and a window that offsets can reach over. -/
structure SearchParams.Sane (p : SearchParams) : Prop where
  hashLog_pos : 1 ≤ p.hashLog
  hashLog_le : p.hashLog ≤ 32
  windowSize_le : p.windowSize ≤ maxDistance
  skip_lt : ∀ n, p.skipStrength = some n → n < 32
  margin_lt : maxMatchLength + p.lazyMargin < sizeLimit

/-- Where a block of `size` bytes has matches: the source is not its first byte and lies in the window, and
the end of the block is free of them. -/
structure Match.PlacedIn (m : Match) (size window start : Nat) : Prop where
  offset_lt : m.offset < start
  offset_le : m.offset ≤ window
  length_le : m.length ≤ maxMatchLength
  start_le : start + matchMargin ≤ size
  end_le : start + m.length + lastLiterals ≤ size

namespace Factorization

variable {c : Chains} {params : SearchParams} {src : ByteArray}

theorem settle_genuine {pos searchEnd delay : Nat} {found : Match} (hsane : params.Sane)
    (hc : c.Over params src)
    (hpos : pos + delay ≤ searchEnd) (hfound : found.Genuine params src (pos + delay)) :
    ∃ d m c', settle c pos searchEnd delay found = .ok (d, m, c') ∧ c'.Over params src ∧
      pos + d ≤ searchEnd ∧ m.Genuine params src (pos + d) := by
  induction hn : searchEnd - (pos + delay) generalizing c delay found with
  | zero =>
    rw [settle, if_neg (by omega)]
    exact ⟨delay, found, c, rfl, hc, hpos, hfound⟩
  | succ n ih =>
    have hlength : found.length + params.lazyMargin < sizeLimit := by
      have hle := hfound.agree.le
      have hmargin := hsane.margin_lt
      omega
    obtain ⟨next, c', hbetter, hc', hnext⟩ := Chains.better_genuine (pos + delay) hc hlength
    rw [settle, if_pos (by omega), hbetter]
    cases next with
    | none => exact ⟨delay, found, c', rfl, hc', hpos, hfound⟩
    | some m => exact ih hc' (by omega) (hnext m rfl).1 (by omega)

theorem skipped_ok (hsane : params.Sane) (misses : Nat) : ∃ n, skipped params misses = .ok n := by
  rw [skipped]
  cases hs : params.skipStrength with
  | none => exact ⟨0, rfl⟩
  | some strength =>
    have hok :
        (if strength < 32 then .ok (misses >>> strength) else .error .overflow : Except Fault Nat) = _ :=
      if_pos (hsane.skip_lt strength hs)
    exact ⟨_, hok⟩

theorem sequenceAt_placed {anchor start : Nat} {found : Match} (hsane : params.Sane)
    (hfound : found.Genuine params src start) (hstart : start ≤ src.size - matchMargin) :
    ∃ s, sequenceAt src anchor start found = .ok s ∧ s.literals = src.extract anchor start ∧
      s.StandsAt src start ∧ Match.PlacedIn ⟨s.offset, s.length⟩ src.size params.windowSize start := by
  have hlt := hfound.offset_lt
  have hwindow := hsane.windowSize_le
  have hoffset := hfound.offset_le
  have hmin := hfound.minMatch_le
  have hle := hfound.agree.le
  have hmargin : matchMargin = 12 := rfl
  have hlast : lastLiterals = 5 := rfl
  have hfour : minMatch = 4 := rfl
  have hroom : start ≤ src.size - lastLiterals := by omega
  have hlength : minMatch ≤ min found.length (src.size - lastLiterals - start) := by omega
  have hok : sequenceAt src anchor start found = .ok ⟨src.extract anchor start, found.offset,
      min found.length (src.size - lastLiterals - start), hfound.offset_pos, by omega, hlength⟩ := by
    rw [sequenceAt, subSize_eq_ok hroom]
    change (if h : 0 < found.offset ∧ found.offset ≤ maxDistance then _ else _) = _
    rw [dif_pos ⟨hfound.offset_pos, by omega⟩, dif_pos hlength]
    rfl
  refine ⟨_, hok, rfl, ⟨Nat.le_of_lt hlt, ?_, ?_⟩, ⟨hlt, hoffset, ?_, by omega, ?_⟩⟩
  · change start + min found.length (src.size - lastLiterals - start) ≤ src.size
    omega
  · intro i (hi : i < min found.length (src.size - lastLiterals - start))
    exact hfound.agree.equal i (by omega)
  · change min found.length (src.size - lastLiterals - start) ≤ maxMatchLength
    omega
  · change start + min found.length (src.size - lastLiterals - start) + lastLiterals ≤ src.size
    omega

theorem chosen_genuine {pos : Nat} {found : Match} (hsane : params.Sane) (hc : c.Over params src)
    (hpos : pos ≤ src.size - matchMargin) (hfound : found.Genuine params src pos) :
    ∃ d m c',
      (if c.params.lazySearch then settle c pos (src.size - matchMargin) 0 found else .ok (0, found, c)) =
        .ok (d, m, c') ∧ c'.Over params src ∧ pos + d ≤ src.size - matchMargin ∧
        m.Genuine params src (pos + d) := by
  split
  next => exact settle_genuine hsane hc hpos hfound
  next => exact ⟨0, found, c, rfl, hc, hpos, hfound⟩

/-- Going through the input never breaks off, and cuts what is left of it into sequences and a tail. -/
theorem cut_covers {pos anchor misses : Nat} {done : Array Sequence} (hsane : params.Sane)
    (hc : c.Over params src)
    (hanchor : anchor ≤ pos) (hpos : pos ≤ src.size) :
    ∃ ss stop, cut src c pos anchor misses done = .ok ⟨done ++ ss.toArray, dropBytes src stop⟩ ∧
      Covers src (fun start m => m.PlacedIn src.size params.windowSize start) anchor stop ss := by
  -- On what is left of the input: a miss takes at least one byte of it, a match its whole length.
  induction hn : src.size - pos using Nat.strongRecOn generalizing c pos anchor misses done with
  | ind n ih =>
    rw [cut]
    by_cases hgo : pos + minMatch ≤ src.size ∧ pos ≤ src.size - matchMargin
    case neg =>
      rw [dif_neg hgo]
      exact ⟨[], anchor, by simp, .nil (by omega)⟩
    have hmin : minMatch = 4 := rfl
    obtain ⟨found, c₁, hfind, hc₁, hgenuine⟩ := Chains.find_genuine pos hc
    rw [dif_pos hgo, hfind]
    cases found with
    | none =>
      obtain ⟨k, hskip⟩ := skipped_ok hsane (min (misses + 1) 4294967295)
      rw [← hc₁.params_eq] at hskip
      simp only [hskip]
      exact ih _ (by omega) hc₁ (by omega) (Nat.min_le_right _ _) rfl
    | some found =>
      obtain ⟨d, m, c₂, hchosen, hc₂, hstart, hm⟩ := chosen_genuine hsane hc₁ hgo.2 (hgenuine found rfl)
      obtain ⟨s, hs, hliterals, hstands, hplaced⟩ := sequenceAt_placed hsane hm hstart
      have hend := hstands.end_le
      have hlength := s.minMatch_le
      obtain ⟨ss, stop, hcut, hcovers⟩ :=
        @ih (src.size - (pos + d + s.length)) (by omega) c₂ (pos + d + s.length)
        (pos + d + s.length) 0 (done.push s) hc₂ (Nat.le_refl _) hend rfl
      refine ⟨s :: ss, stop, ?_, .cons (by omega) hliterals hstands hplaced hcovers⟩
      simp only [hchosen]
      rw [hs]
      change cut src c₂ (pos + d + s.length) (pos + d + s.length) 0 (done.push s) = _
      rw [hcut]
      simp

end Factorization

theorem factorize_covers {params : SearchParams} {src : ByteArray} (hsane : params.Sane)
    (hsize : src.size < 2 ^ 32) :
    ∃ f stop, factorize params src = .ok f ∧ f.tail = dropBytes src stop ∧
      Covers src (fun start m => m.PlacedIn src.size params.windowSize start) 0 stop
        f.sequences.toList := by
  obtain ⟨c, hempty, hc⟩ := Chains.empty_fits hsane.hashLog_pos hsane.hashLog_le
  obtain ⟨c', hreset, hc', _⟩ := Chains.reset_over hc hsize
  obtain ⟨ss, stop, hcut, hcovers⟩ :=
    @Factorization.cut_covers c' params src 0 0 0 #[] hsane hc' (Nat.le_refl _)
    (Nat.zero_le _)
  refine ⟨⟨#[] ++ ss.toArray, dropBytes src stop⟩, stop, ?_, rfl, by simpa using hcovers⟩
  rw [factorize, hempty]
  change (c.reset src >>= fun c => Factorization.cut src c 0 0 0 #[]) = _
  rw [hreset]
  exact hcut

namespace Level

theorem fast_sane {attempts window log skip : Nat} (hlog : 1 ≤ log ∧ log ≤ 32)
    (hwindow : window ≤ maxDistance)
    (hskip : skip < 32) : (fast attempts window log skip).Sane :=
  ⟨hlog.1, hlog.2, hwindow, fun n hn => by cases hn; exact hskip,
    (by decide : maxMatchLength + 1 < sizeLimit)⟩

theorem chained_sane {attempts log : Nat} (hlog : 1 ≤ log ∧ log ≤ 32) : (chained attempts log).Sane :=
  ⟨hlog.1, hlog.2, (by decide : 32768 ≤ maxDistance), fun n hn => (nomatch hn),
    (by decide : maxMatchLength + 1 < sizeLimit)⟩

theorem deep_sane {attempts log : Nat} (hlog : 1 ≤ log ∧ log ≤ 32) : (deep attempts log).Sane :=
  ⟨hlog.1, hlog.2, Nat.le_refl maxDistance, fun n hn => (nomatch hn),
    (by decide : maxMatchLength + 0 < sizeLimit)⟩

theorem improvedParams_sane (l : Level) : l.improvedParams.Sane := by
  rw [improvedParams]
  split
  next => exact fast_sane (by decide) (by decide) (by decide)
  next => exact fast_sane (by decide) (by decide) (by decide)
  next => exact fast_sane (by decide) (by decide) (by decide)
  next => exact chained_sane (by decide)
  next => exact chained_sane (by decide)
  next => exact chained_sane (by decide)
  next => exact deep_sane (by decide)
  next => exact deep_sane (by decide)
  next => exact deep_sane (by decide)
  next => exact deep_sane (by decide)
  next => exact deep_sane (by decide)
  next => exact deep_sane (by decide)

theorem params_sane (l : Level) (v : Variant) : (l.params v).Sane := by
  have h := l.improvedParams_sane
  cases v with
  | baseline => exact ⟨h.hashLog_pos, h.hashLog_le, h.windowSize_le, h.skip_lt, h.margin_lt⟩
  | improved => exact h

end Level

end LempelZiv
