import LempelZiv.Search.Chains
import LempelZiv.Proofs.Checked
import LempelZiv.Proofs.CommonPrefix

namespace LempelZiv

/-- A match at `pos` that stands in the input: its source lies before `pos` but not at position 0, inside
the window, and its length is the number of equal bytes up to the cap. -/
structure Match.Genuine (m : Match) (params : SearchParams) (input : ByteArray) (pos : Nat) : Prop where
  offset_pos : 0 < m.offset
  offset_lt : m.offset < pos
  offset_le : m.offset ≤ params.windowSize
  minMatch_le : minMatch ≤ m.length
  agree : AgreeFor input (pos - m.offset) pos (min (input.size - pos) maxMatchLength) m.length

namespace Chains

/-- The tables serve a search over `input`: every entry is a position that has a link. -/
structure Over (c : Chains) (params : SearchParams) (input : ByteArray) : Prop where
  params_eq : c.params = params
  input_eq : c.input = input
  hashLog_pos : 1 ≤ params.hashLog
  hashLog_le : params.hashLog ≤ 32
  heads_size : c.heads.size = 1 <<< params.hashLog
  links_size : input.size ≤ c.links.size
  heads_fit : ∀ p ∈ c.heads, 0 < p → p < c.links.size
  links_fit : ∀ p ∈ c.links, p < c.links.size

variable {c : Chains} {params : SearchParams} {input : ByteArray}

theorem empty_fits (hpos : 1 ≤ params.hashLog) (hle : params.hashLog ≤ 32) :
    ∃ c, empty params = .ok c ∧ c.Over params ByteArray.empty := by
  rw [empty, if_pos hle]
  refine ⟨_, rfl, rfl, rfl, hpos, hle, Array.size_replicate, Nat.zero_le _, ?_, ?_⟩
  · intro p hp h
    rw [(Array.mem_replicate.mp hp).2] at h
    exact absurd h (Nat.lt_irrefl 0)
  · intro p hp
    exact absurd hp (Array.not_mem_empty p)

/-- Whatever stood in the tables, they serve the new input. -/
theorem reset_over {before : ByteArray} (hc : c.Over params before) (hsize : input.size < 2 ^ 32) :
    ∃ c', c.reset input = .ok c' ∧ c'.Over params input ∧ c'.next = 0 := by
  have hlt : input.size < 4294967296 := hsize
  rw [reset, if_pos hlt]
  refine ⟨_, rfl, ⟨hc.params_eq, rfl, hc.hashLog_pos, hc.hashLog_le, ?_, ?_, ?_, ?_⟩, rfl⟩
  · rw [Array.size_replicate, hc.heads_size]
  · rw [Array.size_append, Array.size_replicate]
    omega
  · intro p hp h
    rw [(Array.mem_replicate.mp hp).2] at h
    exact absurd h (Nat.lt_irrefl 0)
  · intro p hp
    rw [Array.size_append, Array.size_replicate]
    rcases Array.mem_append.mp hp with hp | hp
    · have := hc.links_fit p hp
      omega
    · obtain ⟨hne, rfl⟩ := Array.mem_replicate.mp hp
      omega

theorem highBits_ok (product : UInt32) {log : Nat} (hpos : 1 ≤ log) (hle : log ≤ 32) :
    ∃ h, highBits product log = .ok h ∧ h < 1 <<< log := by
  have hok : highBits product log = .ok _ := if_pos ⟨hpos, hle⟩
  exact ⟨_, hok, highBits_lt hok⟩

theorem hash_ok {pos : Nat} (hc : c.Over params input) (hpos : c.hashable pos = true) :
    pos < input.size ∧ ∃ h, c.hash pos = .ok h ∧ h < c.heads.size := by
  rw [hashable, remaining, hc.input_eq, SearchParams.hashWidth, decide_eq_true_eq] at hpos
  rw [hash, hc.heads_size, hc.input_eq]
  split
  next hfive =>
    rw [if_pos hfive] at hpos
    rw [hash5, dif_pos (by omega), hc.params_eq]
    exact ⟨by omega, highBits_ok _ hc.hashLog_pos hc.hashLog_le⟩
  next hfour =>
    rw [if_neg hfour] at hpos
    rw [hash4, dif_pos (by omega), hc.params_eq]
    exact ⟨by omega, highBits_ok _ hc.hashLog_pos hc.hashLog_le⟩

theorem link_over {pos h : Nat} (hc : c.Over params input) (hh : h < c.heads.size)
    (hp : pos < c.links.size) :
    ∃ c', c.link pos h = .ok c' ∧ c'.Over params input := by
  obtain ⟨params', input', heads, links, next⟩ := c
  have hok : link ⟨params', input', heads, links, next⟩ pos h = .ok _ := dif_pos ⟨hh, hp⟩
  have hhead : heads[h] < links.size := by
    rcases Nat.eq_zero_or_pos heads[h] with hz | hpos
    · rw [hz]
      exact Nat.lt_of_le_of_lt (Nat.zero_le pos) hp
    · exact hc.heads_fit _ (Array.getElem_mem hh) hpos
  refine ⟨_, hok, hc.params_eq, hc.input_eq, hc.hashLog_pos, hc.hashLog_le, ?_, ?_, ?_, ?_⟩
  · exact (Array.size_set hh).trans hc.heads_size
  · rw [Array.size_set]
    exact hc.links_size
  · intro p (hmem : p ∈ heads.set h pos hh) hpos
    rw [Array.size_set]
    rcases Array.mem_or_eq_of_mem_set hmem with hmem | rfl
    · exact hc.heads_fit p hmem hpos
    · exact hp
  · intro p (hmem : p ∈ links.set pos heads[h] hp)
    rw [Array.size_set]
    rcases Array.mem_or_eq_of_mem_set hmem with hmem | rfl
    · exact hc.links_fit p hmem
    · exact hhead

theorem insert_over (pos : Nat) (hc : c.Over params input) :
    ∃ c', c.insert pos = .ok c' ∧ c'.Over params input := by
  rw [insert]
  by_cases hpos : c.hashable pos = true
  · obtain ⟨hlt, h, hash, hh⟩ := hash_ok hc hpos
    rw [if_pos hpos, hash]
    exact link_over hc hh (Nat.lt_of_lt_of_le hlt hc.links_size)
  · rw [if_neg hpos]
    exact ⟨c, rfl, hc⟩

theorem Over.next (hc : c.Over params input) (next : Nat) : ({ c with next } : Chains).Over params input :=
  ⟨hc.params_eq, hc.input_eq, hc.hashLog_pos, hc.hashLog_le, hc.heads_size, hc.links_size,
    hc.heads_fit, hc.links_fit⟩

theorem insertNext_over (n : Nat) (hc : c.Over params input) :
    ∃ c', insertNext n c = .ok c' ∧ c'.Over params input := by
  induction n generalizing c with
  | zero => exact ⟨c, rfl, hc⟩
  | succ n ih =>
    obtain ⟨c', hok, hc'⟩ := insert_over c.next hc
    rw [insertNext, hok]
    exact ih (hc'.next (c'.next + 1))

theorem catchUp_over (pos : Nat) (hc : c.Over params input) :
    ∃ c', c.catchUp pos = .ok c' ∧ c'.Over params input := by
  rw [catchUp]
  split
  next => exact insertNext_over _ hc
  next =>
    refine ⟨_, rfl, ?_⟩
    split
    next => exact hc.next pos
    next => exact hc

theorem newest_ok (pos : Nat) (hc : c.Over params input) :
    ∃ head, c.newest pos = .ok head ∧ ∀ p, head = some p → 0 < p ∧ p < c.links.size := by
  rw [newest]
  by_cases hpos : c.hashable pos = true
  · obtain ⟨_, h, hash, hh⟩ := hash_ok hc hpos
    rw [if_pos hpos, hash]
    simp only [dif_pos hh]
    refine ⟨_, rfl, ?_⟩
    intro p hp
    split at hp
    next => cases hp
    next hne =>
      cases hp
      have hpos : 0 < c.heads[h] := Nat.pos_of_ne_zero hne
      exact ⟨hpos, hc.heads_fit _ (Array.getElem_mem hh) hpos⟩
  · rw [if_neg hpos]
    exact ⟨none, rfl, fun p hp => (nomatch hp)⟩

/-- The walk is one that a search over `input` makes. -/
structure Walk.Over (w : Walk) (params : SearchParams) (input : ByteArray) : Prop where
  floor_eq : w.floor = w.pos - params.windowSize
  limit_eq : w.limit = min (input.size - w.pos) maxMatchLength
  goodEnough_le : w.goodEnough ≤ w.limit

theorem Walk.Over.genuine {w : Walk} {candidate n : Nat} (hw : w.Over params input)
    (hgo : ¬(candidate = 0 ∨ candidate < w.floor)) (hback : candidate < w.pos) (hmin : minMatch ≤ n)
    (hagree : AgreeFor input candidate w.pos w.limit n) :
    ∀ m, some (⟨w.pos - candidate, n⟩ : Match) = some m → m.Genuine params input w.pos := by
  intro m hm
  cases hm
  have hfloor := hw.floor_eq
  rw [hw.limit_eq] at hagree
  refine ⟨Nat.sub_pos_of_lt hback, (by omega : w.pos - candidate < w.pos),
    (by omega : w.pos - candidate ≤ params.windowSize), hmin, ?_⟩
  rwa [Nat.sub_sub_self (Nat.le_of_lt hback)]

theorem walk_genuine {w : Walk} {attempts candidate bestLength : Nat} {best : Option Match}
    (hc : c.Over params input) (hw : w.Over params input) (hcandidate : candidate < c.links.size)
    (hmin : minMatch ≤ bestLength + 1) (hroom : bestLength < w.limit)
    (hbest : ∀ m, best = some m → m.Genuine params input w.pos) :
    ∃ found, c.walk w attempts candidate bestLength best = .ok found ∧
      ∀ m, found = some m → m.Genuine params input w.pos := by
  have hlinks : ∀ i (h : i < c.links.size), c.links[i] < c.links.size := fun i h =>
    hc.links_fit _ (Array.getElem_mem h)
  have hlimit : w.limit ≤ input.size - w.pos := by
    rw [hw.limit_eq]
    exact Nat.min_le_left _ _
  induction attempts generalizing candidate bestLength best with
  | zero => exact ⟨best, rfl, hbest⟩
  | succ attempts ih =>
    rw [walk]
    by_cases hstop : candidate = 0 ∨ candidate < w.floor
    · rw [if_pos hstop]
      exact ⟨best, rfl, hbest⟩
    rw [if_neg hstop, dif_pos hcandidate]
    by_cases hback : candidate < w.pos
    case neg =>
      rw [dif_neg hback]
      exact ih (hlinks _ _) hmin hroom hbest
    -- The byte compared first is in the input since the best length is below the limit.
    have hread : w.pos + bestLength < c.input.size := by
      rw [hc.input_eq]
      omega
    rw [dif_pos hback, dif_pos hread]
    split
    case isFalse => exact ih (hlinks _ _) hmin hroom hbest
    obtain ⟨n, hcommon, hagree⟩ :=
      commonPrefix_agreeFor hback (by rw [hc.input_eq]; omega : w.pos + w.limit ≤ c.input.size)
    rw [hc.input_eq] at hagree
    simp only [hcommon]
    by_cases hlonger : bestLength < n
    case neg =>
      rw [if_neg hlonger]
      exact ih (hlinks _ _) hmin hroom hbest
    have hfound := hw.genuine hstop hback (by omega : minMatch ≤ n) hagree
    have henough := hw.goodEnough_le
    rw [if_pos hlonger]
    split
    next => exact ⟨_, rfl, hfound⟩
    next => exact ih (hlinks _ _) (by omega) (by omega) hfound

theorem search_genuine {pos : Nat} (hc : c.Over params input) (hroom : minMatch ≤ input.size - pos) :
    ∃ found, c.search pos = .ok found ∧ ∀ m, found = some m → m.Genuine params input pos := by
  obtain ⟨head, hhead, hfits⟩ := newest_ok pos hc
  rw [search, hhead]
  cases head with
  | none => exact ⟨none, rfl, fun m hm => (nomatch hm)⟩
  | some p =>
    have hw : Walk.Over ⟨pos, pos - c.params.windowSize, min (c.remaining pos) maxMatchLength,
        min c.params.goodEnough (min (c.remaining pos) maxMatchLength)⟩ params input := by
      refine ⟨?_, ?_, Nat.min_le_right _ _⟩
      · rw [hc.params_eq]
      · rw [remaining, hc.input_eq]
    have hleast : minMatch - 1 < min (c.remaining pos) maxMatchLength := by
      have hfour : minMatch = 4 := rfl
      have hmost : maxMatchLength = 65535 := rfl
      rw [remaining, hc.input_eq]
      omega
    exact walk_genuine hc hw (hfits p rfl).2 (by decide) hleast (fun m hm => (nomatch hm))

/-- A search never breaks off, whatever was searched before, and what it finds stands in the input. -/
theorem find_genuine (pos : Nat) (hc : c.Over params input) :
    ∃ found c', c.find pos = .ok (found, c') ∧ c'.Over params input ∧
      ∀ m, found = some m → m.Genuine params input pos := by
  rw [find, remaining, hc.input_eq]
  split
  next => exact ⟨none, c, rfl, hc, fun m hm => (nomatch hm)⟩
  next hroom =>
    obtain ⟨c₁, hcatch, hc₁⟩ := catchUp_over pos hc
    obtain ⟨found, hsearch, hgenuine⟩ := search_genuine hc₁ (Nat.le_of_not_lt hroom)
    obtain ⟨c₂, hinsert, hc₂⟩ := insertNext_over (pos + 1 - c₁.next) hc₁
    refine ⟨found, c₂, ?_, hc₂, hgenuine⟩
    rw [hcatch]
    change (c₁.search pos >>= fun found => c₁.insertUpTo (pos + 1) >>= fun c => .ok (found, c)) = _
    rw [hsearch]
    change (c₁.insertUpTo (pos + 1) >>= fun c => .ok (found, c)) = _
    rw [insertUpTo, hinsert]
    rfl

theorem better_genuine {length : Nat} (pos : Nat) (hc : c.Over params input)
    (hlength : length + params.lazyMargin < sizeLimit) :
    ∃ next c', c.better pos length = .ok (next, c') ∧ c'.Over params input ∧
      ∀ m, next = some m → m.Genuine params input (pos + 1) ∧ length + params.lazyMargin < m.length := by
  rw [better, remaining, hc.params_eq, hc.input_eq]
  split
  next => exact ⟨none, c, rfl, hc, fun m hm => (nomatch hm)⟩
  next =>
    obtain ⟨found, c', hfind, hc', hgenuine⟩ := find_genuine (pos + 1) hc
    rw [hfind]
    cases found with
    | none => exact ⟨none, c', rfl, hc', fun m hm => (nomatch hm)⟩
    | some m =>
      have hbar : addSize length params.lazyMargin = .ok (length + params.lazyMargin) :=
        addSize_eq_ok hlength
      refine ⟨if length + params.lazyMargin < m.length then some m else none, c', ?_, hc', ?_⟩
      · change (addSize length c'.params.lazyMargin >>= fun bar =>
          .ok (if bar < m.length then some m else none, c')) = _
        rw [hc'.params_eq, hbar]
        rfl
      · intro m' hm
        split at hm
        next hlonger =>
          cases hm
          exact ⟨hgenuine m rfl, hlonger⟩
        next => cases hm

end Chains

end LempelZiv
