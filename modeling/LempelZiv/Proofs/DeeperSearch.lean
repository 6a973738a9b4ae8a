import LempelZiv.Level
import LempelZiv.Proofs.SearchSessions

namespace LempelZiv

/-- The second search tries as many candidates or more, and tells hashes of four bytes apart as well or better. -/
structure SearchParams.Deepens (shallow deep : SearchParams) : Prop where
  attempts_le : shallow.maxAttempts ≤ deep.maxAttempts
  hashLog_le : shallow.hashLog ≤ deep.hashLog
  hashLog_eq : shallow.hashesFive = true → deep.hashLog = shallow.hashLog
  rest_eq : deep = { shallow with maxAttempts := deep.maxAttempts, hashLog := deep.hashLog }
  covered : shallow.insertCovered = true
  hashLog_pos : 1 ≤ shallow.hashLog
  hashLog_fits : deep.hashLog ≤ 32

/-- Where the first search finds a match, the second finds one that is at least as long. -/
def AsLong (found found' : Option Match) : Prop := ∀ m ∈ found, ∃ m' ∈ found', m.length ≤ m'.length

variable {shallow deep params : SearchParams} {input : ByteArray} {pos goodEnough : Nat} {best : Option Match}
  {searched : List Nat}

/-- The position repeats enough of the bytes at `pos` for a match. -/
def repeatsAt (input : ByteArray) (pos q : Nat) : Bool := minMatch ≤ repeatLength input q pos

/-- Candidates that repeat too little leave no trace in a scan. -/
theorem scan_filter (qs : List Nat) :
    scan input pos goodEnough (qs.filter (repeatsAt input pos)) best = scan input pos goodEnough qs best := by
  induction qs generalizing best with
  | nil => rfl
  | cons q qs ih =>
    by_cases hrepeats : repeatsAt input pos q = true
    · rw [List.filter_cons_of_pos hrepeats]
      simp only [scan, ih]
    · have hshort : ¬minMatch ≤ repeatLength input q pos := fun h => hrepeats (decide_eq_true h)
      rw [List.filter_cons_of_neg hrepeats, ih]
      simp [scan, hshort]

theorem AsLong.refl (found : Option Match) : AsLong found found := fun m hm => ⟨m, hm, Nat.le_refl _⟩

theorem AsLong.trans {found found' found'' : Option Match} (h : AsLong found found') (h' : AsLong found' found'') :
    AsLong found found'' := by
  intro m hm
  obtain ⟨m', hm', hle⟩ := h m hm
  obtain ⟨m'', hm'', hle'⟩ := h' m' hm'
  exact ⟨m'', hm'', Nat.le_trans hle hle'⟩

/-- A scan never gives up a match for a shorter one. -/
theorem asLong_scan (qs : List Nat) (best : Option Match) : AsLong best (scan input pos goodEnough qs best) := by
  induction qs generalizing best with
  | nil => exact .refl best
  | cons q qs ih =>
    unfold scan
    simp only
    split
    next haccept =>
      have hlonger : AsLong best (some ⟨pos - q, repeatLength input q pos⟩) :=
        fun m hm => ⟨_, rfl, Nat.le_of_lt (haccept.2 m hm)⟩
      split
      next => exact hlonger
      next => exact hlonger.trans (ih _)
    next => exact ih best

theorem scan_append (qs more : List Nat) :
    AsLong (scan input pos goodEnough qs best) (scan input pos goodEnough (qs ++ more) best) := by
  induction qs generalizing best with
  | nil => exact asLong_scan more best
  | cons q qs ih =>
    simp only [List.cons_append, scan]
    split
    next =>
      split
      next => exact .refl _
      next => exact ih
    next => exact ih

/-- What is kept of a part of the list comes first in what is kept of a larger part, also if others than those
kept were left out before. -/
theorem filter_take_prefix {kept held : Nat → Bool} {qs : List Nat} {m n : Nat} (hle : m ≤ n)
    (hheld : ∀ q ∈ qs, kept q = true → held q = true) :
    (qs.take m).filter kept <+: ((qs.filter held).take n).filter kept := by
  induction qs generalizing m n with
  | nil => simp
  | cons q qs ih =>
    have hrest : ∀ q ∈ qs, kept q = true → held q = true := fun q hq => hheld q (List.mem_cons_of_mem _ hq)
    cases m with
    | zero => exact List.nil_prefix
    | succ m =>
      by_cases hq : held q = true
      · obtain ⟨n, rfl⟩ : ∃ k, n = k + 1 := ⟨n - 1, by omega⟩
        have hprefix := ih (Nat.le_of_succ_le_succ hle) hrest
        simp only [List.filter_cons_of_pos hq, List.take_succ_cons, List.filter_cons]
        split
        next => exact List.cons_prefix_cons.mpr ⟨rfl, hprefix⟩
        next => exact hprefix
      · have hnot : ¬kept q = true := fun h => hq (hheld q List.mem_cons_self h)
        rw [List.take_succ_cons, List.filter_cons_of_neg hnot, List.filter_cons_of_neg hq]
        exact ih (by omega) hrest

theorem highBits_eq_div {word : UInt32} {log : Nat} (hpos : 1 ≤ log) (hle : log ≤ 32) :
    highBits word log = .ok (word.toNat / 2 ^ (32 - log)) := by
  have hshift : (32 - log).toUInt32.toNat = 32 - log :=
    UInt32.toNat_ofNat_of_lt' (by simp [UInt32.size]; omega)
  rw [highBits, if_pos ⟨hpos, hle⟩, UInt32.toNat_shiftRight, hshift, Nat.mod_eq_of_lt (by omega),
    Nat.shiftRight_eq_div_pow]

/-- Words that agree in some high bits agree in fewer. -/
theorem high_eq_of_le {a b log log' : Nat} (hle : log ≤ log') (hfits : log' ≤ 32)
    (h : a / 2 ^ (32 - log') = b / 2 ^ (32 - log')) : a / 2 ^ (32 - log) = b / 2 ^ (32 - log) := by
  have hexp : 32 - log = 32 - log' + (log' - log) := by omega
  rw [hexp, Nat.pow_add, ← Nat.div_div_eq_div_mul, ← Nat.div_div_eq_div_mul, h]

theorem hashOf_four (hfour : params.hashesFive = false) (hpos : 1 ≤ params.hashLog) (hle : params.hashLog ≤ 32) :
    hashOf params input pos = if h : pos + 3 < input.size then
      some ((wordAt input pos h * hashPrime).toNat / 2 ^ (32 - params.hashLog)) else none := by
  unfold hashOf hash4
  rw [if_neg (by simp [hfour])]
  split
  next => simp [highBits_eq_div hpos hle, Except.toOption]
  next => rfl

namespace SearchParams.Deepens

variable {q : Nat} {entered : List Nat}

theorem hashesFive_eq (h : shallow.Deepens deep) : deep.hashesFive = shallow.hashesFive := by
  rw [h.rest_eq]

theorem windowSize_eq (h : shallow.Deepens deep) : deep.windowSize = shallow.windowSize := by
  rw [h.rest_eq]

theorem goodEnough_eq (h : shallow.Deepens deep) : deep.goodEnough = shallow.goodEnough := by
  rw [h.rest_eq]

theorem insertCovered_eq (h : shallow.Deepens deep) : deep.insertCovered = shallow.insertCovered := by
  rw [h.rest_eq]

theorem hashOf_five_eq (h : shallow.Deepens deep) (hfive : shallow.hashesFive = true) :
    hashOf deep input pos = hashOf shallow input pos := by
  unfold hashOf
  rw [h.hashesFive_eq, h.hashLog_eq hfive]

theorem hashOf_eq_none_iff (h : shallow.Deepens deep) :
    hashOf deep input pos = none ↔ hashOf shallow input pos = none := by
  have hlow := h.hashLog_pos
  have hle := h.hashLog_le
  have hhigh := h.hashLog_fits
  cases hfive : shallow.hashesFive with
  | true => rw [h.hashOf_five_eq hfive]
  | false =>
    rw [hashOf_four (h.hashesFive_eq.trans hfive) (by omega) hhigh, hashOf_four hfive hlow (by omega)]
    split <;> simp

/-- What the finer hash does not tell apart the coarser does not, either. -/
theorem hashOf_coarser (h : shallow.Deepens deep) (hsame : hashOf deep input q = hashOf deep input pos) :
    hashOf shallow input q = hashOf shallow input pos := by
  have hlow := h.hashLog_pos
  have hle := h.hashLog_le
  have hhigh := h.hashLog_fits
  cases hfive : shallow.hashesFive with
  | true => rwa [← h.hashOf_five_eq hfive, ← h.hashOf_five_eq hfive]
  | false =>
    have hfive' : deep.hashesFive = false := h.hashesFive_eq.trans hfive
    rw [hashOf_four hfive' (by omega) hhigh, hashOf_four hfive' (by omega) hhigh] at hsame
    rw [hashOf_four hfive hlow (by omega), hashOf_four hfive hlow (by omega)]
    split at hsame
    next hq =>
      split at hsame
      next hp => rw [dif_pos hq, dif_pos hp, high_eq_of_le hle hhigh (Option.some.inj hsame)]
      next => cases hsame
    next hq =>
      split at hsame
      next => cases hsame
      next hp => rw [dif_neg hq, dif_neg hp]

/-- The candidates of the finer hash are some of those of the coarser. -/
theorem candidates_eq (h : shallow.Deepens deep) : candidates deep input entered pos =
    (candidates shallow input entered pos).filter fun q => hashOf deep input q = hashOf deep input pos := by
  unfold candidates
  cases hdeep : hashOf deep input pos with
  | none =>
    rw [h.hashOf_eq_none_iff.mp hdeep]
    rfl
  | some k =>
    obtain ⟨j, hj⟩ : ∃ j, hashOf shallow input pos = some j := by
      refine Option.ne_none_iff_exists'.mp fun hnone => ?_
      rw [h.hashOf_eq_none_iff.mpr hnone] at hdeep
      cases hdeep
    have hcoarser : ∀ q, hashOf deep input q = some k → hashOf shallow input q = some j := by
      intro q hq
      rw [← hj]
      exact h.hashOf_coarser (hq.trans hdeep.symm)
    rw [hj, h.windowSize_eq]
    simp only [inWindow, bucket, List.filter_filter]
    refine List.filter_congr fun q _ => ?_
    by_cases hq : hashOf deep input q = some k
    · simp [hq, hcoarser q hq]
    · simp [hq]

/-- No candidate that repeats enough is lost to the finer hash. -/
theorem same_hash_of_repeats (h : shallow.Deepens deep) (hq : q ∈ candidates shallow input entered pos)
    (hrepeats : repeatsAt input pos q = true) : hashOf deep input q = hashOf deep input pos := by
  have hmin : minMatch ≤ repeatLength input q pos := of_decide_eq_true hrepeats
  obtain ⟨_, k, hpos, hsame, _, hlt⟩ := mem_candidates.mp hq
  cases hfive : shallow.hashesFive with
  | true => rw [h.hashOf_five_eq hfive, h.hashOf_five_eq hfive, hsame, hpos]
  | false =>
    have hlow := h.hashLog_pos
    have hle := h.hashLog_le
    have hroom : pos + 3 < input.size := by
      have hmost : repeatLength input q pos ≤ input.size - pos :=
        Nat.le_trans (repeatLength_le input q pos) (Nat.min_le_left _ _)
      simp only [minMatch] at hmin
      omega
    obtain ⟨k, hk, hk'⟩ := hashOf_congr (h.hashesFive_eq.trans hfive) (by omega) h.hashLog_fits hroom
      (by omega : q + 3 < input.size)
      fun i hi => (repeatLength_agreeFor input q pos).equal i (Nat.lt_of_lt_of_le hi hmin)
    rw [hk, hk']

/-- The candidates that count are tried in the same order, and the deeper search comes at least as far. -/
theorem plainSearch_asLong (h : shallow.Deepens deep) :
    AsLong (plainSearch shallow input searched pos) (plainSearch deep input searched pos) := by
  have hentered : enteredBefore deep searched pos = enteredBefore shallow searched pos := by
    unfold enteredBefore
    rw [h.insertCovered_eq]
  have hheld : ∀ q ∈ candidates shallow input (enteredBefore shallow searched pos) pos,
      repeatsAt input pos q = true → decide (hashOf deep input q = hashOf deep input pos) = true :=
    fun q hq hrepeats => decide_eq_true (h.same_hash_of_repeats hq hrepeats)
  have hprefix := filter_take_prefix h.attempts_le hheld
  rw [← h.candidates_eq] at hprefix
  obtain ⟨more, hmore⟩ := hprefix
  unfold plainSearch
  rw [h.goodEnough_eq, hentered, ← scan_filter, ← scan_filter (List.take deep.maxAttempts _), ← hmore]
  exact scan_append _ more

end SearchParams.Deepens

namespace Finder

variable {f g : Finder}

/-- The finder has been set on the input and has not searched it, whatever it was used for before. -/
def Begins (params : SearchParams) (input : ByteArray) (f : Finder) : Prop :=
  ∃ fresh history used, new params = .ok fresh ∧ fresh.Runs history used ∧ used.reset input = .ok f

/-- Searches at the first `n` positions in turn. -/
def sweep (n : Nat) : List Query := (List.range n).map .find

/-- What the searches at the first `n` positions find, as answers. -/
def answers (found : List (Option Match)) : List Response := found.map .found

theorem exists_begins (hpos : 1 ≤ params.hashLog) (hle : params.hashLog ≤ 32) (hsize : input.size < 2 ^ 32) :
    ∃ f, Begins params input f := by
  obtain ⟨fresh, hnew, hfresh⟩ := new_over hpos hle
  obtain ⟨c, hreset, _⟩ := Chains.reset_over hfresh hsize
  refine ⟨⟨c, 0⟩, fresh, [], fresh, hnew, runs_nil.mpr rfl, ?_⟩
  rw [reset, hreset]
  rfl

theorem Begins.follows (hpos : 1 ≤ params.hashLog) (hle : params.hashLog ≤ 32) (h : Begins params input f) :
    f.chains.Follows params input [] := by
  obtain ⟨fresh, history, used, hnew, hhistory, hreset⟩ := h
  have hused := hhistory.over (over_of_new hpos hle hnew)
  obtain ⟨c, hc, rfl⟩ := map_eq_ok_iff.mp hreset
  exact Chains.reset_follows hused hc

/-- With all positions in the tables it does not matter where was searched. -/
theorem plainSearch_covered (hcovered : params.insertCovered = true) :
    plainSearch params input searched pos = plainSearch params input [] pos := by
  simp [plainSearch, enteredBefore, hcovered]

theorem askAll_finds {ps : List Nat} (hcovered : params.insertCovered = true)
    (h : f.chains.Follows params input searched) (hlater : (searched ++ ps).Pairwise (· < ·)) :
    ∃ f', f.askAll (ps.map .find) = .ok (answers (ps.map (plainSearch params input [])), f') := by
  induction ps generalizing f searched with
  | nil => exact ⟨f, rfl⟩
  | cons p ps ih =>
    have hbefore : ∀ q ∈ searched, q < p :=
      fun q hq => (List.pairwise_append.mp hlater).2.2 q hq p List.mem_cons_self
    obtain ⟨f₁, hfind, h₁⟩ := find_eq_plain h hbefore
    obtain ⟨f', hrest⟩ := ih h₁ (by rwa [List.append_assoc])
    rw [plainSearch_covered hcovered] at hfind
    refine ⟨f', ?_⟩
    simp only [List.map_cons, askAll, ask, hfind, Except.map, hrest, answers]

theorem sweep_finds (hpos : 1 ≤ params.hashLog) (hle : params.hashLog ≤ 32) (hcovered : params.insertCovered = true)
    (h : Begins params input f) (n : Nat) :
    ∃ f', f.askAll (sweep n) = .ok (answers ((List.range n).map (plainSearch params input [])), f') :=
  askAll_finds hcovered (h.follows hpos hle) List.pairwise_lt_range

/-- Both searches go through the positions of the input in turn, and wherever the first finds a match the second
finds one that is at least as long. -/
def FindsAsLong (shallow deep : SearchParams) (input : ByteArray) : Prop :=
  (∃ f, Begins shallow input f) ∧ (∃ g, Begins deep input g) ∧
    ∀ f g, Begins shallow input f → Begins deep input g → ∀ n, ∃ found found' f' g',
      f.askAll (sweep n) = .ok (answers found, f') ∧ g.askAll (sweep n) = .ok (answers found', g') ∧
      found.length = n ∧ found'.length = n ∧
      ∀ (pos : Nat) m, found[pos]? = some (some m) → ∃ m', found'[pos]? = some (some m') ∧ m.length ≤ m'.length

theorem findsAsLong_of_deepens (h : shallow.Deepens deep) (hsize : input.size < 2 ^ 32) :
    FindsAsLong shallow deep input := by
  have hpos := h.hashLog_pos
  have hle := h.hashLog_le
  have hfits := h.hashLog_fits
  have hpos' : 1 ≤ deep.hashLog := by omega
  have hfits' : shallow.hashLog ≤ 32 := by omega
  refine ⟨exists_begins hpos hfits' hsize, exists_begins hpos' hfits hsize, ?_⟩
  intro f g hf hg n
  obtain ⟨f', hfound⟩ := sweep_finds hpos hfits' h.covered hf n
  obtain ⟨g', hfound'⟩ := sweep_finds hpos' hfits (h.insertCovered_eq.trans h.covered) hg n
  refine ⟨_, _, f', g', hfound, hfound', by simp, by simp, ?_⟩
  intro pos m hm
  obtain ⟨p, hp, hplain⟩ := Option.map_eq_some_iff.mp (List.getElem?_map ▸ hm)
  obtain ⟨m', hm', hlonger⟩ := h.plainSearch_asLong m hplain
  refine ⟨m', ?_, hlonger⟩
  rw [List.getElem?_map, hp]
  exact congrArg some hm'

theorem chained_deepens {attempts attempts' log log' : Nat} (hattempts : attempts ≤ attempts') (hlog : log ≤ log')
    (hpos : 1 ≤ log) (hfits : log' ≤ 32) : (Level.chained attempts log).Deepens (Level.chained attempts' log') where
  attempts_le := hattempts
  hashLog_le := hlog
  hashLog_eq hfive := nomatch hfive
  rest_eq := rfl
  covered := rfl
  hashLog_pos := hpos
  hashLog_fits := hfits

theorem level_deepens {l l' : Level} (h : l.number = 4 ∧ l'.number = 5 ∨ l.number = 5 ∧ l'.number = 6) :
    (l.params .improved).Deepens (l'.params .improved) := by
  simp only [Level.params, Level.improvedParams]
  rcases h with ⟨h, h'⟩ | ⟨h, h'⟩
  · simpa only [h, h'] using chained_deepens (by decide) (by decide) (by decide) (by decide)
  · simpa only [h, h'] using chained_deepens (by decide) (by decide) (by decide) (by decide)

/-- With more attempts, and a hash of four bytes that keeps more bits, no search finds a shorter match. Levels 4,
5 and 6 differ in no more. -/
theorem deeper_search_never_shorter (hsize : input.size < 2 ^ 32) :
    (∀ shallow deep : SearchParams, shallow.Deepens deep → FindsAsLong shallow deep input) ∧
      ∀ l l' : Level, (l.number = 4 ∧ l'.number = 5 ∨ l.number = 5 ∧ l'.number = 6) →
        FindsAsLong (l.params .improved) (l'.params .improved) input :=
  ⟨fun _ _ h => findsAsLong_of_deepens h hsize, fun _ _ h => findsAsLong_of_deepens (level_deepens h) hsize⟩

/-- The one attempt at position 12 of `_abcde_abcd_abcde` finds four bytes, and the second search five. -/
theorem deeper_search_never_shorter_behind_nearer_match :
    let input : ByteArray := ⟨#[95, 97, 98, 99, 100, 101, 95, 97, 98, 99, 100, 95, 97, 98, 99, 100, 101]⟩
    let shallow : SearchParams := { maxAttempts := 1, hashLog := 3 }
    let deep : SearchParams := { maxAttempts := 3, hashLog := 4 }
    let f : Finder := ⟨⟨shallow, input, Array.replicate 8 0, Array.replicate 17 0, 0⟩, 0⟩
    let g : Finder := ⟨⟨deep, input, Array.replicate 16 0, Array.replicate 17 0, 0⟩, 0⟩
    input.size < 2 ^ 32 ∧ shallow.Deepens deep ∧ Begins shallow input f ∧ Begins deep input g ∧
      ∃ found found' f' g', f.askAll (sweep 13) = .ok (answers found, f') ∧
        g.askAll (sweep 13) = .ok (answers found', g') ∧ found[12]? = some (some ⟨5, 4⟩) ∧
        ∃ m', found'[12]? = some (some m') ∧ 4 ≤ m'.length := by
  intro input shallow deep f g
  have hsize : input.size < 2 ^ 32 := by decide
  have hdeepens : shallow.Deepens deep :=
    ⟨by decide, by decide, fun hfive => (nomatch hfive), rfl, rfl, by decide, by decide⟩
  have hf : Begins shallow input f :=
    ⟨⟨⟨shallow, ByteArray.empty, Array.replicate 8 0, #[], 0⟩, 0⟩, [], _, by cbv, runs_nil.mpr rfl, by cbv⟩
  have hg : Begins deep input g :=
    ⟨⟨⟨deep, ByteArray.empty, Array.replicate 16 0, #[], 0⟩, 0⟩, [], _, by cbv, runs_nil.mpr rfl, by cbv⟩
  obtain ⟨_, _, hall⟩ := (deeper_search_never_shorter hsize).1 shallow deep hdeepens
  obtain ⟨found, found', f', g', hfound, hfound', hlength, hlength', hlonger⟩ := hall f g hf hg 13
  have hlast : (f.askAll (sweep 13)).map (fun x => x.1[12]?) = .ok (some (.found (some ⟨5, 4⟩))) := by cbv
  have hmatch : found[12]? = some (some ⟨5, 4⟩) := by
    have hanswer : (answers found)[12]? = some (.found (some ⟨5, 4⟩)) := by
      rw [hfound] at hlast
      exact Except.ok.inj hlast
    obtain ⟨_, hm, heq⟩ := Option.map_eq_some_iff.mp (List.getElem?_map ▸ hanswer)
    cases heq
    exact hm
  exact ⟨hsize, hdeepens, hf, hg, found, found', f', g', hfound, hfound', hmatch, hlonger 12 _ hmatch⟩

end Finder

end LempelZiv
