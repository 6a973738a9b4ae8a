import Mathlib
import LempelZiv.Search.Finder
import LempelZiv.Proofs.ChainSteps

namespace LempelZiv

namespace Finder

/-- What can be told to a finder and asked of it. -/
inductive Query where
  | reset (input : ByteArray)
  | insert (pos : Nat)
  | find (pos : Nat)
  | choose (length : Nat)
  | advance (n : Nat)
  | newest (pos : Nat)
  | previous (pos : Nat)
  | position
  | atEnd
  | params

inductive Response where
  | done
  | found (best : Option Match)
  | chose (choice : LazyChoice)
  | points (pos : Option Nat)
  | stands (cursor : Nat)
  | ends (atEnd : Bool)
  | uses (params : SearchParams)

def ask (f : Finder) : Query → Except Fault (Response × Finder)
  | .reset input => (f.reset input).map (.done, ·)
  | .insert pos => (f.insert pos).map (.done, ·)
  | .find pos => (f.find pos).map fun (found, f) => (.found found, f)
  | .choose length => (f.choose length).map fun (choice, f) => (.chose choice, f)
  | .advance n => (f.advance n).map (.done, ·)
  | .newest pos => (f.newest pos).map fun head => (.points head, f)
  | .previous pos => .ok (.points (f.previous pos), f)
  | .position => .ok (.stands f.cursor, f)
  | .atEnd => .ok (.ends f.atEnd, f)
  | .params => .ok (.uses f.params, f)

/-- The queries in turn, up to one that breaks off. -/
def askAll (f : Finder) : List Query → Except Fault (List Response × Finder)
  | [] => .ok ([], f)
  | q :: qs =>
    match f.ask q with
    | .error e => .error e
    | .ok (response, f) => (f.askAll qs).map fun (responses, f) => (response :: responses, f)

/-- The queries lead from one finder to the other. -/
def Runs (f : Finder) (qs : List Query) (f' : Finder) : Prop := ∃ responses, f.askAll qs = .ok (responses, f')

/-- The input after the query. -/
def Query.inputAfter (input : ByteArray) : Query → ByteArray
  | .reset input => input
  | _ => input

/-- The sums that the query makes are sizes, and positions in its input have 32 bits. -/
def Query.Fits (f : Finder) : Query → Prop
  | .reset input => input.size < 2 ^ 32
  | .advance n => f.cursor + n < sizeLimit
  | .choose length => length + f.params.lazyMargin < sizeLimit
  | _ => True

/-- Every query fits the finder that it comes to. -/
def AllFit (f : Finder) : List Query → Prop
  | [] => True
  | q :: qs => q.Fits f ∧ match f.ask q with
    | .ok (_, f') => f'.AllFit qs
    | .error _ => True

/-- The response reports `m` at `pos`. -/
inductive Reports (f : Finder) : Query → Response → Nat → Match → Prop where
  | found {pos : Nat} {m : Match} : f.Reports (.find pos) (.found (some m)) pos m
  | deferred {length : Nat} {m : Match} : f.Reports (.choose length) (.chose (.defer m)) (f.cursor + 1) m

variable {f f' : Finder} {q : Query} {qs : List Query} {response : Response} {params : SearchParams}
  {input : ByteArray}

theorem runs_nil : f.Runs [] f' ↔ f' = f := by
  constructor
  · rintro ⟨_, h⟩
    cases h
    rfl
  · rintro rfl
    exact ⟨_, rfl⟩

theorem runs_cons {f₂ : Finder} :
    f.Runs (q :: qs) f₂ ↔ ∃ response f₁, f.ask q = .ok (response, f₁) ∧ f₁.Runs qs f₂ := by
  rw [Runs]
  simp only [askAll]
  constructor
  · rintro ⟨_, h⟩
    split at h
    next => cases h
    next response f₁ hask =>
      obtain ⟨⟨responses, f₃⟩, hall, heq⟩ := map_eq_ok_iff.mp h
      cases heq
      exact ⟨response, f₁, hask, responses, hall⟩
  · rintro ⟨response, f₁, hask, responses, hall⟩
    rw [hask]
    exact ⟨response :: responses, by simp only [hall]; rfl⟩

theorem runs_append {qs' : List Query} {f₂ : Finder} :
    f.Runs (qs ++ qs') f₂ ↔ ∃ f₁, f.Runs qs f₁ ∧ f₁.Runs qs' f₂ := by
  induction qs generalizing f with
  | nil =>
    constructor
    · intro h
      exact ⟨f, runs_nil.mpr rfl, h⟩
    · rintro ⟨f₁, hnil, h⟩
      rwa [runs_nil.mp hnil] at h
  | cons q qs ih =>
    constructor
    · intro h
      obtain ⟨response, f₁, hask, hrest⟩ := runs_cons.mp h
      obtain ⟨f₃, hqs, hqs'⟩ := ih.mp hrest
      exact ⟨f₃, runs_cons.mpr ⟨response, f₁, hask, hqs⟩, hqs'⟩
    · rintro ⟨f₃, hcons, hqs'⟩
      obtain ⟨response, f₁, hask, hqs⟩ := runs_cons.mp hcons
      exact runs_cons.mpr ⟨response, f₁, hask, ih.mpr ⟨f₃, hqs, hqs'⟩⟩

theorem runs_snoc {f₂ : Finder} :
    f.Runs (qs ++ [q]) f₂ ↔ ∃ f₁ response, f.Runs qs f₁ ∧ f₁.ask q = .ok (response, f₂) := by
  rw [runs_append]
  constructor
  · rintro ⟨f₁, hqs, hlast⟩
    obtain ⟨response, f₃, hask, hnil⟩ := runs_cons.mp hlast
    rw [runs_nil.mp hnil]
    exact ⟨f₁, response, hqs, hask⟩
  · rintro ⟨f₁, response, hqs, hask⟩
    exact ⟨f₁, hqs, runs_cons.mpr ⟨response, f₂, hask, runs_nil.mpr rfl⟩⟩

/-- What a query does to the chains. -/
inductive Changes : Query → Chains → Chains → Prop where
  | reset {input : ByteArray} {c c' : Chains} (h : c.reset input = .ok c') : Changes (.reset input) c c'
  | insert {pos : Nat} {c c' : Chains} (h : c.insert pos = .ok c') : Changes (.insert pos) c c'
  | search {q : Query} {c c' : Chains} (hinput : ∀ input, q.inputAfter input = input) (h : c.Enters c') :
      Changes q c c'

theorem ask_changes (h : f.ask q = .ok (response, f')) : Changes q f.chains f'.chains := by
  cases q with
  | reset input =>
    obtain ⟨f₁, hreset, heq⟩ := map_eq_ok_iff.mp h
    obtain ⟨c, hc, rfl⟩ := map_eq_ok_iff.mp hreset
    cases heq
    exact .reset hc
  | insert pos =>
    obtain ⟨f₁, hinsert, heq⟩ := map_eq_ok_iff.mp h
    obtain ⟨c, hc, rfl⟩ := map_eq_ok_iff.mp hinsert
    cases heq
    exact .insert hc
  | find pos =>
    obtain ⟨_, hfind, heq⟩ := map_eq_ok_iff.mp h
    obtain ⟨⟨found, c⟩, hc, rfl⟩ := map_eq_ok_iff.mp hfind
    cases heq
    exact .search (fun _ => rfl) (Chains.find_enters hc)
  | choose length =>
    obtain ⟨_, hchoose, heq⟩ := map_eq_ok_iff.mp h
    obtain ⟨⟨next, c⟩, hc, rfl⟩ := map_eq_ok_iff.mp hchoose
    cases heq
    exact .search (fun _ => rfl) (Chains.better_enters hc)
  | advance n =>
    obtain ⟨f₁, hadvance, heq⟩ := map_eq_ok_iff.mp h
    obtain ⟨_, _, rfl⟩ := map_eq_ok_iff.mp hadvance
    cases heq
    exact .search (fun _ => rfl) .done
  | newest pos =>
    obtain ⟨_, _, heq⟩ := map_eq_ok_iff.mp h
    cases heq
    exact .search (fun _ => rfl) .done
  | previous pos =>
    cases h
    exact .search (fun _ => rfl) .done
  | position =>
    cases h
    exact .search (fun _ => rfl) .done
  | atEnd =>
    cases h
    exact .search (fun _ => rfl) .done
  | params =>
    cases h
    exact .search (fun _ => rfl) .done

theorem Changes.over {c c' : Chains} (h : Changes q c c') (hc : c.Over params input) :
    c'.Over params (q.inputAfter input) := by
  cases h with
  | reset h => exact Chains.reset_keeps_over hc h
  | insert h => exact Chains.insert_keeps_over hc h
  | search hinput h =>
    rw [hinput]
    exact h.over hc

theorem new_over (hpos : 1 ≤ params.hashLog) (hle : params.hashLog ≤ 32) :
    ∃ f, new params = .ok f ∧ f.chains.Over params ByteArray.empty := by
  obtain ⟨c, hempty, hc⟩ := Chains.empty_fits hpos hle
  refine ⟨⟨c, 0⟩, ?_, hc⟩
  rw [new, hempty]
  rfl

theorem over_of_new (hpos : 1 ≤ params.hashLog) (hle : params.hashLog ≤ 32) (hnew : new params = .ok f) :
    f.chains.Over params ByteArray.empty := by
  obtain ⟨f', hnew', hf'⟩ := new_over hpos hle
  rw [hnew] at hnew'
  cases hnew'
  exact hf'

theorem Runs.over (h : f.Runs qs f') (hf : f.chains.Over params input) :
    f'.chains.Over params (qs.foldl Query.inputAfter input) := by
  induction qs generalizing f input with
  | nil =>
    rw [runs_nil.mp h]
    exact hf
  | cons q qs ih =>
    obtain ⟨response, f₁, hask, hrest⟩ := runs_cons.mp h
    exact ih hrest ((ask_changes hask).over hf)

/-- A query that fits is answered, and what it reports stands in the input. -/
theorem ask_genuine (hf : f.chains.Over params input) (hfits : q.Fits f) :
    ∃ response f', f.ask q = .ok (response, f') ∧
      ∀ pos m, f.Reports q response pos m → m.Genuine params input pos := by
  cases q with
  | reset input =>
    obtain ⟨c, hreset, _⟩ := Chains.reset_over hf hfits
    refine ⟨.done, ⟨c, 0⟩, ?_, fun _ _ hreport => (nomatch hreport)⟩
    rw [ask, reset, hreset]
    rfl
  | insert pos =>
    obtain ⟨c, hinsert, _⟩ := Chains.insert_over pos hf
    refine ⟨.done, { f with chains := c }, ?_, fun _ _ hreport => (nomatch hreport)⟩
    rw [ask, insert, hinsert]
    rfl
  | find pos =>
    obtain ⟨found, c, hfind, _, hgenuine⟩ := Chains.find_genuine pos hf
    refine ⟨.found found, { f with chains := c }, ?_, ?_⟩
    · rw [ask, find, hfind]
      rfl
    · rintro _ m ⟨⟩
      exact hgenuine m rfl
  | choose length =>
    have hbar : length + params.lazyMargin < sizeLimit := by
      have hsum : length + f.chains.params.lazyMargin < sizeLimit := hfits
      rwa [hf.params_eq] at hsum
    obtain ⟨next, c, hbetter, _, hgenuine⟩ := Chains.better_genuine f.cursor hf hbar
    cases next with
    | none =>
      refine ⟨.chose .keep, { f with chains := c }, ?_, fun _ _ hreport => (nomatch hreport)⟩
      rw [ask, choose, hbetter]
      rfl
    | some m =>
      refine ⟨.chose (.defer m), { f with chains := c }, ?_, ?_⟩
      · rw [ask, choose, hbetter]
        rfl
      · rintro _ _ ⟨⟩
        exact (hgenuine m rfl).1
  | advance n =>
    refine ⟨.done, { f with cursor := min (f.cursor + n) f.chains.input.size }, ?_,
      fun _ _ hreport => (nomatch hreport)⟩
    rw [ask, advance, addSize_eq_ok hfits]
    rfl
  | newest pos =>
    obtain ⟨head, hnewest, _⟩ := Chains.newest_ok pos hf
    refine ⟨.points head, f, ?_, fun _ _ hreport => (nomatch hreport)⟩
    rw [ask, newest, hnewest]
    rfl
  | previous pos => exact ⟨_, _, rfl, fun _ _ hreport => (nomatch hreport)⟩
  | position => exact ⟨_, _, rfl, fun _ _ hreport => (nomatch hreport)⟩
  | atEnd => exact ⟨_, _, rfl, fun _ _ hreport => (nomatch hreport)⟩
  | params => exact ⟨_, _, rfl, fun _ _ hreport => (nomatch hreport)⟩

theorem askAll_fits (hf : f.chains.Over params input) (hfits : f.AllFit (qs ++ [q])) :
    ∃ f', f.Runs qs f' ∧ q.Fits f' := by
  induction qs generalizing f input with
  | nil => exact ⟨f, runs_nil.mpr rfl, hfits.1⟩
  | cons q' qs ih =>
    obtain ⟨hfirst, hrest⟩ := hfits
    obtain ⟨response, f₁, hask, _⟩ := ask_genuine hf hfirst
    rw [hask] at hrest
    obtain ⟨f', hrun, hlast⟩ := ih ((ask_changes hask).over hf) hrest
    exact ⟨f', runs_cons.mpr ⟨response, f₁, hask, hrun⟩, hlast⟩

/-- Whatever has been done with a finder, at whatever positions, no query breaks off, and every match that it
reports stands in the input. -/
theorem reports_genuine_under_any_use (hpos : 1 ≤ params.hashLog) (hle : params.hashLog ≤ 32) :
    ∃ fresh, new params = .ok fresh ∧ ∀ earlier q, fresh.AllFit (earlier ++ [q]) →
      ∃ f response f', fresh.Runs earlier f ∧ f.ask q = .ok (response, f') ∧
        ∀ pos m, f.Reports q response pos m →
          m.Genuine params (earlier.foldl Query.inputAfter ByteArray.empty) pos := by
  obtain ⟨fresh, hnew, hfresh⟩ := new_over hpos hle
  refine ⟨fresh, hnew, ?_⟩
  intro earlier q hfits
  obtain ⟨f, hrun, hlast⟩ := askAll_fits hfresh hfits
  obtain ⟨response, f', hask, hgenuine⟩ := ask_genuine (hrun.over hfresh) hlast
  exact ⟨f, response, f', hrun, hask, hgenuine⟩

theorem reports_genuine_under_any_use_of_repeated_position :
    let input : ByteArray := ⟨#[95, 97, 98, 99, 100, 95, 97, 98, 99, 100]⟩
    ∃ fresh, new { hashLog := 3 } = .ok fresh ∧
      fresh.AllFit ([.reset input, .insert 6, .find 6] ++ [.find 6]) ∧
      ∃ f f', fresh.Runs [.reset input, .insert 6, .find 6] f ∧
        f.ask (.find 6) = .ok (.found (some ⟨5, 4⟩), f') ∧
        (⟨5, 4⟩ : Match).Genuine { hashLog := 3 } input 6 := by
  intro input
  obtain ⟨fresh, hnew, hany⟩ := @reports_genuine_under_any_use { hashLog := 3 } (by decide) (by decide)
  have hfresh : fresh = ⟨⟨{ hashLog := 3 }, ByteArray.empty, #[0, 0, 0, 0, 0, 0, 0, 0], #[], 0⟩, 0⟩ :=
    Except.ok.inj (hnew.symm.trans (by cbv))
  have hfits : fresh.AllFit ([.reset input, .insert 6, .find 6] ++ [.find 6]) := by
    rw [hfresh]
    cbv
  obtain ⟨f, response, f', hrun, hask, hgenuine⟩ := hany _ _ hfits
  let reached : Finder :=
    ⟨⟨{ hashLog := 3 }, input, #[3, 2, 4, 6, 0, 0, 5, 0], #[0, 6, 0, 0, 0, 0, 1, 0, 0, 0], 7⟩, 0⟩
  have hall : fresh.askAll [.reset input, .insert 6, .find 6] =
      .ok ([.done, .done, .found (some ⟨5, 4⟩)], reached) := by
    rw [hfresh]
    cbv
  have hf : f = reached := by
    obtain ⟨_, hrun⟩ := hrun
    rw [hall] at hrun
    exact (Prod.mk.inj (Except.ok.inj hrun)).2.symm
  have hagain : f.ask (.find 6) = .ok (.found (some ⟨5, 4⟩), f) := by
    rw [hf]
    cbv
  rw [hagain] at hask
  cases hask
  exact ⟨fresh, hnew, hfits, f, f, hrun, hagain, hgenuine 6 ⟨5, 4⟩ .found⟩

end Finder

end LempelZiv
