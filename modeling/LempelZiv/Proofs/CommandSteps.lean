import LempelZiv.Command.Session
import LempelZiv.Proofs.FileStore

namespace LempelZiv

/-- Where the output goes that is asked for, or made out of the input's name. -/
def Paths.target (paths : Paths) (extension : String) : String :=
  paths.output.getD (if paths.input = Arguments.dash then Arguments.dash else paths.input ++ extension)

namespace Run

variable {α β : Type}

/-- A step ends with a value and files of which `done` holds, or breaks off and `failed` holds of the files. -/
def Ensures (m : Run α) (s : Session) (done : α → Files → Prop) (failed : Files → Prop) : Prop :=
  match m.run.run s with
  | (.ok a, s') => done a s'.files
  | (.error _, s') => failed s'.files

variable {s : Session} {done : α → Files → Prop} {failed : Files → Prop} {m : Run α}

theorem Ensures.bind {f : α → Run β} {later : β → Files → Prop} (hm : m.Ensures s done failed)
    (hf : ∀ a s', done a s'.files → (f a).Ensures s' later failed) : (m >>= f).Ensures s later failed := by
  rcases hrun : m.run.run s with ⟨e | a, s'⟩
  · rw [Ensures, hrun] at hm
    have herror : (m >>= f).run.run s = (.error e, s') := by
      rw [ExceptT.run_bind, StateT.run_bind, hrun]
      rfl
    rw [Ensures, herror]
    exact hm
  · rw [Ensures, hrun] at hm
    have hok : (m >>= f).run.run s = (f a).run.run s' := by
      rw [ExceptT.run_bind, StateT.run_bind, hrun]
      rfl
    rw [Ensures, hok]
    exact hf a s' hm

theorem Ensures.imp {done' : α → Files → Prop} (h : m.Ensures s done failed)
    (hdone : ∀ a fs, done a fs → done' a fs) : m.Ensures s done' failed := by
  rw [Ensures] at h ⊢
  split
  next a s' hrun =>
    rw [hrun] at h
    exact hdone a _ h
  next e s' hrun =>
    rw [hrun] at h
    exact h

theorem pure_ensures {a : α} (h : done a s.files) : (pure a : Run α).Ensures s done failed := h

theorem throw_ensures {e : CommandError} (h : failed s.files) : (throw e : Run α).Ensures s done failed := h

theorem get_ensures {f : Session → Run α} (h : (f s).Ensures s done failed) : (get >>= f).Ensures s done failed := h

/-- A step that is taken if it is asked for, and what comes after it. -/
theorem optional_ensures {γ : Type} {c : Prop} [Decidable c] {x : Run γ} {g : γ → α} {a : α} {f : α → Run β}
    {later : β → Files → Prop} (mid : α → Files → Prop) (hx : x.Ensures s (fun n fs => mid (g n) fs) failed)
    (ha : mid a s.files) (hf : ∀ a s', mid a s'.files → (f a).Ensures s' later failed) :
    (if c then x >>= fun n => pure (g n) >>= f else pure a >>= f).Ensures s later failed := by
  split
  next => exact hx.bind fun n s' h => (pure_ensures h).bind hf
  next => exact (pure_ensures ha).bind hf

section Files

variable {fs fs' : Files} {path : String} {force : Bool} {bytes : ByteArray} {t : Target}

/-- A target that has these bytes, made out of some files. Without force no file was there. -/
inductive Puts (fs : Files) (path : String) (force : Bool) (bytes : ByteArray) : Target → Files → Prop
  | standard (hdash : path = Arguments.dash) : Puts fs path force bytes .standard fs
  | file {key : String} {fs' : Files} (hpath : path ≠ Arguments.dash) (names : fs.Names path key)
      (fresh : force = false → fs.content? key = none) (stores : fs.Stores fs' key bytes) :
      Puts fs path force bytes (.file key) fs'

theorem Puts.keeps (h : Puts fs path force bytes t fs') (hforce : force = false) : fs.Keeps fs' := by
  cases h with
  | standard => exact .refl fs
  | file _ _ fresh stores => exact stores.keeps (fresh hforce)

theorem Puts.content?_eq (h : Puts fs path force bytes t fs') {key : String} {content : ByteArray}
    (hcontent : fs.content? key = some content) :
    fs'.content? key = some (if t = .file key then bytes else content) := by
  cases h with
  | standard => exact hcontent
  | @file key' _ _ _ _ stores =>
    by_cases hkey : key = key'
    · rw [hkey, stores.content_eq, if_pos rfl]
    · rw [stores.others key hkey, if_neg (by simpa using Ne.symm hkey), hcontent]

theorem deliver_ensures (h : Puts fs path force bytes t s.files) (later : ByteArray) :
    (deliver t later).Ensures s (fun _ fs' => Puts fs path force later t fs') failed := by
  cases h with
  | standard hdash => exact .standard hdash
  | file hpath names fresh stores => exact .file hpath names fresh (stores.put later)

variable (hs : s.files = fs)
include hs

theorem note_ensures (n : Notice) : (note n).Ensures s (fun _ fs' => fs' = fs) failed := hs

theorem notes_ensures (ns : List Notice) : (notes ns).Ensures s (fun _ fs' => fs' = fs) failed := hs

theorem ofLibrary_ensures (x : Except Error α) (h : failed fs) :
    (ofLibrary x).Ensures s (fun a fs' => x = .ok a ∧ fs' = fs) failed := by
  subst hs
  cases x with
  | error e => exact h
  | ok a => exact ⟨rfl, rfl⟩

theorem outputName_ensures (paths : Paths) (extension : String) :
    (outputName paths fun input => some (input ++ extension)).Ensures s
      (fun name fs' => name = paths.target extension ∧ fs' = fs) failed := by
  rw [outputName, Paths.target]
  cases paths.output with
  | some name => exact ⟨rfl, hs⟩
  | none =>
    simp only
    split
    next => exact ⟨rfl, hs⟩
    next => exact ⟨rfl, hs⟩

theorem openInput_ensures (path : String) (h : failed fs) :
    (openInput path).Ensures s (fun o fs' => (path ≠ Arguments.dash → ∃ opened, o = .opened opened ∧
      fs.open? path = .ok opened) ∧ fs' = fs) failed := by
  subst hs
  rw [openInput]
  refine get_ensures ?_
  split
  next hdash =>
    split
    next => exact h
    next => exact ⟨fun hpath => absurd hdash hpath, rfl⟩
  next =>
    split
    next opened hopen => exact ⟨fun _ => ⟨opened, rfl, hopen⟩, rfl⟩
    next => exact h

theorem content_ensures (o : Origin) :
    (content o).Ensures s (fun r fs' => (∀ opened, o = .opened opened → r = fs.read opened) ∧ fs' = fs) failed := by
  subst hs
  rw [content]
  refine get_ensures ?_
  split
  next => exact ⟨fun _ h => (nomatch h), rfl⟩
  next =>
    refine ⟨?_, rfl⟩
    rintro _ ⟨⟩
    rfl
  next =>
    refine ⟨?_, rfl⟩
    rintro _ ⟨⟩
    rfl

theorem readAll_ensures (path : String) (h : failed fs) :
    (readAll path).Ensures s (fun bytes fs' => (path ≠ Arguments.dash → ∃ opened, fs.open? path = .ok opened ∧
      fs.read opened = .ok bytes) ∧ fs' = fs) failed := by
  rw [readAll]
  refine (openInput_ensures hs path h).bind fun o s₁ ⟨hopened, h₁⟩ => ?_
  refine (content_ensures h₁ o).bind fun r s₂ ⟨hread, h₂⟩ => ?_
  cases r with
  | error e =>
    subst h₂
    exact throw_ensures h
  | ok bytes =>
    refine pure_ensures ⟨?_, h₂⟩
    intro hpath
    obtain ⟨opened, ho, hopen⟩ := hopened hpath
    exact ⟨opened, hopen, (hread opened ho).symm⟩

theorem openOutput_ensures (path : String) (force : Bool) (h : failed fs) :
    (openOutput path force).Ensures s (Puts fs path force ByteArray.empty) failed := by
  subst hs
  rw [openOutput]
  split
  next hdash => exact .standard hdash
  next hpath =>
    refine get_ensures ?_
    cases hoccupied : !force && s.files.pathExists path with
    | true => exact h
    | false =>
      simp only [Bool.false_eq_true, if_false]
      split
      next key fs' hcreate =>
        obtain ⟨hnames, rfl⟩ := Files.create_ok hcreate
        refine .file hpath hnames ?_ (s.files.stores_put key _)
        rintro rfl
        exact hnames.content?_of_not_exists hoccupied
      next => exact h

end Files

end Run

end LempelZiv
