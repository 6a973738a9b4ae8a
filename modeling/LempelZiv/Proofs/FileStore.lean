import LempelZiv.Command.Files

namespace LempelZiv

namespace Files

theorem lookup_cons_eq_ite (key : String) (bytes : ByteArray) (entries : List (String × ByteArray)) (k : String) :
    ((key, bytes) :: entries).lookup k = if k = key then some bytes else entries.lookup k := by
  rw [List.lookup_cons]
  by_cases hk : k = key
  · rw [beq_iff_eq.mpr hk, if_pos hk]
  · rw [beq_false_of_ne hk, if_neg hk]

theorem lookup_putEntry (key : String) (bytes : ByteArray) (entries : List (String × ByteArray)) (k : String) :
    (putEntry key bytes entries).lookup k = if k = key then some bytes else entries.lookup k := by
  induction entries with
  | nil => rw [putEntry, lookup_cons_eq_ite]
  | cons entry entries ih =>
    obtain ⟨other, content⟩ := entry
    rw [putEntry, lookup_cons_eq_ite]
    split
    next hsame =>
      rw [lookup_cons_eq_ite, hsame]
      split
      next => rfl
      next => rfl
    next hother =>
      rw [lookup_cons_eq_ite, ih]
      by_cases hk : k = other
      · rw [if_pos hk, if_pos hk, if_neg (hk ▸ hother)]
      · rw [if_neg hk, if_neg hk]

variable {fs fs' : Files} {path key : String} {bytes : ByteArray}

theorem content?_put (fs : Files) (key : String) (bytes : ByteArray) (k : String) :
    (fs.put key bytes).content? k = if k = key then some bytes else fs.content? k :=
  lookup_putEntry key bytes fs.entries k

/-- What can be read of something that has been opened. -/
def read (fs : Files) : Opened → Except FileError ByteArray
  | .directory => .error .isDirectory
  | .file key => .ok ((fs.content? key).getD ByteArray.empty)

/-- No file that there was has changed. -/
def Keeps (fs fs' : Files) : Prop := ∀ key bytes, fs.content? key = some bytes → fs'.content? key = some bytes

theorem Keeps.refl (fs : Files) : fs.Keeps fs := fun _ _ h => h

/-- One file has these bytes now, and all else is as it was. -/
structure Stores (fs fs' : Files) (key : String) (bytes : ByteArray) : Prop where
  directories_eq : fs'.directories = fs.directories
  content_eq : fs'.content? key = some bytes
  others : ∀ k, k ≠ key → fs'.content? k = fs.content? k

theorem stores_put (fs : Files) (key : String) (bytes : ByteArray) : fs.Stores (fs.put key bytes) key bytes where
  directories_eq := rfl
  content_eq := by rw [content?_put, if_pos rfl]
  others k hk := by rw [content?_put, if_neg hk]

theorem Stores.put (h : fs.Stores fs' key bytes) (later : ByteArray) : fs.Stores (fs'.put key later) key later where
  directories_eq := h.directories_eq
  content_eq := (stores_put fs' key later).content_eq
  others k hk := ((stores_put fs' key later).others k hk).trans (h.others k hk)

theorem Stores.keeps (h : fs.Stores fs' key bytes) (hnew : fs.content? key = none) : fs.Keeps fs' := by
  intro k content hk
  have hne : k ≠ key := by
    rintro rfl
    rw [hnew] at hk
    cases hk
  rw [h.others k hne, hk]

/-- What a name in a directory can turn out to be. -/
inductive Finds (fs : Files) (d : Directory) (name : String) : Except FileError Opened → Prop
  | long (hlong : longestName < name.utf8ByteSize) : Finds fs d name (.error .nameTooLong)
  | directory (hname : name.utf8ByteSize ≤ longestName) (hdir : (d.child name).path ∈ fs.directories) :
      Finds fs d name (.ok .directory)
  | file (hname : name.utf8ByteSize ≤ longestName) (hdir : (d.child name).path ∉ fs.directories)
      (hfile : (fs.content? (d.child name).path).isSome = true) : Finds fs d name (.ok (.file (d.child name).path))
  | missing (hname : name.utf8ByteSize ≤ longestName) (hdir : (d.child name).path ∉ fs.directories)
      (hnone : fs.content? (d.child name).path = none) : Finds fs d name (.error .missing)

theorem find_finds (fs : Files) (d : Directory) (name : String) : fs.Finds d name (fs.find d name) := by
  rw [find]
  split
  next hlong => exact .long hlong
  next hname =>
    rw [Nat.not_lt] at hname
    split
    next hdir => exact .directory hname hdir
    next hdir =>
      split
      next hfile => exact .file hname hdir hfile
      next hnone => exact .missing hname hdir (by simpa using hnone)

theorem find_directory_congr {d : Directory} {name : String} (hdirs : fs'.directories = fs.directories)
    (h : fs.find d name = .ok .directory) : fs'.find d name = .ok .directory := by
  have hfinds := fs.find_finds d name
  rw [h] at hfinds
  cases hfinds with
  | directory hname hdir => rw [find, if_neg (Nat.not_lt.mpr hname), hdirs, if_pos hdir]

/-- Where a path leads to a name in a directory depends on the directories only. -/
theorem descend_congr {d d' : Directory} {names : List String} {name : String}
    (hdirs : fs'.directories = fs.directories) (h : fs.descend d names = .entry d' name) :
    fs'.descend d names = .entry d' name := by
  fun_induction descend fs d names with
  | case1 => cases h
  | case2 d next rest hdots ih =>
    rw [descend, if_pos hdots]
    exact ih h
  | case3 d next rest hdots hlast =>
    rw [descend, if_neg hdots, if_pos hlast]
    exact h
  | case4 d next rest hdots hlast hfind ih =>
    rw [descend, if_neg hdots, if_neg hlast, find_directory_congr hdirs hfind]
    exact ih h
  | case5 => cases h
  | case6 => cases h

theorem place_congr {d : Directory} {name : String} (hdirs : fs'.directories = fs.directories)
    (h : fs.place path = .entry d name) : fs'.place path = .entry d name := by
  rw [place] at h ⊢
  split at h
  next => cases h
  next hnul =>
    split at h
    next => cases h
    next hempty =>
      split at h
      next => cases h
      next hlong =>
        rw [if_neg hnul, if_neg hempty, if_neg hlong]
        exact descend_congr hdirs h

/-- The path stands for this file, whether there is one or not. -/
structure Names (fs : Files) (path key : String) : Prop where
  entry : ∃ d name, fs.place path = .entry d name ∧ name.utf8ByteSize ≤ longestName ∧ (d.child name).path = key
  unslashed : isSlashed path = false
  no_directory : key ∉ fs.directories

theorem Names.congr (h : fs.Names path key) (hdirs : fs'.directories = fs.directories) : fs'.Names path key := by
  obtain ⟨d, name, hplace, hname, hkey⟩ := h.entry
  exact ⟨⟨d, name, place_congr hdirs hplace, hname, hkey⟩, h.unslashed, hdirs ▸ h.no_directory⟩

theorem Names.open?_eq (h : fs.Names path key) :
    fs.open? path = if (fs.content? key).isSome then .ok (.file key) else .error .missing := by
  obtain ⟨d, name, hplace, hname, rfl⟩ := h.entry
  have hfinds := fs.find_finds d name
  simp only [open?, hplace]
  generalize fs.find d name = found at hfinds
  cases hfinds with
  | long hlong => omega
  | directory _ hdir => exact absurd hdir h.no_directory
  | file _ _ hfile => simp only [h.unslashed, hfile, if_true, Bool.false_eq_true, if_false]
  | missing _ _ hnone => simp only [hnone, Option.isSome_none, Bool.false_eq_true, if_false]

theorem names_of_open? (h : fs.open? path = .ok (.file key)) : fs.Names path key ∧ (fs.content? key).isSome = true := by
  rw [open?] at h
  split at h
  next => cases h
  next => cases h
  next d name hplace =>
    have hfinds := fs.find_finds d name
    generalize fs.find d name = found at hfinds h
    cases hfinds with
    | long => cases h
    | directory => cases h
    | missing => cases h
    | file hname hdir hfile =>
      simp only at h
      split at h
      next => cases h
      next hslash =>
        cases h
        exact ⟨⟨⟨d, name, hplace, hname, rfl⟩, eq_false_of_ne_true hslash, hdir⟩, hfile⟩

/-- Only a file can be read, also after other files have changed. -/
theorem read_eq_ok {opened : Opened} (hopen : fs.open? path = .ok opened) (hread : fs'.read opened = .ok bytes) :
    ∃ key content, opened = .file key ∧ fs.content? key = some content ∧
      bytes = (fs'.content? key).getD ByteArray.empty := by
  cases opened with
  | directory => cases hread
  | file key =>
    obtain ⟨content, hcontent⟩ := Option.isSome_iff_exists.mp (names_of_open? hopen).2
    exact ⟨key, content, rfl, hcontent, (Except.ok.inj hread).symm⟩

theorem create_ok (h : fs.create path = .ok (key, fs')) :
    fs.Names path key ∧ fs' = fs.put key ByteArray.empty := by
  rw [create] at h
  split at h
  next => cases h
  next => cases h
  next d name hplace =>
    split at h
    next => cases h
    next hslash =>
      have hfinds := fs.find_finds d name
      generalize fs.find d name = found at hfinds h
      cases hfinds with
      | long => cases h
      | directory => cases h
      | file hname hdir _ =>
        cases h
        exact ⟨⟨⟨d, name, hplace, hname, rfl⟩, eq_false_of_ne_true hslash, hdir⟩, rfl⟩
      | missing hname hdir _ =>
        cases h
        exact ⟨⟨⟨d, name, hplace, hname, rfl⟩, eq_false_of_ne_true hslash, hdir⟩, rfl⟩

/-- A path that nothing has does not stand for a file. -/
theorem Names.content?_of_not_exists (h : fs.Names path key) (hexists : fs.pathExists path = false) :
    fs.content? key = none := by
  rw [pathExists, h.open?_eq] at hexists
  cases hcontent : fs.content? key with
  | none => rfl
  | some bytes => simp [hcontent] at hexists

theorem Stores.open? (h : fs.Stores fs' key bytes) (hnames : fs.Names path key) :
    fs'.open? path = .ok (.file key) := by
  rw [(hnames.congr h.directories_eq).open?_eq, h.content_eq]
  rfl

end Files

end LempelZiv
