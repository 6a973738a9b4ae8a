import LempelZiv.Command.Run
import LempelZiv.Proofs.CommandSteps
import LempelZiv.Proofs.LawfulChunks
import LempelZiv.Proofs.Recovering
import LempelZiv.Proofs.SharedCompressor

namespace LempelZiv

/-- The ways in which a command packs its input. -/
inductive Packer where
  | frame
  | block
  deriving DecidableEq

namespace Packer

def extension : Packer → String
  | frame => Run.frameExtension
  | block => Run.blockExtension

/-- Gets `size` bytes back. A frame tells by itself where it ends. -/
def unpack (packed : ByteArray) (size : Nat) : Packer → Except Error ByteArray
  | frame => decompressFrame packed
  | block => decompress packed size

end Packer

/-- How a command packs, and between which paths. -/
def Command.packer? : Command → Option (Packer × Paths)
  | .compress paths .. => some (.frame, paths)
  | .block paths .. => some (.block, paths)
  | _ => none

/-- Whatever a new writer in memory has been given comes back out of the frame that it finishes. -/
theorem Writer.finish_decompresses {o : FrameOptions} {data : ByteArray} {w w' : Writer Memory}
    (hlt : ∀ n, o.contentSize = some n → n < 2 ^ 64)
    (hwrote : (if data.isEmpty then (.ok (), new ⟨⟨⟩, ByteArray.empty, 0⟩ o)
      else (new ⟨⟨⟩, ByteArray.empty, 0⟩ o).writeData data) = (.ok (), w))
    (hfinished : w.finish = (.ok (), w')) : decompressFrame w'.sink.held = .ok data := by
  have hpos := o.blockSize.bytes_pos
  have hnew : (new ⟨⟨⟩, ByteArray.empty, 0⟩ o : Writer Memory).Holds o ByteArray.empty .nothing :=
    new_holds (memory_reliable _) o
  have hholds : ∃ g, w.Holds o ByteArray.empty g ∧ g.Sized o.blockSize.bytes ∧ g.content = data := by
    split at hwrote
    next hempty =>
      cases hwrote
      refine ⟨.nothing, hnew, Gathered.nothing_sized hpos, ?_⟩
      rw [ByteArray.size_eq_zero_iff.mp (isEmpty_iff.mp hempty)]
      exact ByteArray.append_empty
    next =>
      obtain ⟨w₁, hok, h₁⟩ := writeData_holds data hnew (Gathered.nothing_sized hpos)
      rw [hok] at hwrote
      cases hwrote
      refine ⟨_, h₁, Gathered.step_sized (Gathered.nothing_sized hpos) _, ?_⟩
      rw [Gathered.step_content hpos]
      exact ByteArray.empty_append
  obtain ⟨g, hg, hsized, rfl⟩ := hholds
  obtain ⟨⟨frame, hheld, hdecodes⟩, _⟩ := close_leaves hg hsized hlt (@conclude_passed Memory w w' _ .finish hfinished)
  have hframe := hdecodes ByteArray.empty
  rw [ByteArray.append_empty] at hframe
  rw [hheld, ByteArray.empty_append, hframe]

/-- What a compressor makes of an input decompresses to it, without any room to spare. -/
theorem Compressor.decompress_of_compress_ok {c : Compressor} {input packed : ByteArray} {level : Nat}
    (hleast : minBlockSize ≤ c.chunkSize) (hmost : c.chunkSize ≤ maxBlockSize) (hsize : input.size < sizeLimit)
    (h : (c.compress input level).1 = .ok packed) : decompress packed input.size = .ok input := by
  obtain ⟨hmin, _, hlevel⟩ := compress_accepts h
  obtain ⟨_, _, _, hcovers, hcompress⟩ := compress_covers hleast hmost hmin hlevel
  cases hcompress.symm.trans h
  exact hcovers.decompress (by decide) hsize (Nat.le_refl _)

/-- A file has been packed into a file. The output of a frame is made before the input is read, so that nothing
is left of a file that is its own output. Two keys are two files: there are no links to the input, and a path from the
root never leads to a file below the current directory. -/
structure Packs (packer : Packer) (paths : Paths) (fs fs' : Files) (key outKey : String)
    (bytes packed : ByteArray) : Prop where
  opens : fs.open? paths.input = .ok (.file key)
  content_eq : fs.content? key = some bytes
  output_opens : fs'.open? (paths.target packer.extension) = .ok (.file outKey)
  stores : fs.Stores fs' outKey packed
  unpacks : packer = .block ∨ outKey ≠ key → packer.unpack packed bytes.size = .ok bytes
  loses : packer = .frame → outKey = key → packer.unpack packed bytes.size = .ok ByteArray.empty

namespace Run

/-- Packs a file if it succeeds, and changes no file that there was unless it is forced to, whatever comes of it. -/
def PacksFile (packer : Packer) (paths : Paths) (m : Run Unit) (s : Session) : Prop :=
  m.Ensures s
    (fun _ fs => (paths.force = false → s.files.Keeps fs) ∧
      (paths.input ≠ Arguments.dash → paths.target packer.extension ≠ Arguments.dash →
        ∃ key outKey bytes packed, Packs packer paths s.files fs key outKey bytes packed))
    (fun fs => paths.force = false → s.files.Keeps fs)

variable {s : Session} {fs : Files} {failed : Files → Prop}

/-- What is declared is the size of a file, or of a directory. -/
theorem declaredSize_ensures (hs : s.files = fs) (input : String) (h : failed fs)
    (hsizes : ∀ key bytes, fs.content? key = some bytes → bytes.size < sizeLimit) :
    (declaredSize input).Ensures s (fun size fs' => (∀ n, size = some n → n < sizeLimit) ∧ fs' = fs) failed := by
  subst hs
  rw [declaredSize]
  split
  next => exact ⟨fun n hn => (nomatch hn), rfl⟩
  next =>
    refine get_ensures ?_
    split
    next key hopen =>
      refine ⟨?_, rfl⟩
      rintro _ ⟨⟩
      cases hcontent : s.files.content? key with
      | none => decide
      | some bytes => exact hsizes key bytes hcontent
    next =>
      refine ⟨?_, rfl⟩
      rintro _ ⟨⟩
      decide
    next => exact h

theorem abandon_ensures {done : Unit → Files → Prop} {path : String} {force : Bool} {earlier : ByteArray} {t : Target}
    (h : Puts fs path force earlier t s.files) (hfailed : ∀ bytes fs', Puts fs path force bytes t fs' → failed fs')
    (w : Writer Memory) (e : CommandError) : (abandon w t e).Ensures s done failed := by
  rw [abandon]
  refine (notes_ensures rfl _).bind fun _ s₁ h₁ => ?_
  refine (deliver_ensures (h₁ ▸ h) _).bind fun _ s₂ h₂ => ?_
  exact throw_ensures (hfailed _ _ h₂)

/-- The output that a packing command has written is a file with what has been packed into it. -/
theorem Puts.packs {fs' : Files} {packer : Packer} {paths : Paths} {t : Target} {key : String}
    {bytes packed : ByteArray} (h : Puts fs (paths.target packer.extension) paths.force packed t fs')
    (houtput : paths.target packer.extension ≠ Arguments.dash) (hopen : fs.open? paths.input = .ok (.file key))
    (hcontent : fs.content? key = some bytes)
    (hunpacks : packer.unpack packed bytes.size =
      .ok (if packer = .frame ∧ t = .file key then ByteArray.empty else bytes)) :
    ∃ key outKey bytes packed, Packs packer paths fs fs' key outKey bytes packed := by
  cases h with
  | standard hdash => exact absurd hdash houtput
  | @file outKey _ _ names _ stores =>
    refine ⟨key, outKey, bytes, packed, hopen, hcontent, stores.open? names, stores, ?_, ?_⟩
    · intro hother
      rw [hunpacks, if_neg]
      rintro ⟨rfl, ⟨⟩⟩
      simp at hother
    · rintro rfl rfl
      rw [hunpacks, if_pos ⟨rfl, rfl⟩]

theorem frameOptions_undeclared {level blockSize : Nat} {variant : Variant} {contentChecksum blockChecksum : Bool}
    {o : FrameOptions} (h : frameOptions level variant blockSize contentChecksum blockChecksum = .ok o) :
    o.contentSize = none := by
  simp only [frameOptions, bind_eq_ok_iff, pure_eq_ok_iff] at h
  obtain ⟨base, hbase, _, _, rfl⟩ := h
  change base.contentSize = none
  rw [FrameOptions.ofLevel] at hbase
  cases hlevel : Level.ofNat level with
  | error e => rw [hlevel] at hbase; cases hbase
  | ok l =>
    rw [hlevel] at hbase
    cases hbase
    rfl

theorem compress_packsFile (paths : Paths) {o : FrameOptions} (contentSize : Bool) (hundeclared : o.contentSize = none)
    (hsizes : ∀ key bytes, s.files.content? key = some bytes → bytes.size < sizeLimit) :
    PacksFile .frame paths (compress paths o contentSize) s := by
  rw [PacksFile, compress]
  generalize hs : s.files = fs at hsizes ⊢
  have hrefl : paths.force = false → fs.Keeps fs := fun _ => .refl _
  refine optional_ensures (fun o fs' => (∀ n, o.contentSize = some n → n < sizeLimit) ∧ fs' = fs)
    (declaredSize_ensures hs paths.input hrefl hsizes) ⟨?_, hs⟩ fun o s₁ ⟨hdeclared, h₁⟩ => ?_
  · rw [hundeclared]
    exact fun n hn => (nomatch hn)
  refine (outputName_ensures h₁ paths frameExtension).bind fun name s₂ ⟨hname, h₂⟩ => ?_
  refine (openInput_ensures h₂ paths.input hrefl).bind fun origin s₃ ⟨hopened, h₃⟩ => ?_
  refine (openOutput_ensures h₃ name paths.force hrefl).bind fun t s₄ h₄ => ?_
  subst hname
  -- The input is read when the output has been made. Where both are one file, it is empty by then.
  refine (content_ensures rfl origin).bind fun r s₅ ⟨hread, h₅⟩ => ?_
  have hkeeps : ∀ bytes fs', Puts fs (paths.target frameExtension) paths.force bytes t fs' →
      paths.force = false → fs.Keeps fs' := fun _ _ h => h.keeps
  cases r with
  | error e => exact abandon_ensures (h₅ ▸ h₄) hkeeps _ _
  | ok read =>
    simp only
    split
    next e w hwrote => exact abandon_ensures (h₅ ▸ h₄) hkeeps w _
    next w hwrote =>
      refine (notes_ensures h₅ _).bind fun _ s₆ h₆ => ?_
      refine (deliver_ensures (h₆ ▸ h₄) _).bind fun _ s₇ h₇ => ?_
      refine (ofLibrary_ensures rfl _ (hkeeps _ _ h₇)).bind fun _ s₈ ⟨hfinished, h₈⟩ => ?_
      refine (note_ensures h₈ _).imp fun _ fs' h₉ => ?_
      subst h₉
      refine ⟨hkeeps _ _ h₇, fun hinput houtput => ?_⟩
      obtain ⟨opened, horigin, hopen⟩ := hopened hinput
      obtain ⟨key, bytes, rfl, hcontent, hbytes⟩ := Files.read_eq_ok hopen (hread opened horigin).symm
      rw [h₄.content?_eq hcontent, Option.getD_some] at hbytes
      refine h₇.packs houtput hopen hcontent ?_
      have hdecoded := Writer.finish_decompresses hdeclared hwrote (Prod.ext hfinished rfl)
      rw [Packer.unpack, hdecoded, hbytes]
      simp only [true_and]

theorem block_packsFile (paths : Paths) (level : Nat) (variant : Variant) (threads chunkSize : Nat)
    (hsizes : ∀ key bytes, s.files.content? key = some bytes → bytes.size < sizeLimit) :
    PacksFile .block paths (block paths level variant threads chunkSize) s := by
  rw [PacksFile, block]
  generalize hs : s.files = fs at hsizes ⊢
  have hrefl : paths.force = false → fs.Keeps fs := fun _ => .refl _
  refine (outputName_ensures hs paths blockExtension).bind fun name s₁ ⟨hname, h₁⟩ => ?_
  refine (readAll_ensures h₁ paths.input hrefl).bind fun data s₂ ⟨hread, h₂⟩ => ?_
  refine (ofLibrary_ensures h₂ _ hrefl).bind fun c s₃ ⟨hnew, h₃⟩ => ?_
  refine (notes_ensures h₃ _).bind fun _ s₄ h₄ => ?_
  refine (ofLibrary_ensures h₄ _ hrefl).bind fun packed s₅ ⟨hpacked, h₅⟩ => ?_
  refine (openOutput_ensures h₅ name paths.force hrefl).bind fun t s₆ h₆ => ?_
  subst hname
  refine (deliver_ensures h₆ packed).bind fun _ s₇ h₇ => ?_
  refine (note_ensures rfl _).imp fun _ fs' h₈ => ?_
  subst h₈
  refine ⟨h₇.keeps, fun hinput houtput => ?_⟩
  obtain ⟨opened, hopen, hdata⟩ := hread hinput
  obtain ⟨key, bytes, rfl, hcontent, hbytes⟩ := Files.read_eq_ok hopen hdata
  rw [hcontent, Option.getD_some] at hbytes
  subst hbytes
  refine h₇.packs houtput hopen hcontent ?_
  obtain ⟨hleast, hmost, hchunk, _⟩ := Compressor.new_eq_ok hnew
  have hstart := c.start_like.chunkSize_eq.trans hchunk
  exact Compressor.decompress_of_compress_ok (hstart ▸ hleast) (hstart ▸ hmost) (hsizes key data hcontent) hpacked

theorem command_packsFile {c : Command} {packer : Packer} {paths : Paths} (hc : c.packer? = some (packer, paths))
    (hsizes : ∀ key bytes, s.files.content? key = some bytes → bytes.size < sizeLimit) :
    PacksFile packer paths (command c) s := by
  have hrefl : paths.force = false → s.files.Keeps s.files := fun _ => .refl _
  cases c with
  | decompress => cases hc
  | info => cases hc
  | unblock => cases hc
  | compress paths' level variant blockSize contentChecksum blockChecksum contentSize =>
    cases hc
    rw [PacksFile, command]
    refine (ofLibrary_ensures rfl _ hrefl).bind fun o s₁ ⟨ho, h₁⟩ => ?_
    rw [← h₁] at hsizes ⊢
    exact compress_packsFile paths contentSize (frameOptions_undeclared ho) hsizes
  | block paths' level variant threads chunkSize =>
    cases hc
    rw [PacksFile, command]
    refine (ofLibrary_ensures rfl _ hrefl).bind fun _ s₁ ⟨_, h₁⟩ => ?_
    rw [← h₁] at hsizes ⊢
    exact block_packsFile paths level variant threads chunkSize hsizes

end Run

/-- A command that packs a file and succeeds leaves a file out of which its bytes can be had back, and without
force all files that there were are as they were. Only a frame that goes into the file it is made of is empty. -/
theorem packing_loses_only_a_frame_in_place (i : Invocation) {packer : Packer} {paths : Paths}
    (hcommand : i.command.packer? = some (packer, paths)) (s : Session)
    (hsizes : ∀ key bytes, s.files.content? key = some bytes → bytes.size < sizeLimit) :
    (paths.force = false → s.files.Keeps (i.run s).2.files) ∧
    ((i.run s).1 = .ok () → paths.input ≠ Arguments.dash → paths.target packer.extension ≠ Arguments.dash →
      ∃ key outKey bytes packed, Packs packer paths s.files (i.run s).2.files key outKey bytes packed) := by
  have hpacks := Run.command_packsFile hcommand hsizes
  rw [Run.PacksFile, Run.Ensures] at hpacks
  rw [Invocation.run]
  rcases hran : (Run.command i.command).run.run s with ⟨e | u, s'⟩
  · rw [hran] at hpacks
    refine ⟨hpacks, ?_⟩
    intro hok
    cases hok
  · rw [hran] at hpacks
    exact ⟨hpacks.1, fun _ => hpacks.2⟩

theorem packing_loses_only_a_frame_in_place_of_three_bytes :
    let s : Session := { files := ⟨[("a", ⟨#[97, 98, 99]⟩)], []⟩, input := ByteArray.empty }
    let i : Invocation := ⟨0, 0, .compress ⟨"a", some "b", false⟩ 6 .improved 4 true false true⟩
    (i.run s).1 = .ok () ∧ (i.run s).2.files.content? "a" = some ⟨#[97, 98, 99]⟩ ∧
      ∃ packed, (i.run s).2.files.content? "b" = some packed ∧ decompressFrame packed = .ok ⟨#[97, 98, 99]⟩ := by
  intro s i
  have hrun : (i.run s).1 = .ok () ∧ (i.run s).2.files.open? "b" = .ok (.file "b") := by
    rw [Invocation.run, Run.command]
    unfold Run.compress
    -- The quotient of two sizes is only shown, and cannot be evaluated.
    generalize percentage = shown
    cbv
  have hsizes : ∀ key bytes, s.files.content? key = some bytes → bytes.size < sizeLimit := by
    intro key bytes h
    change List.lookup key [("a", _)] = some bytes at h
    rw [Files.lookup_cons_eq_ite] at h
    split at h
    next =>
      cases h
      decide
    next => cases h
  obtain ⟨hkeeps, hpacks⟩ :=
    @packing_loses_only_a_frame_in_place i .frame ⟨"a", some "b", false⟩ rfl s hsizes
  obtain ⟨key, outKey, bytes, packed, h⟩ := hpacks hrun.1 (by decide) (by decide)
  have hopen : s.files.open? "a" = .ok (.file "a") := by cbv
  cases hopen.symm.trans h.opens
  cases hrun.2.symm.trans h.output_opens
  cases h.content_eq
  exact ⟨hrun.1, hkeeps rfl _ _ rfl, packed, h.stores.content_eq, h.unpacks (.inr (by decide))⟩

/-- The input is emptied by the making of the output, before it is read. -/
theorem frame_in_place_is_empty :
    let s : Session := { files := ⟨[("a", ⟨#[97, 98, 99]⟩)], []⟩, input := ByteArray.empty }
    let i : Invocation := ⟨0, 0, .compress ⟨"a", some "a", true⟩ 6 .improved 4 false false false⟩
    (i.run s).1 = .ok () ∧ s.files.open? "a" = .ok (.file "a") ∧ (i.run s).2.files.open? "a" = .ok (.file "a") ∧
      (s.files.content? "a", ((i.run s).2.files.content? "a").map decompressFrame) =
        (some ⟨#[97, 98, 99]⟩, some (.ok ByteArray.empty)) := by
  cbv

end LempelZiv
