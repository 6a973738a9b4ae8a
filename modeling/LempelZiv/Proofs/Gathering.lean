import LempelZiv.Frame.Writer
import LempelZiv.Proofs.Records

namespace LempelZiv

/-- The full blocks at the start of the data, and what is left. -/
def cutBlocks (most : Nat) (data : ByteArray) : List ByteArray × ByteArray :=
  if _h : 0 < most ∧ most ≤ data.size then
    let c := cutBlocks most (dropBytes data most)
    (data.extract 0 most :: c.1, c.2)
  else ([], data)
  termination_by data.size
  decreasing_by
    rw [size_dropBytes]
    omega

theorem cutBlocks_of_lt {most : Nat} {data : ByteArray} (h : data.size < most) :
    cutBlocks most data = ([], data) := by
  rw [cutBlocks, dif_neg (by omega)]

theorem cutBlocks_append {most : Nat} {a : ByteArray} (b : ByteArray) (hpos : 0 < most)
    (ha : a.size = most) :
    cutBlocks most (a ++ b) = (a :: (cutBlocks most b).1, (cutBlocks most b).2) := by
  have hsize : most ≤ (a ++ b).size := by
    rw [ByteArray.size_append]
    omega
  rw [cutBlocks, dif_pos ⟨hpos, hsize⟩, ← ha, dropBytes_append, ByteArray.extract_append_eq_left rfl]

/-- A call that hands data to a writer or has it write what it holds. -/
inductive Call where
  | write (data : ByteArray)
  | flushBlock
  | flush

def Call.data : Call → ByteArray
  | write data => data
  | flushBlock => ByteArray.empty
  | flush => ByteArray.empty

/-- The content of some calls: the blocks that are complete, and what waits for more. -/
structure Gathered where
  blocks : List ByteArray
  rest : ByteArray

namespace Gathered

def nothing : Gathered := ⟨[], ByteArray.empty⟩

def content (g : Gathered) : ByteArray := joined g.blocks ++ g.rest

/-- What waits becomes a block, too. -/
def flushed (g : Gathered) : Gathered :=
  if g.rest.isEmpty then g else ⟨g.blocks ++ [g.rest], ByteArray.empty⟩

def step (most : Nat) (g : Gathered) : Call → Gathered
  | .write data =>
    let c := cutBlocks most (g.rest ++ data)
    ⟨g.blocks ++ c.1, c.2⟩
  | .flushBlock => g.flushed
  | .flush => g.flushed

/-- Every block has a size that a frame allows, and less than a block waits. -/
structure Sized (g : Gathered) (most : Nat) : Prop where
  blocks : ∀ b ∈ g.blocks, 0 < b.size ∧ b.size ≤ most
  rest_lt : g.rest.size < most

theorem cutBlocks_sized {most : Nat} (hpos : 0 < most) (data : ByteArray) :
    Sized ⟨(cutBlocks most data).1, (cutBlocks most data).2⟩ most ∧
      joined (cutBlocks most data).1 ++ (cutBlocks most data).2 = data := by
  induction hn : data.size using Nat.strongRecOn generalizing data with
  | ind n ih =>
    by_cases h : data.size < most
    · rw [cutBlocks_of_lt h]
      exact ⟨⟨fun b hb => (nomatch hb), h⟩, ByteArray.empty_append⟩
    · have hcut : data = data.extract 0 most ++ dropBytes data most :=
        (extract_zero_append_dropBytes (by omega)).symm
      have hfull : (data.extract 0 most).size = most := by
        rw [ByteArray.size_extract]
        omega
      obtain ⟨⟨hblocks, hrest⟩, hjoined⟩ :=
        ih (dropBytes data most).size (by rw [size_dropBytes]; omega) _ rfl
      rw [hcut, cutBlocks_append _ hpos hfull]
      refine ⟨⟨?_, hrest⟩, ?_⟩
      · intro b hb
        rcases List.mem_cons.mp hb with rfl | hb
        · omega
        · exact hblocks b hb
      · rw [joined, ByteArray.append_assoc, hjoined]

variable {g : Gathered} {most : Nat}

theorem flushed_rest : g.flushed.rest = ByteArray.empty := by
  rw [flushed]
  split
  next h => exact ByteArray.size_eq_zero_iff.mp (isEmpty_iff.mp h)
  next => rfl

theorem flushed_blocks : g.flushed.blocks = g.blocks ++ if g.rest.isEmpty then [] else [g.rest] := by
  rw [flushed]
  split
  next => exact (List.append_nil _).symm
  next => rfl

theorem flushed_content : g.flushed.content = g.content := by
  rw [flushed]
  split
  next => rfl
  next => simp only [content, joined_append, joined, ByteArray.append_empty]

theorem joined_flushed : joined g.flushed.blocks = g.content := by
  have h := @flushed_content g
  rwa [content, flushed_rest, ByteArray.append_empty] at h

theorem flushed_sized (h : g.Sized most) : g.flushed.Sized most := by
  rw [flushed]
  split
  next => exact h
  next hrest =>
    rw [isEmpty_iff] at hrest
    have hlt := h.rest_lt
    refine ⟨?_, (by omega : 0 < most)⟩
    intro b hb
    rcases List.mem_append.mp hb with hb | hb
    · exact h.blocks b hb
    · rw [List.mem_singleton.mp hb]
      omega

theorem step_content (hpos : 0 < most) (c : Call) : (g.step most c).content = g.content ++ c.data := by
  cases c with
  | write data =>
    have hcut := (cutBlocks_sized hpos (g.rest ++ data)).2
    rw [step, content, content, Call.data, joined_append, ByteArray.append_assoc, hcut,
      ByteArray.append_assoc]
  | flushBlock => rw [step, flushed_content, Call.data, ByteArray.append_empty]
  | flush => rw [step, flushed_content, Call.data, ByteArray.append_empty]

theorem step_sized (h : g.Sized most) (c : Call) : (g.step most c).Sized most := by
  have hpos : 0 < most := Nat.lt_of_le_of_lt (Nat.zero_le _) h.rest_lt
  cases c with
  | write data =>
    obtain ⟨hblocks, hrest⟩ := (cutBlocks_sized hpos (g.rest ++ data)).1
    refine ⟨?_, hrest⟩
    intro b hb
    rcases List.mem_append.mp hb with hb | hb
    · exact h.blocks b hb
    · exact hblocks b hb
  | flushBlock => exact flushed_sized h
  | flush => exact flushed_sized h

theorem foldl_step_content (hpos : 0 < most) (calls : List Call) :
    (calls.foldl (step most) g).content = g.content ++ joined (calls.map Call.data) := by
  induction calls generalizing g with
  | nil => exact ByteArray.append_empty.symm
  | cons c calls ih =>
    rw [List.foldl_cons, ih, step_content hpos, List.map_cons, joined, ByteArray.append_assoc]

theorem foldl_step_sized (h : g.Sized most) (calls : List Call) :
    (calls.foldl (step most) g).Sized most := by
  induction calls generalizing g with
  | nil => exact h
  | cons c calls ih => exact ih (step_sized h c)

/-- What a writer of blocks of up to `most` bytes has gathered after some calls. -/
def after (most : Nat) (calls : List Call) : Gathered := calls.foldl (step most) nothing

theorem nothing_sized (hpos : 0 < most) : nothing.Sized most := ⟨fun _ hb => (nomatch hb), hpos⟩

theorem after_sized (hpos : 0 < most) (calls : List Call) : (after most calls).Sized most :=
  foldl_step_sized (nothing_sized hpos) calls

/-- Some calls gather the data that they were given, in order. -/
theorem after_content (hpos : 0 < most) (calls : List Call) :
    (after most calls).content = joined (calls.map Call.data) := by
  have hnothing : nothing.content = ByteArray.empty := ByteArray.append_empty
  rw [after, foldl_step_content hpos, hnothing, ByteArray.empty_append]

end Gathered

end LempelZiv
