import LempelZiv.Proofs.Draining
import LempelZiv.Proofs.Writing

namespace LempelZiv

/-- How the calls on a writer come to their end. -/
inductive Ending where
  | close
  | finish

def Writer.conclude {δ : Type} [Device δ] (w : Writer δ) : Ending → Outcome (Writer δ)
  | .close => w.close
  | .finish => w.finish

theorem Writer.conclude_ok {δ : Type} [Device δ] {w w' : Writer δ} (h : w.close = (.ok (), w'))
    (e : Ending) :
    w.conclude e = (.ok (), w') := by
  cases e with
  | close => exact h
  | finish =>
    rw [conclude, finish]
    simp only [h]

/-- The blocks that a writer writes are independent, so each stands for its content behind any other. -/
theorem FrameOptions.records_decode (o : FrameOptions) {blocks : List ByteArray}
    (h : ∀ b ∈ blocks, 0 < b.size ∧ b.size ≤ o.blockSize.bytes) (out : ByteArray) :
    o.descriptor.Decodes out (blocks.map o.record) (out ++ joined blocks) := by
  induction blocks generalizing out with
  | nil =>
    rw [joined, ByteArray.append_empty]
    exact .nil
  | cons b blocks ih =>
    obtain ⟨hpos, hle⟩ := h b List.mem_cons_self
    obtain ⟨_, hfits, hadds⟩ := o.record_adds hpos hle
    have hlater := ih (fun b hb => h b (List.mem_cons_of_mem _ hb)) (out ++ b)
    rw [ByteArray.append_assoc] at hlater
    exact .cons hfits hadds hlater

theorem Reader.drainBy_frame {φ : Type} [Feed φ] {d : Descriptor} {bs : List Record}
    {data tail : ByteArray} {feed : φ} {sizes : Nat → Nat} (hfeed : Feed.Reliable feed)
    (hdecodes : d.Decodes ByteArray.empty bs data)
    (hsize : ∀ n, d.wrapped.contentSize = some n → n = data.size) (hsizes : ∀ i, 0 < sizes i) :
    ∃ pieces r, (new ⟨feed, d.frame bs data ++ tail, 0⟩).drainBy sizes ByteArray.empty 0 =
      ⟨data, pieces, none, r⟩ ∧ r.phase = .ended ∧ r.source.rest = tail := by
  have hrest : (⟨feed, d.frame bs data ++ tail, 0⟩ : Source φ).rest = d.frame bs data ++ tail :=
    dropBytes_zero _
  have hframed := Descriptor.frame_framed tail hdecodes hsize
  rw [← hrest] at hframed
  exact drainBy_framed hfeed hframed hsizes

theorem decompressFrame_frame {d : Descriptor} {bs : List Record} {data : ByteArray} (tail : ByteArray)
    (hdecodes : d.Decodes ByteArray.empty bs data)
    (hsize : ∀ n, d.wrapped.contentSize = some n → n = data.size) :
    decompressFrame (d.frame bs data ++ tail) = .ok data :=
  decompressFrame_framed (Descriptor.frame_framed tail hdecodes hsize)

/-- Whatever the calls that hand over the data, and however the sink takes it, the frame in the sink reads
as the data, in pieces of any sizes, and nothing behind the frame is read. -/
theorem frame_round_trip {δ φ : Type} [Device δ] [Feed φ] {sink : Sink δ} {options : FrameOptions}
    {calls : List Call} {data : ByteArray} (ending : Ending) (hdevice : Device.Reliable sink.device)
    (hlt : data.size < 2 ^ 48) (hdata : joined (calls.map Call.data) = data)
    (hsize : ∀ n, options.contentSize = some n → n = data.size) :
    ∃ w frame, ((Writer.new sink options).performAll calls).andThen (Writer.conclude · ending) =
      (.ok (), w) ∧
      w.sink.held = sink.held ++ frame ∧ ∀ tail, decompressFrame (frame ++ tail) = .ok data ∧
        ∀ (feed : φ) (sizes : Nat → Nat), Feed.Reliable feed → (∀ i, 0 < sizes i) →
          ∃ pieces r, (Reader.new ⟨feed, frame ++ tail, 0⟩).drainBy sizes ByteArray.empty 0 =
            ⟨data, pieces, none, r⟩ ∧ r.phase = .ended ∧ r.source.rest = tail := by
  have hpos := options.blockSize.bytes_pos
  have hcontent := Gathered.after_content hpos calls
  have hsized := Gathered.after_sized hpos calls
  obtain ⟨w₁, hperformed, hholds⟩ := Writer.performAll_holds calls (Writer.new_holds hdevice options)
    (Gathered.nothing_sized hpos)
  rw [← Gathered.after] at hholds
  generalize Gathered.after options.blockSize.bytes calls = g at *
  rw [hdata] at hcontent
  obtain ⟨w, hclosed, hheld⟩ := Writer.close_holds hholds hsized (by rwa [hcontent])
  have hjoined : joined g.flushed.blocks = data := Gathered.joined_flushed.trans hcontent
  have hdecodes := options.records_decode (Gathered.flushed_sized hsized).blocks ByteArray.empty
  rw [ByteArray.empty_append] at hdecodes
  have hdeclared : ∀ n, options.descriptor.wrapped.contentSize = some n →
    n = (joined g.flushed.blocks).size := by
    intro n hn
    obtain ⟨m, hm, rfl⟩ := Option.map_eq_some_iff.mp hn
    rw [hjoined, hsize m hm]
    exact Nat.mod_eq_of_lt (by omega)
  refine ⟨w, options.frame g.flushed.blocks, ?_, hheld, ?_⟩
  · rw [hperformed, Outcome.andThen_ok, Writer.conclude_ok hclosed]
  · intro tail
    rw [FrameOptions.frame, ← hjoined]
    refine ⟨decompressFrame_frame tail hdecodes hdeclared, ?_⟩
    intro feed sizes hfeed hsizes
    exact Reader.drainBy_frame hfeed hdecodes hdeclared hsizes

theorem frame_round_trip_of_pieces :
    ∃ w frame,
      ((Writer.new ⟨Memory.mk, ByteArray.empty, 0⟩ { contentChecksum := true, contentSize := some 4 }).performAll
        [.write ⟨#[97, 98, 99]⟩, .flushBlock, .write ⟨#[100]⟩, .flush]).andThen
          (Writer.conclude · .finish) = (.ok (), w) ∧
      w.sink.held = ByteArray.empty ++ frame ∧ ∀ tail,
        decompressFrame (frame ++ tail) = .ok ⟨#[97, 98, 99, 100]⟩ ∧
        ∀ (feed : Steady) (sizes : Nat → Nat), Feed.Reliable feed → (∀ i, 0 < sizes i) →
          ∃ pieces r, (Reader.new ⟨feed, frame ++ tail, 0⟩).drainBy sizes ByteArray.empty 0 =
            ⟨⟨#[97, 98, 99, 100]⟩, pieces, none, r⟩ ∧ r.phase = .ended ∧ r.source.rest = tail :=
  frame_round_trip .finish (memory_reliable _) (by decide) (by decide) (by decide)

end LempelZiv
