import LempelZiv.Proofs.Draining
import LempelZiv.Proofs.NearHistory

namespace LempelZiv

/-- What is kept of the output ends in all the bytes that a match may reach. -/
def KeepsReach (keep : ByteArray → ByteArray) : Prop :=
  ∀ out, lastBytes maxDistance (keep out) = lastBytes maxDistance out

theorem keepsReach_id : KeepsReach id := fun _ => rfl

theorem keepsReach_lastBytes {n : Nat} (hn : maxDistance ≤ n) : KeepsReach (lastBytes n) := by
  intro out
  have hstart : out.size - n + (min n out.size - maxDistance) = out.size - maxDistance := by
    omega
  rw [lastBytes, size_lastBytes, lastBytes, dropBytes_dropBytes _ (Nat.sub_le _ _), hstart, lastBytes]

/-- The error in an outcome that is one. -/
def failure {α : Type} : Except Error α → Option Error
  | .ok _ => none
  | .error e => some e

namespace Reader

variable {φ : Type} {r : Reader φ}

/-- The same outcome, but that the reader has other decoded bytes in its hands. -/
def Step.holding {n : Nat} {α : Type} (pending : ByteArray) (pos : Nat) :
    Step r n α → Step { r with pending := pending, pos := pos } n α
  | .done value next h => .done value { next with pending := pending, pos := pos } h
  | .failed e next h => .failed e { next with pending := pending, pos := pos } h

theorem left_le_of_word {r₁ : Reader φ} (h : r₁.source.left + 4 ≤ r.source.left) :
    r₁.source.left ≤ r.source.left :=
  Nat.le_of_add_right_le h

theorem left_le_of_failed {r₁ r₂ : Reader φ} (h₁ : r₁.source.left + 4 ≤ r.source.left)
    (h₂ : r₂.source.left ≤ r₁.source.left) : r₂.source.left ≤ r.source.left :=
  Nat.le_trans h₂ (left_le_of_word h₁)

theorem left_le_of_done {r₁ r₂ : Reader φ} (h₁ : r₁.source.left + 4 ≤ r.source.left)
    (h₂ : r₂.source.left + 0 ≤ r₁.source.left) : r₂.source.left + 4 ≤ r.source.left :=
  Nat.le_trans (Nat.add_le_add_right h₂ 4) h₁

variable [Feed φ]

/-- Reads a block behind the content `out`, of which its matches reach what `keep` leaves. The value is what the
block adds; there is none at the end mark. -/
def nextContent (r : Reader φ) (keep : ByteArray → ByteArray) (out : ByteArray) : Step r 4 (Option ByteArray) :=
  match r.takeWord with
  | .failed e r1 h1 => .failed e r1 h1
  | .done word r1 h1 =>
    if word = 0 then
      match r1.checkContent with
      | .failed e r2 h2 => .failed e r2 (left_le_of_failed h1 h2)
      | .done () r2 h2 => .done none r2 (left_le_of_done h1 h2)
    else
      let stored := storedFlag ≤ word
      let n := word % storedFlag
      let most := r1.descriptor.blockSize.bytes
      if most < n then .failed (.frame .oversizedBlock) r1 (left_le_of_word h1)
      else
        match r1.takePayload n with
        | .failed e r2 h2 => .failed e r2 (left_le_of_failed h1 h2)
        | .done payload r2 h2 =>
          let history := if r2.descriptor.independent then ByteArray.empty else keep out
          match (if stored then (.ok payload.size, history ++ payload)
              else decompressInto payload history most : Except Error Nat × ByteArray) with
          | (.error e, _) => .failed e r2 (left_le_of_failed h1 h2)
          | (.ok count, decoded) =>
            let more := dropBytes decoded history.size
            .done (some more) { r2.note (.block (n + 4) count stored) with
              phase := .begun
              digest := r2.digest.map fun x => x.update more
              produced := r2.produced + count } (left_le_of_done h1 h2)

/-- Reads blocks behind the content `out` to the end of the frame: all of the content, or what comes before an
error. -/
def contentFrom (r : Reader φ) (keep : ByteArray → ByteArray) (out : ByteArray) : ByteArray × Option Error :=
  match r.nextContent keep out with
  | .failed e _ _ => (out, some e)
  | .done none _ _ => (out, none)
  | .done (some more) next _ => contentFrom next keep (out ++ more)
  termination_by r.source.left

/-- The content of the frame at the start of `src`, by a reader that keeps as much of its output as `keep` leaves. -/
def contentBy (keep : ByteArray → ByteArray) (src : ByteArray) : ByteArray × Option Error :=
  match (new ⟨Steady.mk, src, 0⟩).readHeader with
  | .failed e _ _ => (ByteArray.empty, some e)
  | .done () r _ => r.contentFrom keep ByteArray.empty

section Holding

variable (pending : ByteArray) (pos : Nat)

omit [Feed φ] in
theorem checkSize_holding {r₁ : Reader φ} (h : r₁.source.left ≤ r.source.left) :
    checkContent.checkSize { r with pending := pending, pos := pos } { r₁ with pending := pending, pos := pos } h =
      (checkContent.checkSize r r₁ h).holding pending pos := by
  unfold checkContent.checkSize
  cases r₁.descriptor.contentSize with
  | none => rfl
  | some declared =>
    by_cases hequal : declared = r₁.produced
    · simp only [Step.holding, if_pos hequal]
    · simp only [Step.holding, if_neg hequal]

theorem take_holding (n : Nat) :
    take { r with pending := pending, pos := pos } n = (r.take n).holding pending pos := by
  unfold take
  cases r.source.fetch n with
  | got bytes source left_eq => rfl
  | broken error rest left_le => rfl

theorem takeWord_holding :
    takeWord { r with pending := pending, pos := pos } = r.takeWord.holding pending pos := by
  rw [takeWord, takeWord, take_holding]
  cases r.take 4 with
  | done value next left_le => rfl
  | failed error next left_le => rfl

theorem takePayload_holding (n : Nat) :
    takePayload { r with pending := pending, pos := pos } n = (r.takePayload n).holding pending pos := by
  rw [takePayload, takePayload, take_holding]
  cases r.take n with
  | failed error next left_le => rfl
  | done payload next left_le =>
    have hword := @takeWord_holding φ { next with block := payload } _ pending pos
    simp only [Step.holding]
    by_cases hchecked : next.descriptor.blockChecksum
    case neg => simp only [if_neg hchecked]
    simp only [if_pos hchecked, hword]
    cases takeWord { next with block := payload } with
    | failed error next left_le => rfl
    | done expected next left_le =>
      by_cases hequal : expected = (xxh32 0 payload).toNat
      · simp only [Step.holding, if_pos hequal]
      · simp only [Step.holding, if_neg hequal]

theorem checkContent_holding :
    checkContent { r with pending := pending, pos := pos } = r.checkContent.holding pending pos := by
  have hword := @takeWord_holding φ { r with digest := none } _ pending pos
  rw [checkContent, checkContent]
  dsimp only at hword ⊢
  split
  next => exact checkSize_holding pending pos (Nat.le_refl _)
  next digest _ =>
    rw [hword]
    cases takeWord { r with digest := none } with
    | failed error next left_le => rfl
    | done expected next left_le =>
      by_cases hequal : expected = digest.digest.toNat
      · simp only [Step.holding, if_pos hequal]
        exact checkSize_holding pending pos _
      · simp only [Step.holding, if_neg hequal]

/-- What comes of reading on behind `out`, by what the next block is to a reader with other decoded bytes in its
hands. -/
inductive GoesOn {r : Reader φ} (keep : ByteArray → ByteArray) (out : ByteArray) :
    Step r 4 Bool → ByteArray × Option Error → Prop
  | failed {e : Error} {next : Reader φ} {h : next.source.left ≤ r.source.left} :
      GoesOn keep out (.failed e next h) (out, some e)
  | ended {next : Reader φ} {h : next.source.left + 4 ≤ r.source.left} :
      GoesOn keep out (.done false next h) (out, none)
  | block {next next' : Reader φ} {more : ByteArray} {h : next.source.left + 4 ≤ r.source.left}
      (fresh : dropBytes next.pending next.pos = more)
      (same : next = { next' with pending := next.pending, pos := next.pos }) :
      GoesOn keep out (.done true next h) (next'.contentFrom keep (out ++ more))

theorem payload_same_end (payload : ByteArray) (stored : Prop) [Decidable stored] {out out' : ByteArray} (most : Nat)
    (hsame : lastBytes maxDistance out = lastBytes maxDistance out') :
    ∃ answer more, (if stored then (.ok payload.size, out ++ payload)
        else decompressInto payload out most : Except Error Nat × ByteArray) = (answer, out ++ more) ∧
      (if stored then (.ok payload.size, out' ++ payload)
        else decompressInto payload out' most : Except Error Nat × ByteArray) = (answer, out' ++ more) := by
  by_cases hstored : stored
  · simp only [if_pos hstored]
    exact ⟨_, payload, rfl, rfl⟩
  · simp only [if_neg hstored]
    exact decompressInto_same_end payload most hsame

theorem contentFrom_goesOn {keep : ByteArray → ByteArray} {out : ByteArray}
    (hsame : lastBytes maxDistance (history { r with pending := pending, pos := pos }) =
      lastBytes maxDistance (if r.descriptor.independent then ByteArray.empty else keep out)) :
    GoesOn keep out (nextBlock { r with pending := pending, pos := pos }) (r.contentFrom keep out) := by
  rw [nextBlock, contentFrom, nextContent, takeWord_holding]
  rcases hword : r.takeWord with ⟨word, r1, h1⟩ | ⟨e, r1, h1⟩
  case failed => exact .failed
  obtain ⟨s, rfl, _⟩ := takeWord_done hword
  simp only [Step.holding]
  by_cases hzero : word = 0
  · have hcheck := @checkContent_holding φ { r with source := s } _ pending pos
    dsimp only at hcheck
    simp only [if_pos hzero, hcheck]
    cases checkContent { r with source := s } with
    | failed error next left_le => exact .failed
    | done value next left_le => exact .ended
  simp only [if_neg hzero]
  by_cases hmost : r.descriptor.blockSize.bytes < word % storedFlag
  · simp only [if_pos hmost]
    exact .failed
  have htake := @takePayload_holding φ { r with source := s } _ pending pos (word % storedFlag)
  dsimp only at htake
  simp only [if_neg hmost, htake]
  rcases hpayload : takePayload { r with source := s } (word % storedFlag) with ⟨payload, r2, h2⟩ | ⟨e, r2, h2⟩
  case failed => exact .failed
  obtain ⟨s₂, rfl, _⟩ := takePayload_done hpayload
  obtain ⟨answer, more, hdecoded, hdecoded'⟩ :=
    payload_same_end payload (storedFlag ≤ word) r.descriptor.blockSize.bytes hsame
  simp only [history] at hdecoded
  simp only [Step.holding, history, hdecoded, hdecoded']
  cases answer with
  | error e => exact .failed
  | ok count =>
    simp only [dropBytes_append]
    exact .block (dropBytes_append _ _) rfl

end Holding

variable {keep : ByteArray → ByteArray} {d : Descriptor} {out rest result : ByteArray}
  {outcome : Except Error ByteArray}

omit [Feed φ] in
theorem Stands.same_end (hkeep : KeepsReach keep) (h : r.Stands d out) :
    lastBytes maxDistance r.history =
      lastBytes maxDistance (if r.descriptor.independent then ByteArray.empty else keep out) := by
  rw [h.history_eq, h.descriptor_eq, Descriptor.history]
  split
  next => rfl
  next =>
    have hlinked : KeepsReach (lastBytes linkedHistory) := keepsReach_lastBytes (by decide)
    exact (hlinked out).trans (hkeep out).symm

/-- Reading with more of the output in reach comes to what all readers come to. -/
theorem contentFrom_comes {pending : ByteArray} {pos : Nat} (hkeep : KeepsReach keep)
    (h : d.ComesTo out rest result outcome) (hs : Feed.Reliable r.source.feed) (hrest : r.source.rest = rest)
    (hstands : Stands { r with pending := pending, pos := pos } d out) :
    r.contentFrom keep out = (result, failure outcome) := by
  -- `r` holds no decoded bytes of its own, so at each block it stands behind `out` with those of another reader.
  induction h generalizing r pending pos with
  | @block out more rest result outcome b fits adds _ ih =>
    obtain ⟨next, h', hok, hstands', hrest', hs', _, hpos, hpending⟩ := nextBlock_record hstands hs hrest fits adds
    have hnext := contentFrom_goesOn pending pos (hstands.same_end hkeep)
    rw [hok] at hnext
    generalize r.contentFrom keep out = answer at hnext ⊢
    cases hnext with
    | @block _ next' fresh _ hfresh hsame =>
      rw [hpos, hpending, dropBytes_append] at hfresh
      subst hfresh
      rw [hsame] at hstands' hrest' hs'
      exact @ih next' _ _ hs' hrest' hstands'
  | @trailer out tail size_eq =>
    obtain ⟨next, h', hok, _⟩ := nextBlock_trailer hstands hs hrest size_eq
    have hnext := contentFrom_goesOn pending pos (hstands.same_end hkeep)
    rw [hok] at hnext
    generalize r.contentFrom keep out = answer at hnext ⊢
    cases hnext with
    | ended => rfl
  | @stuck out rest e stuck =>
    obtain ⟨next, h', hfailed⟩ := stuck.fails hstands hs hrest
    have hnext := contentFrom_goesOn pending pos (hstands.same_end hkeep)
    rw [hfailed] at hnext
    generalize r.contentFrom keep out = answer at hnext ⊢
    cases hnext with
    | failed => rfl

theorem contentBy_comes (hkeep : KeepsReach keep) {src : ByteArray} {used : Nat}
    (hread : Descriptor.read src = .ok (d, used))
    (h : d.ComesTo ByteArray.empty (dropBytes src used) result outcome) :
    contentBy keep src = (result, failure outcome) := by
  have hrest : Source.rest ⟨Steady.mk, src, 0⟩ = src := dropBytes_zero src
  rw [← hrest] at hread h
  obtain ⟨r, h', hok, hstands, hlater, hs, _⟩ := readHeader_reliable (steady_reliable _) hread
  simp only [contentBy, hok]
  exact contentFrom_comes hkeep h hs hlater hstands

/-- How much of its output a reader keeps, beyond what a match may reach, makes no difference to what it hands out,
nor to the error that ends it. -/
theorem drainBy_eq_contentBy (hkeep : KeepsReach keep) (src : ByteArray) (feed : φ) (sizes : Nat → Nat)
    (hfeed : Feed.Reliable feed) (hsizes : ∀ i, 0 < sizes i) :
    (((new ⟨feed, src, 0⟩).drainBy sizes ByteArray.empty 0).bytes,
      ((new ⟨feed, src, 0⟩).drainBy sizes ByteArray.empty 0).error) = contentBy keep src := by
  obtain ⟨content, outcome, hcomes, hall⟩ := drainBy_comes src
  have hcontent : contentBy keep src = (content, failure outcome) := by
    cases hcomes with
    | headed header comes => exact contentBy_comes hkeep header comes
    | @headless e no_header =>
      rcases hfirst : (new ⟨Steady.mk, src, 0⟩).readHeader with ⟨u, r, hleft⟩ | ⟨e', r, hleft⟩
      · obtain ⟨d, used, _, _, hread, _⟩ := readHeader_done hfirst
        exact absurd ((dropBytes_zero src).symm ▸ hread) (no_header d used)
      have hfailed := (hall Steady.mk (fun _ => 1) (steady_reliable _) fun _ => by decide).failed e rfl
      rw [drainBy, read_new_failed (by decide) hfirst, Option.some.injEq] at hfailed
      rw [contentBy, hfirst, failure, hfailed]
  have hdelivered := hall feed sizes hfeed hsizes
  rw [hcontent, hdelivered.bytes_eq]
  cases outcome with
  | ok tail => rw [(hdelivered.ended tail rfl).1, failure]
  | error e => rw [hdelivered.failed e rfl, failure]

theorem decompressFrame_eq_contentBy (hkeep : KeepsReach keep) (src : ByteArray) :
    decompressFrame src = (contentBy keep src).2.elim (.ok (contentBy keep src).1) .error := by
  rw [← drainBy_eq_contentBy hkeep src Steady.mk (fun _ => 65536) (steady_reliable _) fun _ => by decide]
  rw [decompressFrame, drain, drainFrom_eq]
  cases (drainBy (new ⟨Steady.mk, src, 0⟩) (fun _ => 65536) ByteArray.empty 0).error with
  | none => rfl
  | some e => rfl

end Reader

end LempelZiv
