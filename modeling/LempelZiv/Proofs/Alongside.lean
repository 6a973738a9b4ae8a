import LempelZiv.Proofs.Accepting

namespace LempelZiv

namespace Reader

variable {φ ψ : Type} [Feed φ] [Feed ψ]

/-- Two readers at the same place, of which the second has `more` to come behind all that the first has. How
their sources hand out the bytes may differ, and so may the bytes that are decoded and out of reach. -/
structure Alongside (more : ByteArray) (r : Reader φ) (r' : Reader ψ) : Prop where
  descriptor_eq : r'.descriptor = r.descriptor
  digest_eq : r'.digest = r.digest
  produced_eq : r'.produced = r.produced
  history_eq : r'.history = r.history
  rest_eq : r'.source.rest = r.source.rest ++ more
  reliable : Feed.Reliable r.source.feed
  reliable' : Feed.Reliable r'.source.feed

/-- The same step of two such readers comes to the same, unless what is there runs out for the first only. -/
inductive Step.Matches {r : Reader φ} {r' : Reader ψ} {n : Nat} {α : Type} (more : ByteArray) :
    Step r n α → Step r' n α → Prop
  | done {value : α} {next : Reader φ} {next' : Reader ψ} {h : next.source.left + n ≤ r.source.left}
      {h' : next'.source.left + n ≤ r'.source.left} (along : next.Alongside more next') :
      Matches more (.done value next h) (.done value next' h')
  | failed {e : Error} {next : Reader φ} {next' : Reader ψ} {h : next.source.left ≤ r.source.left}
      {h' : next'.source.left ≤ r'.source.left} : Matches more (.failed e next h) (.failed e next' h')
  | short {next : Reader φ} {h : next.source.left ≤ r.source.left} {step' : Step r' n α}
      (more_pos : 0 < more.size) : Matches more (.failed (.frame .unexpectedEnd) next h) step'

variable {more : ByteArray} {r : Reader φ} {r' : Reader ψ}

theorem take_short {n : Nat} (hs : Feed.Reliable r.source.feed) (hleft : r.source.left < n) :
    ∃ next h, r.take n = .failed (.frame .unexpectedEnd) next h := by
  obtain ⟨text, s, h, hbroken⟩ := Source.fetch_short hs hleft
  rw [take]
  simp [hbroken, streamError, h]

theorem Alongside.new {s : Source φ} {s' : Source ψ} (hs : Feed.Reliable s.feed) (hs' : Feed.Reliable s'.feed)
    (hrest : s'.rest = s.rest ++ more) : (Reader.new s).Alongside more (Reader.new s') :=
  ⟨rfl, rfl, rfl, rfl, hrest, hs, hs'⟩

theorem Stands.alongside {d : Descriptor} {out : ByteArray} (h : r.Stands d out) (h' : r'.Stands d out)
    (hs : Feed.Reliable r.source.feed) (hs' : Feed.Reliable r'.source.feed)
    (hrest : r'.source.rest = r.source.rest ++ more) : r.Alongside more r' :=
  ⟨h'.descriptor_eq.trans h.descriptor_eq.symm, h'.digest_eq.trans h.digest_eq.symm,
    h'.produced_eq.trans h.produced_eq.symm, h'.history_eq.trans h.history_eq.symm, hrest, hs, hs'⟩

theorem Alongside.take (h : r.Alongside more r') (n : Nat) : Step.Matches more (r.take n) (r'.take n) := by
  have hrest := h.rest_eq
  by_cases hn : n ≤ r.source.left
  · have hcut : r.source.rest.extract 0 n ++ dropBytes r.source.rest n = r.source.rest :=
      extract_zero_append_dropBytes (r.source.size_rest ▸ hn)
    have hsize : (r.source.rest.extract 0 n).size = n := by
      rw [ByteArray.size_extract, r.source.size_rest]
      omega
    rw [← hcut, ByteArray.append_assoc] at hrest
    obtain ⟨s, hle, hok, hlater, hs⟩ := take_reliable hsize h.reliable hcut.symm
    obtain ⟨s', hle', hok', hlater', hs'⟩ := take_reliable hsize h.reliable' hrest
    rw [hok, hok']
    exact .done ⟨h.descriptor_eq, h.digest_eq, h.produced_eq, h.history_eq, hlater'.trans (hlater ▸ rfl), hs, hs'⟩
  · obtain ⟨next, hle, hshort⟩ := take_short h.reliable (Nat.lt_of_not_le hn)
    rw [hshort]
    rcases Nat.eq_zero_or_pos more.size with hnone | hsome
    · have hleft : r'.source.left < n := by
        rw [← r'.source.size_rest, hrest, ByteArray.size_append, r.source.size_rest]
        omega
      obtain ⟨next', hle', hshort'⟩ := take_short h.reliable' hleft
      rw [hshort']
      exact .failed
    · exact .short hsome

theorem Alongside.takeWord (h : r.Alongside more r') : Step.Matches more r.takeWord r'.takeWord := by
  have hfirst := h.take 4
  rw [Reader.takeWord, Reader.takeWord]
  generalize r.take 4 = step, r'.take 4 = step' at hfirst
  cases hfirst with
  | done along => exact .done along
  | failed => exact .failed
  | short more_pos => exact .short more_pos

/-- Two new readers find the same header, or the same flaw of it. -/
theorem readHeader_matches {s : Source φ} {s' : Source ψ} (hs : Feed.Reliable s.feed)
    (hs' : Feed.Reliable s'.feed) (hrest : s'.rest = s.rest ++ more) :
    Step.Matches more (Reader.new s).readHeader (Reader.new s').readHeader := by
  have hfirst := (Alongside.new hs hs' hrest).take headerStart
  rw [Reader.readHeader, Reader.readHeader]
  generalize htake : (Reader.new s).take headerStart = step,
    htake' : (Reader.new s').take headerStart = step' at hfirst
  cases hfirst with
  | failed => exact .failed
  | short more_pos => exact .short more_pos
  | @done start r1 r1' _ _ along =>
    obtain ⟨s₁, rfl, _⟩ := take_done htake
    obtain ⟨s₁', rfl, _⟩ := take_done htake'
    cases hlength : Descriptor.restLength start with
    | error e =>
      simp only [hlength]
      exact .failed
    | ok n =>
      have hsecond := along.take n
      simp only [hlength]
      generalize htake₂ : take { Reader.new s with source := s₁ } n = step,
        htake₂' : take { Reader.new s' with source := s₁' } n = step' at hsecond
      cases hsecond with
      | failed => exact .failed
      | short more_pos => exact .short more_pos
      | @done rest r2 r2' _ _ along =>
        obtain ⟨s₂, rfl, _⟩ := take_done htake₂
        obtain ⟨s₂', rfl, _⟩ := take_done htake₂'
        cases hheader : Descriptor.ofHeader start rest with
        | error e =>
          simp only [hheader]
          exact .failed
        | ok d =>
          simp only [hheader]
          exact .done ⟨rfl, rfl, rfl, rfl, along.rest_eq, along.reliable, along.reliable'⟩

theorem Alongside.checkSize {r₁ : Reader φ} {r₁' : Reader ψ} {hle : r₁.source.left ≤ r.source.left}
    {hle' : r₁'.source.left ≤ r'.source.left} (h : r₁.Alongside more r₁') :
    Step.Matches more (checkContent.checkSize r r₁ hle) (checkContent.checkSize r' r₁' hle') := by
  have hended : Alongside more { r₁ with phase := .ended } { r₁' with phase := .ended } :=
    ⟨h.descriptor_eq, h.digest_eq, h.produced_eq, h.history_eq, h.rest_eq, h.reliable, h.reliable'⟩
  have hsize : r₁'.descriptor.contentSize = r₁.descriptor.contentSize := by rw [h.descriptor_eq]
  rw [checkContent.checkSize, checkContent.checkSize]
  cases hdeclared : r₁.descriptor.contentSize with
  | none =>
    simp only [hdeclared, hsize]
    exact .done hended
  | some declared =>
    have hproduced := h.produced_eq
    simp only [hdeclared, hsize]
    by_cases hequal : declared = r₁.produced
    · simp only [if_pos hequal, if_pos (hequal.trans hproduced.symm)]
      exact .done hended
    · simp only [hproduced, if_neg hequal]
      exact .failed

theorem Alongside.checkContent (h : r.Alongside more r') : Step.Matches more r.checkContent r'.checkContent := by
  rw [Reader.checkContent, Reader.checkContent]
  simp only [h.digest_eq]
  split
  next => exact h.checkSize
  next digest _ =>
    have hopen : Alongside more { r with digest := none } { r' with digest := none } :=
      ⟨h.descriptor_eq, rfl, h.produced_eq, h.history_eq, h.rest_eq, h.reliable, h.reliable'⟩
    have hword := hopen.takeWord
    generalize Reader.takeWord { r with digest := none } = step,
      Reader.takeWord { r' with digest := none } = step' at hword
    cases hword with
    | failed => exact .failed
    | short more_pos => exact .short more_pos
    | @done expected r1 r1' _ _ along =>
      by_cases hequal : expected = digest.digest.toNat
      · simp only [if_pos hequal]
        exact along.checkSize
      · simp only [if_neg hequal]
        exact .failed

theorem Alongside.takePayload (h : r.Alongside more r') (n : Nat) :
    Step.Matches more (r.takePayload n) (r'.takePayload n) := by
  have hfirst := h.take n
  rw [Reader.takePayload, Reader.takePayload]
  generalize r.take n = step, r'.take n = step' at hfirst
  cases hfirst with
  | failed => exact .failed
  | short more_pos => exact .short more_pos
  | @done payload r1 r1' _ _ along =>
    have hfilled : Alongside more { r1 with block := payload } { r1' with block := payload } :=
      ⟨along.descriptor_eq, along.digest_eq, along.produced_eq, along.history_eq, along.rest_eq, along.reliable,
        along.reliable'⟩
    have hchecked : r1'.descriptor.blockChecksum = r1.descriptor.blockChecksum := by rw [along.descriptor_eq]
    simp only [hchecked]
    cases r1.descriptor.blockChecksum with
    | false => exact .done hfilled
    | true =>
      have hsecond := hfilled.takeWord
      simp only [if_true]
      generalize Reader.takeWord { r1 with block := payload } = step,
        Reader.takeWord { r1' with block := payload } = step' at hsecond
      cases hsecond with
      | failed => exact .failed
      | short more_pos => exact .short more_pos
      | @done expected r2 r2' _ _ along =>
        by_cases hequal : expected = (xxh32 0 payload).toNat
        · simp only [if_pos hequal]
          exact .done along
        · simp only [if_neg hequal]
          exact .failed

theorem Alongside.nextBlock (h : r.Alongside more r') : Step.Matches more r.nextBlock r'.nextBlock := by
  have hword := h.takeWord
  rw [Reader.nextBlock, Reader.nextBlock]
  generalize r.takeWord = step, r'.takeWord = step' at hword
  cases hword with
  | failed => exact .failed
  | short more_pos => exact .short more_pos
  | @done word r1 r1' _ _ along =>
    by_cases hzero : word = 0
    · have hcheck := along.checkContent
      simp only [if_pos hzero]
      generalize r1.checkContent = step, r1'.checkContent = step' at hcheck
      cases hcheck with
      | failed => exact .failed
      | short more_pos => exact .short more_pos
      | done along => exact .done along
    have hbytes : r1'.descriptor.blockSize.bytes = r1.descriptor.blockSize.bytes := by rw [along.descriptor_eq]
    simp only [if_neg hzero, hbytes]
    by_cases hmost : r1.descriptor.blockSize.bytes < word % storedFlag
    · simp only [if_pos hmost]
      exact .failed
    have hpayload := along.takePayload (word % storedFlag)
    simp only [if_neg hmost]
    generalize r1.takePayload (word % storedFlag) = step, r1'.takePayload (word % storedFlag) = step' at hpayload
    cases hpayload with
    | failed => exact .failed
    | short more_pos => exact .short more_pos
    | @done payload r2 r2' _ _ along =>
      simp only [along.history_eq]
      generalize (if storedFlag ≤ word then _ else _ : Except Error Nat × ByteArray) = decoded
      obtain ⟨e | count, pending⟩ := decoded
      · exact .failed
      · have hdigest := along.digest_eq
        have hproduced := along.produced_eq
        have hdescriptor := along.descriptor_eq
        refine .done ⟨hdescriptor, ?_, ?_, ?_, along.rest_eq, along.reliable, along.reliable'⟩
        · simp [hdigest]
        · simp [hproduced]
        · simp only [history, note, hdescriptor]
          rfl

end Reader

end LempelZiv
