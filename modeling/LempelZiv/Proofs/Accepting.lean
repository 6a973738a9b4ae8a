import LempelZiv.Proofs.BlockLimits
import LempelZiv.Proofs.Reading

namespace LempelZiv

/-- Every word up to 32 bits other than zero is the size word of some block. -/
theorem Record.word_of_payload {word : Nat} {payload : ByteArray} (hlt : word < 2 ^ 32)
    (hsize : payload.size = word % storedFlag) :
    word = (Record.mk (decide (storedFlag ≤ word)) payload).word := by
  unfold Record.word
  simp only [decide_eq_true_eq, hsize]
  rw [storedFlag]
  split
  next => omega
  next => omega

/-- A payload that decodes is that of a block. -/
theorem Record.adds_of_payload {word count most : Nat} {payload history pending : ByteArray}
    (hlt : word < 2 ^ 32) (hzero : word ≠ 0) (hsize : payload.size = word % storedFlag)
    (hmost : word % storedFlag ≤ most)
    (hdecoded : (if storedFlag ≤ word then (.ok payload.size, history ++ payload)
      else decompressInto payload history most : Except Error Nat × ByteArray) = (.ok count, pending)) :
    ∃ more, (Record.mk (storedFlag ≤ word) payload).Fits most ∧
      (Record.mk (storedFlag ≤ word) payload).Adds most history more ∧ pending = history ++ more ∧
      count = more.size := by
  have hfits : (Record.mk (storedFlag ≤ word) payload).Fits most := by
    refine ⟨?_, hsize ▸ hmost⟩
    rw [← word_of_payload hlt hsize]
    exact Nat.pos_of_ne_zero hzero
  by_cases hstored : storedFlag ≤ word
  · rw [if_pos hstored] at hdecoded
    cases hdecoded
    refine ⟨payload, hfits, ?_, rfl, rfl⟩
    simp [Adds, hstored]
  · rw [if_neg hstored] at hdecoded
    obtain ⟨more, hmore, hcount, _⟩ := decompressInto_ok_le hdecoded
    refine ⟨more, hfits, ?_, hmore, hcount.symm⟩
    simp [Adds, hstored, hdecoded, hmore, hcount]

namespace Source

variable {φ : Type} [Feed φ] {s : Source φ}

theorem fetchMore_got {origin : Source φ} {n need : Nat} {got bytes : ByteArray} {s' : Source φ}
    {h : s.left + n = origin.left + need} {hn : need ≤ n} {h' : s'.left + n = origin.left}
    (hgot : fetchMore origin s n need got h hn = .got bytes s' h') :
    ∃ a, bytes = got ++ a ∧ a.size = need ∧ s.rest = a ++ s'.rest := by
  induction need using Nat.strongRecOn generalizing s got with
  | ind need ih =>
    unfold fetchMore at hgot
    split at hgot
    next hz =>
      cases hgot
      exact ⟨ByteArray.empty, ByteArray.append_empty.symm, hz.symm, ByteArray.empty_append.symm⟩
    next hz =>
      split at hgot
      next => cases hgot
      next k feed hpull =>
        simp only at hgot
        split at hgot
        next ht =>
          obtain ⟨a, hbytes, ha, hrest⟩ := ih _ (by omega) hgot
          have hle : s.pos + min k (min need s.left) ≤ s.data.size := by
            rw [left] at ht ⊢
            omega
          have hcut := extract_append_dropBytes (Nat.le_add_right s.pos (min k (min need s.left))) hle
          refine ⟨s.data.extract s.pos (s.pos + min k (min need s.left)) ++ a, ?_, ?_, ?_⟩
          · rw [hbytes, ByteArray.append_assoc]
          · rw [ByteArray.size_append, ByteArray.size_extract, ha]
            omega
          · rw [ByteArray.append_assoc, ← hrest]
            exact hcut.symm
        next => cases hgot

/-- What was read stood next in the source. -/
theorem fetch_got {n : Nat} {bytes : ByteArray} {s' : Source φ} {h : s'.left + n = s.left}
    (hgot : s.fetch n = .got bytes s' h) : bytes.size = n ∧ s.rest = bytes ++ s'.rest := by
  obtain ⟨a, hbytes, ha, hrest⟩ := fetchMore_got hgot
  rw [ByteArray.empty_append] at hbytes
  subst hbytes
  exact ⟨ha, hrest⟩

end Source

namespace Reader

variable {φ : Type} {r r' : Reader φ} {d : Descriptor} {out : ByteArray}

theorem checkSize_done {r₁ : Reader φ} {hle : r₁.source.left ≤ r.source.left}
    {h : r'.source.left + 0 ≤ r.source.left} (hdone : checkContent.checkSize r r₁ hle = .done () r' h) :
    r' = { r₁ with phase := .ended } ∧ ∀ n, r₁.descriptor.contentSize = some n → n = r₁.produced := by
  unfold checkContent.checkSize at hdone
  split at hdone
  next hnone =>
    cases hdone
    refine ⟨rfl, ?_⟩
    intro n hn
    rw [hnone] at hn
    cases hn
  next declared hsome =>
    split at hdone
    next hequal =>
      cases hdone
      refine ⟨rfl, ?_⟩
      intro n hn
      rw [hsome] at hn
      cases hn
      exact hequal
    next => cases hdone

variable [Feed φ]

theorem take_done {n : Nat} {bytes : ByteArray} {h : r'.source.left + n ≤ r.source.left}
    (hdone : r.take n = .done bytes r' h) :
    ∃ s, r' = { r with source := s } ∧ bytes.size = n ∧ r.source.rest = bytes ++ s.rest := by
  unfold take at hdone
  split at hdone
  next bytes s hs hfetch =>
    cases hdone
    obtain ⟨hsize, hrest⟩ := Source.fetch_got hfetch
    exact ⟨s, rfl, hsize, hrest⟩
  next => cases hdone

/-- A header that is read is one of the format, and the reader stands at the start of what it describes. -/
theorem readHeader_done {h : r'.source.left + headerStart ≤ r.source.left}
    (hdone : r.readHeader = .done () r' h) :
    ∃ d used s notices, Descriptor.read r.source.rest = .ok (d, used) ∧
      s.rest = dropBytes r.source.rest used ∧
      r' = { r with
        source := s
        notices := notices
        phase := .begun
        descriptor := d
        digest := if d.contentChecksum then some (XXH32.start 0) else none } := by
  unfold readHeader at hdone
  split at hdone
  next => cases hdone
  next start r1 h1 htake₁ =>
    obtain ⟨s₁, hr, hstart, hrest₁⟩ := take_done htake₁
    subst hr
    split at hdone
    next => cases hdone
    next n hn =>
      split at hdone
      next => cases hdone
      next rest r2 h2 htake₂ =>
        obtain ⟨s₂, hr, hsize, hrest₂⟩ := take_done htake₂
        subst hr hsize
        split at hdone
        next => cases hdone
        next d hd =>
          cases hdone
          have hrest : r.source.rest = start ++ (rest ++ s₂.rest) :=
            hrest₁.trans (congrArg (start ++ ·) hrest₂)
          have hread : Descriptor.read r.source.rest = .ok (d, headerStart + rest.size) :=
            Descriptor.read_eq_ok_iff.mpr ⟨start, rest, s₂.rest, hrest, hstart, hn, hd, rfl⟩
          have htail : s₂.rest = dropBytes r.source.rest (headerStart + rest.size) := by
            rw [hrest, ← hstart, dropBytes_append_add, dropBytes_append]
          exact ⟨d, headerStart + rest.size, s₂, _, hread, htail, rfl⟩

theorem takeWord_done {word : Nat} {h : r'.source.left + 4 ≤ r.source.left}
    (hdone : r.takeWord = .done word r' h) :
    ∃ s, r' = { r with source := s } ∧ word < 2 ^ 32 ∧ r.source.rest = leBytes 4 word ++ s.rest := by
  unfold takeWord at hdone
  split at hdone
  next bytes r1 h1 htake =>
    cases hdone
    obtain ⟨s, hr, hsize, hrest⟩ := take_done htake
    have hbytes : leBytes 4 (readLE bytes 0 4) = bytes := by
      rw [leBytes_readLE (by omega), Nat.zero_add, ← hsize, ByteArray.extract_zero_size]
    refine ⟨s, hr, readLE_lt bytes 0 4, ?_⟩
    rw [hbytes]
    exact hrest
  next => cases hdone

theorem takePayload_done {n : Nat} {payload : ByteArray} {h : r'.source.left + 0 ≤ r.source.left}
    (hdone : r.takePayload n = .done payload r' h) :
    ∃ s, r' = { r with source := s, block := payload } ∧ payload.size = n ∧ r.source.rest = payload ++
      ((if r.descriptor.blockChecksum then leBytes 4 (xxh32 0 payload).toNat else ByteArray.empty) ++
        s.rest) := by
  unfold takePayload at hdone
  split at hdone
  next => cases hdone
  next payload r1 h1 htake =>
    obtain ⟨s, hr, hsize, hrest⟩ := take_done htake
    subst hr
    split at hdone
    next hsum =>
      split at hdone
      next => cases hdone
      next expected r2 h2 hword =>
        simp only at hdone
        split at hdone
        next hequal =>
          cases hdone
          obtain ⟨s2, hr2, _, hrest2⟩ := takeWord_done hword
          refine ⟨s2, hr2, hsize, ?_⟩
          rw [if_pos hsum, ← hequal, ← hrest2]
          exact hrest
        next => cases hdone
    next hsum =>
      cases hdone
      refine ⟨s, rfl, hsize, ?_⟩
      rw [if_neg hsum, ByteArray.empty_append]
      exact hrest

/-- What a step of a reader that stands behind `out` has read: a block, or what follows the last one. -/
inductive Advance (r : Reader φ) (d : Descriptor) (out : ByteArray) : Bool → Reader φ → Prop
  | block {next : Reader φ} {b : Record} {more : ByteArray} (fits : b.Fits d.blockSize.bytes)
      (adds : b.Adds d.blockSize.bytes (d.history out) more)
      (rest_eq : r.source.rest = b.bytes d.blockChecksum ++ next.source.rest)
      (stands : next.Stands d (out ++ more)) (phase_eq : next.phase = .begun)
      (pos_eq : next.pos = (d.history out).size)
      (pending_eq : next.pending = d.history out ++ more) : Advance r d out true next
  | trailer {next : Reader φ} (rest_eq : r.source.rest = d.trailer out ++ next.source.rest)
      (size_eq : ∀ n, d.contentSize = some n → n = out.size) (phase_eq : next.phase = .ended)
      (pending_eq : next.pending = r.pending) (pos_eq : next.pos = r.pos) : Advance r d out false next

theorem checkContent_done {h : r'.source.left + 0 ≤ r.source.left} (hstands : r.Stands d out)
    (hdone : r.checkContent = .done () r' h) :
    r.source.rest = (if d.contentChecksum then leBytes 4 (xxh32 0 out).toNat else ByteArray.empty) ++
      r'.source.rest ∧ (∀ n, d.contentSize = some n → n = out.size) ∧ r'.phase = .ended ∧
      r'.pending = r.pending ∧ r'.pos = r.pos := by
  have hdigest := hstands.digest_eq
  unfold checkContent at hdone
  split at hdone
  next hnone =>
    obtain ⟨hr, hsize⟩ := checkSize_done hdone
    subst hr
    rw [hstands.descriptor_eq, hstands.produced_eq] at hsize
    cases hsum : d.contentChecksum with
    | false =>
      rw [if_neg Bool.false_ne_true, ByteArray.empty_append]
      exact ⟨rfl, hsize, rfl, rfl, rfl⟩
    | true =>
      rw [hnone, hsum] at hdigest
      cases hdigest
  next digest hsome =>
    split at hdone
    next => cases hdone
    next expected r1 h1 hword =>
      obtain ⟨s, hr, _, hrest⟩ := takeWord_done hword
      subst hr
      split at hdone
      next hequal =>
        obtain ⟨hr, hsize⟩ := checkSize_done hdone
        subst hr
        cases hsum : d.contentChecksum with
        | false =>
          rw [hsome, hsum] at hdigest
          cases hdigest
        | true =>
          rw [hsome, hsum] at hdigest
          cases hdigest
          have hsize' : ∀ n, d.contentSize = some n → n = out.size := by
            rw [← hstands.descriptor_eq, ← hstands.produced_eq]
            exact hsize
          refine ⟨?_, hsize', rfl, rfl, rfl⟩
          rw [hequal] at hrest
          exact hrest
      next => cases hdone

/-- What reading the next block comes to, by the word that is read first: zero, too large, or that of a block. -/
inductive BlockRead (r : Reader φ) : Step r 4 Bool → Prop
  | no_word {e : Error} {next : Reader φ} {h h' : next.source.left ≤ r.source.left}
      (hword : r.takeWord = .failed e next h) : BlockRead r (.failed e next h')
  | end_failed {s : Source φ} {e : Error} {next : Reader φ} {h : next.source.left ≤ s.left}
      {h' : next.source.left ≤ r.source.left} (hcheck : checkContent { r with source := s } = .failed e next h) :
      BlockRead r (.failed e next h')
  | end_done {s : Source φ} {next : Reader φ} {h : next.source.left + 0 ≤ s.left}
      {h' : next.source.left + 4 ≤ r.source.left} (hrest : r.source.rest = leBytes 4 0 ++ s.rest)
      (hcheck : checkContent { r with source := s } = .done () next h) : BlockRead r (.done false next h')
  | oversized {s : Source φ} {h' : s.left ≤ r.source.left} :
      BlockRead r (.failed (.frame .oversizedBlock) { r with source := s } h')
  | no_payload {s : Source φ} {n : Nat} {e : Error} {next : Reader φ} {h : next.source.left ≤ s.left}
      {h' : next.source.left ≤ r.source.left} (hmost : n ≤ r.descriptor.blockSize.bytes)
      (hpayload : takePayload { r with source := s } n = .failed e next h) : BlockRead r (.failed e next h')
  | no_block {s : Source φ} {payload pending : ByteArray} {e : Error} {h' : s.left ≤ r.source.left}
      (hmost : payload.size ≤ r.descriptor.blockSize.bytes)
      (hdecoded : decompressInto payload r.history r.descriptor.blockSize.bytes = (.error e, pending)) :
      BlockRead r (.failed e
        { r with source := s, block := payload, pending := pending, pos := r.history.size } h')
  | block {s : Source φ} {word count : Nat} {payload pending : ByteArray} {h' : s.left + 4 ≤ r.source.left}
      (hlt : word < 2 ^ 32) (hzero : word ≠ 0) (hsize : payload.size = word % storedFlag)
      (hmost : word % storedFlag ≤ r.descriptor.blockSize.bytes)
      (hrest : r.source.rest = leBytes 4 word ++ (payload ++
        ((if r.descriptor.blockChecksum then leBytes 4 (xxh32 0 payload).toNat else ByteArray.empty) ++ s.rest)))
      (hdecoded : (if storedFlag ≤ word then (.ok payload.size, r.history ++ payload)
        else decompressInto payload r.history r.descriptor.blockSize.bytes : Except Error Nat × ByteArray) =
          (.ok count, pending)) :
      BlockRead r (.done true
        { r with
          source := s
          phase := .begun
          block := payload
          digest := r.digest.map fun x => x.update (dropBytes pending r.history.size)
          notices := .block (word % storedFlag + 4) count (storedFlag ≤ word) :: r.notices
          pending := pending
          pos := r.history.size
          produced := r.produced + count } h')

theorem nextBlock_read (r : Reader φ) : r.BlockRead r.nextBlock := by
  rw [nextBlock]
  split
  next hword => exact .no_word hword
  next word r1 h1 hword =>
    obtain ⟨s, rfl, hlt, hrest⟩ := takeWord_done hword
    split
    next hzero =>
      subst hzero
      split
      next hcheck => exact .end_failed hcheck
      next hcheck => exact .end_done hrest hcheck
    next hzero =>
      simp only
      split
      next => exact .oversized
      next hmost =>
        rw [Nat.not_lt] at hmost
        split
        next hpayload => exact .no_payload hmost hpayload
        next payload r2 h2 hpayload =>
          obtain ⟨s₂, rfl, hsize, hrest₂⟩ := takePayload_done hpayload
          split
          next e pending hdecoded =>
            split at hdecoded
            next => cases hdecoded
            next => exact .no_block (hsize ▸ hmost) hdecoded
          next count pending hdecoded =>
            exact .block hlt hzero hsize hmost (hrest.trans (congrArg _ hrest₂)) hdecoded

/-- A step that succeeds has read a block of the format, or the end of the frame. -/
theorem nextBlock_advance {more : Bool} {h : r'.source.left + 4 ≤ r.source.left}
    (hstands : r.Stands d out) (hdone : r.nextBlock = .done more r' h) : Advance r d out more r' := by
  obtain rfl := hstands.descriptor_eq
  have hread := r.nextBlock_read
  rw [hdone] at hread
  cases hread with
  | @end_done s _ _ _ hrest hcheck =>
    have hstands₁ : Stands { r with source := s } r.descriptor out :=
      ⟨rfl, hstands.digest_eq, hstands.produced_eq, hstands.history_eq⟩
    obtain ⟨hrest₂, hsize, hphase, hpending, hpos⟩ := checkContent_done hstands₁ hcheck
    refine .trailer ?_ hsize hphase hpending hpos
    rw [hrest, Descriptor.trailer, ByteArray.append_assoc, ← hrest₂]
  | @block s word count payload pending _ hlt hzero hsize hmost hrest hdecoded =>
    have hhistory : r.history = r.descriptor.history out := hstands.history_eq
    obtain ⟨added, hfits, hadds, hpending, hcount⟩ := Record.adds_of_payload hlt hzero hsize hmost hdecoded
    rw [hhistory] at hadds hpending
    have hfresh : dropBytes pending r.history.size = added := by
      rw [hpending, hhistory, dropBytes_append]
    refine .block hfits hadds ?_ ?_ rfl (congrArg ByteArray.size hhistory) hpending
    · rw [hrest, Record.bytes, ← Record.word_of_payload hlt hsize]
      simp only [ByteArray.append_assoc]
    · refine hstands.next hpending rfl ?_ ?_ rfl
      · exact congrArg (fun bytes => r.digest.map (XXH32.update · bytes)) hfresh
      · exact congrArg (r.produced + ·) hcount

end Reader

end LempelZiv
