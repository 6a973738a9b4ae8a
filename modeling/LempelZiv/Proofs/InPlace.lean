import LempelZiv.Proofs.PackedSize

namespace LempelZiv

/-- A window that outlasts a write for which it has no room: it stays as it is then, and takes no more. -/
structure Slice where
  window : Window
  fault : Option Fault

namespace Slice

/-- The window, unless a write had no room. -/
def see (s : Slice) : Except Fault Window :=
  match s.fault with
  | none => .ok s.window
  | some f => .error f

def take (s : Slice) (write : Window → Except Fault Window) : Slice :=
  match s.fault with
  | some _ => s
  | none =>
    match write s.window with
    | .ok w => ⟨w, none⟩
    | .error f => ⟨s.window, some f⟩

instance : ByteSink Slice where
  put s b := .ok (s.take (LempelZiv.put · b))
  putAll s bytes := .ok (s.take (LempelZiv.putAll · bytes))

/-- What a step that writes comes to, and what it leaves. -/
def after (s : Slice) (step : Slice → Except Fault Slice) : Except Fault Unit × Slice :=
  match step s with
  | .error f => (.error f, s)
  | .ok s => (s.see.map fun _ => (), s)

theorem see_take (s : Slice) (write : Window → Except Fault Window) : (s.take write).see = s.see >>= write := by
  obtain ⟨w, fault⟩ := s
  cases fault with
  | some f => rfl
  | none =>
    change (take ⟨w, none⟩ write).see = write w
    rw [take]
    cases write w with
    | ok w => rfl
    | error f => rfl

theorem see_eq_ok {s : Slice} {w : Window} (h : s.see = .ok w) : s = ⟨w, none⟩ := by
  obtain ⟨w, fault⟩ := s
  cases fault with
  | none =>
    cases h
    rfl
  | some f => cases h

def view : SinkView Slice Window where
  see := see
  put_see s _ := ⟨_, rfl, see_take s _⟩
  putAll_see s _ := ⟨_, rfl, see_take s _⟩

/-- Where a window has room for what a step writes, so has the slice. -/
theorem after_of_shows {step : Slice → Except Fault Slice} {step' : Window → Except Fault Window} {w w' : Window}
    (hstep : view.Shows step step') (h : step' w = .ok w') : after ⟨w, none⟩ step = (.ok (), ⟨w', none⟩) := by
  obtain ⟨s, hok, hsee⟩ := hstep ⟨w, none⟩
  change s.see = step' w at hsee
  rw [h] at hsee
  cases see_eq_ok hsee
  rw [after, hok]
  rfl

/-- Goes through the input as `Factorization.cut` does, and writes each sequence as soon as it is found. -/
def encodeFrom (src : ByteArray) (c : Chains) (pos anchor misses : Nat) (out : Slice) : Except Fault Unit × Slice :=
  if _hp : pos + minMatch ≤ src.size ∧ pos ≤ src.size - matchMargin then
    match c.find pos with
    | .error f => (.error f, out)
    | .ok (none, c) =>
      let misses := min (misses + 1) 4294967295
      match Factorization.skipped c.params misses with
      | .error f => (.error f, out)
      | .ok n => encodeFrom src c (min (pos + 1 + n) src.size) anchor misses out
    | .ok (some found, c) =>
      match (if c.params.lazySearch then Factorization.settle c pos (src.size - matchMargin) 0 found
        else .ok (0, found, c)) with
      | .error f => (.error f, out)
      | .ok (delay, found, c) =>
        match Factorization.sequenceAt src anchor (pos + delay) found with
        | .error f => (.error f, out)
        | .ok s =>
          match out.after s.write with
          | (.error f, out) => (.error f, out)
          | (.ok (), out) => encodeFrom src c (pos + delay + s.length) (pos + delay + s.length) 0 out
  else out.after (writeLast (dropBytes src anchor))
  termination_by src.size - pos
  decreasing_by
    · have := _hp.1
      simp only [minMatch] at this
      omega
    · have := _hp.1
      have := s.minMatch_le
      simp only [minMatch] at *
      omega

/-- Sequences that go out one by one are the sequences that are cut first and written then. -/
theorem encodeFrom_of_cut {src : ByteArray} {c : Chains} {pos anchor misses : Nat} {done : Array Sequence}
    {f : Factorization} (h : Factorization.cut src c pos anchor misses done = .ok f) :
    ∃ ss, f.sequences.toList = done.toList ++ ss ∧ ∀ w w' : Window,
      ss.foldlM (fun w s => s.write w) w >>= writeLast f.tail = .ok w' →
        encodeFrom src c pos anchor misses ⟨w, none⟩ = (.ok (), ⟨w', none⟩) := by
  -- along the search, for any window: what it finds from here on is what is written from here on
  fun_induction Factorization.cut src c pos anchor misses done with
  | case1 => cases h
  | case2 => cases h
  | case3 c pos anchor misses done hp c' hfind misses' n hskip ih =>
    obtain ⟨ss, hss, hwrites⟩ := ih h
    refine ⟨ss, hss, ?_⟩
    intro w w' hw
    rw [encodeFrom, dif_pos hp]
    simp only [hfind]
    rw [hskip]
    exact hwrites w w' hw
  | case4 => cases h
  | case5 => cases h
  | case6 c pos anchor misses done hp found c' hfind delay found' c'' hchosen s hs ih =>
    obtain ⟨ss, hss, hwrites⟩ := ih h
    refine ⟨s :: ss, by rw [hss, Array.toList_push, List.append_assoc, List.singleton_append], ?_⟩
    intro w w' hw
    rw [List.foldlM_cons, bind_assoc] at hw
    obtain ⟨w₁, hfirst, hrest⟩ := bind_eq_ok_iff.mp hw
    rw [dite_eq_ite] at hchosen
    rw [encodeFrom, dif_pos hp]
    simp only [hfind]
    rw [hchosen]
    simp only [hs, after_of_shows (SinkView.shows_sequence s) hfirst]
    exact hwrites w₁ w' hrest
  | case7 c pos anchor misses done hp =>
    cases h
    refine ⟨[], (List.append_nil _).symm, ?_⟩
    intro w w' hw
    rw [encodeFrom, dif_neg hp]
    exact after_of_shows (SinkView.shows_last _) hw

/-- Writes a whole block for `src` while it is searched. -/
def encode (params : SearchParams) (src : ByteArray) (out : Slice) : Except Fault Unit × Slice :=
  match (do (← Chains.empty params).reset src : Except Fault Chains) with
  | .error f => (.error f, out)
  | .ok c => encodeFrom src c 0 0 0 out

theorem encode_of_factorize {params : SearchParams} {src : ByteArray} {f : Factorization} {w w' : Window}
    (hf : factorize params src = .ok f) (hw : f.writeClosed w = .ok w') :
    encode params src ⟨w, none⟩ = (.ok (), ⟨w', none⟩) := by
  rw [factorize, ← bind_assoc] at hf
  obtain ⟨c, hc, hcut⟩ := bind_eq_ok_iff.mp hf
  obtain ⟨ss, hss, hwrites⟩ := encodeFrom_of_cut hcut
  rw [Factorization.writeClosed_eq_foldlM, hss] at hw
  rw [encode, hc]
  exact hwrites w w' hw

end Slice

/-- What a block is compressed with, if the level, the size of `src` and the room for it are as they should be. -/
def accept (src : ByteArray) (level : Nat) (buffer : ByteArray) : Except Error SearchParams := do
  let o ← BlockOptions.ofLevel level
  checkBlockSize src.size
  let needed ← packedBound src.size
  if buffer.size < needed then throw (.destination needed buffer.size)
  return o.params

/-- Compresses into a buffer that the caller keeps: the second part is the buffer after the call, however it ends. -/
def compressInPlace (src : ByteArray) (level : Nat) (buffer : ByteArray) : Except Error Nat × ByteArray :=
  match accept src level buffer with
  | .error e => (.error e, buffer)
  | .ok params =>
    match Slice.encode params src ⟨⟨buffer, 0⟩, none⟩ with
    | (.ok (), out) => (.ok out.window.filled, out.window.buffer)
    | (.error f, out) => (.error (.fault f), out.window.buffer)

/-- The level, the size and the buffer are refused in this order, and the buffer is then as it was. Where nothing is
refused, the block stands at the front of the buffer, and the rest of the buffer is as it was. -/
inductive RefusedOrFilled (src : ByteArray) (level : Nat) (buffer : ByteArray) : Except Error Nat × ByteArray → Prop
  | level (hlevel : ¬(1 ≤ level ∧ level ≤ 12)) : RefusedOrFilled src level buffer (.error (.level level), buffer)
  | size (hlevel : 1 ≤ level ∧ level ≤ 12) (hsize : ¬(minBlockSize ≤ src.size ∧ src.size ≤ maxBlockSize)) :
      RefusedOrFilled src level buffer (.error (.blockSize src.size), buffer)
  | room {needed : Nat} (hlevel : 1 ≤ level ∧ level ≤ 12) (hsize : minBlockSize ≤ src.size ∧ src.size ≤ maxBlockSize)
      (hneeded : packedBound src.size = .ok needed) (hroom : buffer.size < needed) :
      RefusedOrFilled src level buffer (.error (.destination needed buffer.size), buffer)
  | filled {needed : Nat} {packed : ByteArray} (hlevel : 1 ≤ level ∧ level ≤ 12)
      (hsize : minBlockSize ≤ src.size ∧ src.size ≤ maxBlockSize) (hneeded : packedBound src.size = .ok needed)
      (hroom : needed ≤ buffer.size) (hpacked : compress src level = .ok packed) (hfits : packed.size ≤ needed) :
      RefusedOrFilled src level buffer (.ok packed.size, packed ++ dropBytes buffer packed.size)

theorem compressInto_of_refused {src buffer : ByteArray} {level : Nat} {e : Error}
    (h : accept src level buffer = .error e) : compressInto src level buffer = .error e := by
  unfold accept at h
  unfold compressInto
  simp only [bind_eq_error_iff, check_eq_error_iff] at h ⊢
  rcases h with hlevel | ⟨o, ho, hsize | ⟨_, hcheck, hbound | ⟨needed, hneeded, hroom | ⟨_, hnone⟩⟩⟩⟩
  · exact .inl hlevel
  · exact .inr ⟨o, ho, .inl hsize⟩
  · exact .inr ⟨o, ho, .inr ⟨(), hcheck, .inl hbound⟩⟩
  · exact .inr ⟨o, ho, .inr ⟨(), hcheck, .inr ⟨needed, hneeded, .inl hroom⟩⟩⟩
  · cases hnone

theorem size_lt_of_le_maxBlockSize {n : Nat} (h : n ≤ maxBlockSize) : n < 2 ^ 48 := by
  rw [maxBlockSize] at h
  omega

/-- The order in which a call is refused. -/
theorem accept_eq (src : ByteArray) (level : Nat) (buffer : ByteArray) : accept src level buffer =
    if h : 1 ≤ level ∧ level ≤ 12 then
      if minBlockSize ≤ src.size ∧ src.size ≤ maxBlockSize then
        if buffer.size < src.size + src.size / 255 + 16 then
          .error (.destination (src.size + src.size / 255 + 16) buffer.size)
        else .ok (BlockOptions.params ⟨⟨level, h.1, h.2⟩, .improved⟩)
      else .error (.blockSize src.size)
    else .error (.level level) := by
  rw [accept, BlockOptions.ofLevel, Level.ofNat, checkBlockSize]
  by_cases hlevel : 1 ≤ level ∧ level ≤ 12
  case neg =>
    rw [dif_neg hlevel, dif_neg hlevel]
    rfl
  rw [dif_pos hlevel, dif_pos hlevel]
  by_cases hsize : minBlockSize ≤ src.size ∧ src.size ≤ maxBlockSize
  case neg =>
    rw [if_neg hsize, if_neg hsize]
    rfl
  rw [if_pos hsize, if_pos hsize, packedBound_eq (size_lt_of_le_maxBlockSize hsize.2)]
  change (if _ then _ else _) = _
  split
  next => rfl
  next => rfl

theorem compressInPlace_of_refused {src buffer : ByteArray} {level : Nat} {e : Error}
    (h : accept src level buffer = .error e) : compressInPlace src level buffer = (.error e, buffer) := by
  rw [compressInPlace, h]

theorem compressInPlace_of_accepted {src buffer : ByteArray} {level : Nat} (hlevel : 1 ≤ level ∧ level ≤ 12)
    (hsize : minBlockSize ≤ src.size ∧ src.size ≤ maxBlockSize)
    (hroom : src.size + src.size / 255 + 16 ≤ buffer.size) :
    ∃ packed, compress src level = .ok packed ∧ packed.size ≤ src.size + src.size / 255 + 16 ∧
      compressInPlace src level buffer = (.ok packed.size, packed ++ dropBytes buffer packed.size) ∧
      compressInto src level buffer = .ok (packed.size, packed ++ dropBytes buffer packed.size) := by
  have hneeded := packedBound_eq (size_lt_of_le_maxBlockSize hsize.2)
  have ho : BlockOptions.ofLevel level = .ok ⟨⟨level, hlevel.1, hlevel.2⟩, .improved⟩ := by
    rw [BlockOptions.ofLevel, Level.ofNat, dif_pos hlevel]
    rfl
  obtain ⟨f, packed, hf, hpacked, hfits, hw⟩ := factorize_fills hsize.1 hsize.2
    ⟨⟨level, hlevel.1, hlevel.2⟩, .improved⟩ hneeded hroom
  refine ⟨packed, by rwa [compress, ho], hfits, ?_, ?_⟩
  · have haccept := accept_eq src level buffer
    rw [dif_pos hlevel, if_pos hsize, if_neg (Nat.not_lt.mpr hroom)] at haccept
    rw [compressInPlace, haccept]
    simp only [Slice.encode_of_factorize hf hw]
  · obtain ⟨_, hsame, _, hinto⟩ := compressInto_ok hsize.1 hsize.2 ho hneeded hroom
    rw [hpacked] at hsame
    cases hsame
    exact hinto

/-- Compressing into a buffer writes just the block that compressing gives, or refuses the call and writes nothing. No
write on the way is without room, and a buffer that is kept and one that is handed on end alike. -/
theorem compressInPlace_refuses_or_fills (src : ByteArray) (level : Nat) (buffer : ByteArray) :
    RefusedOrFilled src level buffer (compressInPlace src level buffer) ∧
      compressInto src level buffer =
        (compressInPlace src level buffer).1.map fun n => (n, (compressInPlace src level buffer).2) := by
  have haccept := accept_eq src level buffer
  by_cases hlevel : 1 ≤ level ∧ level ≤ 12
  case neg =>
    rw [dif_neg hlevel] at haccept
    rw [compressInPlace_of_refused haccept, compressInto_of_refused haccept]
    exact ⟨.level hlevel, rfl⟩
  by_cases hsize : minBlockSize ≤ src.size ∧ src.size ≤ maxBlockSize
  case neg =>
    rw [dif_pos hlevel, if_neg hsize] at haccept
    rw [compressInPlace_of_refused haccept, compressInto_of_refused haccept]
    exact ⟨.size hlevel hsize, rfl⟩
  have hneeded := packedBound_eq (size_lt_of_le_maxBlockSize hsize.2)
  by_cases hroom : buffer.size < src.size + src.size / 255 + 16
  · rw [dif_pos hlevel, if_pos hsize, if_pos hroom] at haccept
    rw [compressInPlace_of_refused haccept, compressInto_of_refused haccept]
    exact ⟨.room hlevel hsize hneeded hroom, rfl⟩
  · have henough := Nat.le_of_not_lt hroom
    obtain ⟨packed, hpacked, hfits, hkept, hinto⟩ := compressInPlace_of_accepted hlevel hsize henough
    rw [hkept, hinto]
    exact ⟨.filled hlevel hsize hneeded henough hpacked hfits, rfl⟩

end LempelZiv
