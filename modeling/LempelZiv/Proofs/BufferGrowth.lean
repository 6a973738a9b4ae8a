import LempelZiv.Proofs.BlockLimits

namespace LempelZiv

/-- No buffer is larger. -/
def largestBuffer : Nat := 9223372036854775807

/-- The room that is made for a block of which nothing is known. -/
def initialCapacity : Nat := 64

/-- How large a buffer is had by asking for one of some size: at least as large. -/
structure Allocator where
  allot : Nat → Nat
  le_allot : ∀ n, n ≤ allot n

/-- Decoding into a buffer that is made larger when it is full. -/
structure Growing extends Decoding where
  allocator : Allocator
  limit_lt : limit < sizeLimit

/-- Doubles `target` until there is room for `needed`. No number passes the largest one. -/
def doubled (needed target : Nat) (hpos : 0 < target) (hneeded : needed < sizeLimit) : Nat :=
  if h : target < needed then doubled needed (min (2 * target) (sizeLimit - 1)) (by omega) hneeded else target
  termination_by needed - target

theorem le_doubled {needed target : Nat} {hpos : 0 < target} {hneeded : needed < sizeLimit} :
    needed ≤ doubled needed target hpos hneeded := by
  fun_induction doubled needed target hpos hneeded with
  | case1 _ _ _ ih => exact ih
  | case2 => omega

theorem doubled_le {needed target : Nat} {hpos : 0 < target} {hneeded : needed < sizeLimit} :
    doubled needed target hpos hneeded ≤ max target (2 * needed) := by
  fun_induction doubled needed target hpos hneeded with
  | case1 _ _ _ ih => omega
  | case2 => omega

namespace Growing

/-- Makes room for `wanted` bytes of the block in a buffer that holds `size` bytes in all. -/
def growTo (g : Growing) (size capacity wanted : Nat) : Except Fault Nat := do
  let total := min (g.start + wanted) (sizeLimit - 1)
  if capacity < total then
    let more ← subSize total size
    if largestBuffer < size + more then throw .overflow
    return g.allocator.allot (size + more)
  else return capacity

def reserve (g : Growing) (out : ByteArray) (capacity n : Nat) : Except Error Nat := do
  let needed := out.size - g.start + n
  if h : needed ≤ g.limit then
    let reserved ← subSize capacity g.start
    if reserved < needed then
      let target := doubled needed (max reserved initialCapacity) (by rw [initialCapacity]; omega)
        (Nat.lt_of_le_of_lt h g.limit_lt)
      g.growTo out.size capacity (min target g.limit)
    else return capacity
  else throw (.capacity g.limit)

def literals (g : Growing) (out : ByteArray) (capacity ip token : Nat) : Except Error (Nat × Nat × Nat) := do
  let (n, used) ← Decoding.tokenLength g.src .truncatedLiteralLength ip (token / 16)
  if g.src.size < ip + used + n then throw (.block .literalsPastEnd)
  let capacity ← g.reserve out capacity n
  return (n, used, capacity)

def backReference (g : Growing) (out : ByteArray) (capacity ip token : Nat) :
    Except Error (Nat × Nat × Nat × Nat) := do
  if g.src.size < ip + 2 then throw (.block .truncatedOffset)
  let offset := readLE g.src ip 2
  if offset = 0 ∨ out.size < offset then throw (.matchOffset offset (out.size - g.start))
  let (n, used) ← Decoding.tokenLength g.src .truncatedMatchLength (ip + 2) (token % 16)
  let n ← addSize n minMatch
  let capacity ← g.reserve out capacity n
  return (offset, n, used, capacity)

/-- Decodes sequences from `ip` on. The last part is the capacity of the buffer then. -/
def run (g : Growing) (ip : Nat) (out : ByteArray) (capacity : Nat) : Except Error Unit × ByteArray × Nat :=
  if h : ip < g.src.size then
    let token := g.src[ip].toNat
    match g.literals out capacity (ip + 1) token with
    | .error e => (.error e, out, capacity)
    | .ok (n, used, capacity) =>
      let first := ip + 1 + used
      let last := first + n
      let out := out ++ g.src.extract first last
      if last = g.src.size then (.ok (), out, capacity)
      else
        match g.backReference out capacity last token with
        | .error e => (.error e, out, capacity)
        | .ok (offset, length, used, capacity) => run g (last + 2 + used) (copyBack out offset length) capacity
  else (.error (.block .truncatedToken), out, capacity)
  termination_by g.src.size - ip

/-- The most room that a block has any use for. -/
def most (g : Growing) : Nat := min g.limit (max initialCapacity (510 * g.src.size))

/-- The buffer is as large as it was, or it was asked for with room for the block. -/
def Asked (g : Growing) (capacity capacity' : Nat) : Prop :=
  capacity ≤ capacity' ∧
    (capacity' = capacity ∨ ∃ room, room ≤ g.most ∧ capacity' = g.allocator.allot (g.start + room))

variable {g : Growing} {out : ByteArray} {size capacity wanted n : Nat}

theorem growTo_asked (hstart : g.start + g.most ≤ largestBuffer) (hwanted : wanted ≤ g.most)
    (hsize : size ≤ capacity) :
    ∃ capacity', g.growTo size capacity wanted = .ok capacity' ∧ g.start + wanted ≤ capacity' ∧
      g.Asked capacity capacity' := by
  have hlargest : largestBuffer = 9223372036854775807 := rfl
  have hlimit : sizeLimit = 18446744073709551616 := rfl
  have htotal : min (g.start + wanted) (sizeLimit - 1) = g.start + wanted := by omega
  have hle := g.allocator.le_allot (g.start + wanted)
  unfold growTo
  by_cases hfull : capacity < g.start + wanted
  · have hmore : size + (g.start + wanted - size) = g.start + wanted := by omega
    have hroom : ¬largestBuffer < g.start + wanted := by omega
    rw [htotal]
    simp only [if_pos hfull, subSize_eq_ok (show size ≤ g.start + wanted by omega)]
    refine ⟨g.allocator.allot (g.start + wanted), ?_, hle, by omega, .inr ⟨wanted, hwanted, rfl⟩⟩
    change (if largestBuffer < size + (g.start + wanted - size) then _ else _) = _
    rw [hmore, if_neg hroom]
    rfl
  · rw [htotal]
    simp only [if_neg hfull]
    exact ⟨capacity, rfl, by omega, Nat.le_refl _, .inl rfl⟩

theorem reserve_asked (hspace : g.start + g.most ≤ largestBuffer) (hstart : g.start ≤ out.size)
    (hsize : out.size ≤ capacity) (hneeded : out.size - g.start + n ≤ 255 * g.src.size)
    (h : g.toDecoding.reserve out n = .ok ()) :
    ∃ capacity', g.reserve out capacity n = .ok capacity' ∧ out.size + n ≤ capacity' ∧
      g.Asked capacity capacity' := by
  have hlimit := Decoding.reserve_eq_ok_iff.mp h
  have hreserved : subSize capacity g.start = .ok (capacity - g.start) := subSize_eq_ok (by omega)
  unfold reserve
  simp only [dif_pos hlimit, hreserved]
  by_cases hfull : capacity - g.start < out.size - g.start + n
  · have hpos : 0 < max (capacity - g.start) initialCapacity := by
      rw [initialCapacity]
      omega
    have hlt : out.size - g.start + n < sizeLimit := Nat.lt_of_le_of_lt hlimit g.limit_lt
    have hle := @le_doubled _ _ hpos hlt
    have hmost := @doubled_le _ _ hpos hlt
    have hwanted : min (doubled _ _ hpos hlt) g.limit ≤ g.most := by
      rw [most]
      omega
    obtain ⟨capacity', hgrown, hroom, hasked⟩ := growTo_asked hspace hwanted hsize
    refine ⟨capacity', ?_, by omega, hasked⟩
    change (if _ then _ else _) = _
    rw [if_pos hfull]
    rw [hgrown]
    rfl
  · refine ⟨capacity, ?_, by omega, Nat.le_refl _, .inl rfl⟩
    change (if _ then _ else _) = _
    rw [if_neg hfull]
    rfl

theorem reserve_refused {e : Error} (h : g.toDecoding.reserve out n = .error e) :
    g.reserve out capacity n = .error e := by
  rw [Decoding.reserve] at h
  split at h
  next => cases h
  next hlimit =>
    cases h
    exact dif_neg hlimit

theorem Asked.trans {a b c : Nat} (h : g.Asked a b) (h' : g.Asked b c) : g.Asked a c := by
  obtain ⟨hle, hasked⟩ := h
  obtain ⟨hle', rfl | hasked'⟩ := h'
  · exact ⟨hle, hasked⟩
  · exact ⟨Nat.le_trans hle hle', .inr hasked'⟩

variable {ip token used offset : Nat}

theorem literals_asked (hspace : g.start + g.most ≤ largestBuffer) (hstart : g.start ≤ out.size)
    (hsize : out.size ≤ capacity) (hproduced : out.size - g.start ≤ 255 * ip)
    (h : g.toDecoding.literals out ip token = .ok (n, used)) :
    ∃ capacity', g.literals out capacity ip token = .ok (n, used, capacity') ∧ out.size + n ≤ capacity' ∧
      g.Asked capacity capacity' := by
  unfold Decoding.literals at h
  simp only [bind_eq_ok_iff, check_eq_ok_iff, pure_eq_ok_iff, Prod.exists, Prod.mk.injEq] at h
  obtain ⟨_, _, htoken, hend, _, hreserve, rfl, rfl⟩ := h
  obtain ⟨capacity', hgrown, hroom, hasked⟩ := reserve_asked hspace hstart hsize (by omega) hreserve
  refine ⟨capacity', ?_, hroom, hasked⟩
  unfold literals
  simp only [htoken]
  change (if _ then _ else _) = _
  rw [if_neg hend, hgrown]
  rfl

theorem literals_refused {e : Error} (h : g.toDecoding.literals out ip token = .error e) :
    g.literals out capacity ip token = .error e := by
  unfold Decoding.literals at h
  simp only [bind_eq_error_iff, check_eq_error_iff] at h
  unfold literals
  simp only [bind_eq_error_iff, check_eq_error_iff]
  rcases h with h | ⟨token, htoken, h | ⟨hend, h | ⟨_, _, h⟩⟩⟩
  · exact .inl h
  · exact .inr ⟨token, htoken, .inl h⟩
  · exact .inr ⟨token, htoken, .inr ⟨hend, .inl (reserve_refused h)⟩⟩
  · cases h

theorem backReference_asked (hspace : g.start + g.most ≤ largestBuffer) (hstart : g.start ≤ out.size)
    (hsize : out.size ≤ capacity) (hproduced : out.size - g.start ≤ 255 * ip)
    (h : g.toDecoding.backReference out ip token = .ok (offset, n, used)) :
    ∃ capacity', g.backReference out capacity ip token = .ok (offset, n, used, capacity') ∧
      out.size + n ≤ capacity' ∧ g.Asked capacity capacity' ∧ n ≤ 255 * (2 + used) := by
  obtain ⟨_, ⟨_, _, _, hused, hat⟩, _⟩ := Decoding.backReference_eq_ok_iff.mp h
  have hle := hat.le
  have hlength := size_extension_le (n - minMatch)
  rw [← hused] at hle hlength
  rw [minMatch, nibbleLimit] at hlength
  unfold Decoding.backReference at h
  simp only [bind_eq_ok_iff, check_eq_ok_iff, pure_eq_ok_iff, lift_eq_ok_iff, Prod.exists, Prod.mk.injEq] at h
  obtain ⟨hip, hoffset, _, used, htoken, n, hadd, _, hreserve, rfl, rfl, rfl⟩ := h
  have hneeded : out.size - g.start + n ≤ 255 * g.src.size := by
    omega
  obtain ⟨capacity', hgrown, hroom, hasked⟩ := reserve_asked hspace hstart hsize hneeded hreserve
  refine ⟨capacity', ?_, hroom, hasked, by omega⟩
  unfold backReference
  simp only [if_neg hip, if_neg hoffset, htoken]
  change (liftM (addSize _ minMatch) : Except Error Nat) >>= _ = _
  rw [hadd]
  change (g.reserve _ _ _ >>= _) = _
  rw [hgrown]
  rfl

theorem backReference_refused {e : Error} (h : g.toDecoding.backReference out ip token = .error e) :
    g.backReference out capacity ip token = .error e := by
  unfold Decoding.backReference at h
  simp only [bind_eq_error_iff, check_eq_error_iff] at h
  unfold backReference
  simp only [bind_eq_error_iff, check_eq_error_iff]
  rcases h with h | ⟨hip, h | ⟨hoffset, h | ⟨token, htoken, h | ⟨n, hadd, h | ⟨_, _, h⟩⟩⟩⟩⟩
  · exact .inl h
  · exact .inr ⟨hip, .inl h⟩
  · exact .inr ⟨hip, .inr ⟨hoffset, .inl h⟩⟩
  · exact .inr ⟨hip, .inr ⟨hoffset, .inr ⟨token, htoken, .inl h⟩⟩⟩
  · exact .inr ⟨hip, .inr ⟨hoffset, .inr ⟨token, htoken, .inr ⟨n, hadd, .inl (reserve_refused h)⟩⟩⟩⟩
  · cases h

/-- A growing buffer changes nothing of what is decoded, and holds all of it. -/
theorem run_asked (hspace : g.start + g.most ≤ largestBuffer) (hstart : g.start ≤ out.size)
    (hsize : out.size ≤ capacity) (hproduced : out.size - g.start ≤ 255 * ip) :
    ∃ capacity', g.run ip out capacity = ((g.toDecoding.run ip out).1, (g.toDecoding.run ip out).2, capacity') ∧
      (g.toDecoding.run ip out).2.size ≤ capacity' ∧ g.Asked capacity capacity' := by
  -- A byte of the block stands for 255 at the most, which bounds the room that is asked for.
  induction hk : g.src.size - ip using Nat.strongRecOn generalizing ip out capacity with
  | ind k ih =>
    rw [run, Decoding.run]
    by_cases hip : ip < g.src.size
    case neg =>
      simp only [dif_neg hip]
      exact ⟨capacity, rfl, hsize, Nat.le_refl _, .inl rfl⟩
    simp only [dif_pos hip]
    rcases hliterals : g.toDecoding.literals out (ip + 1) g.src[ip].toNat with e | ⟨n, used⟩
    · simp only [literals_refused hliterals]
      exact ⟨capacity, rfl, hsize, Nat.le_refl _, .inl rfl⟩
    obtain ⟨capacity₁, hgrown, hroom, hasked⟩ := literals_asked hspace hstart hsize (by omega) hliterals
    have hend := ((Decoding.literals_eq_ok_iff hip (UInt8.toNat_lt _)).mp hliterals).2.1
    simp only [hgrown]
    have hsize₁ : (out ++ g.src.extract (ip + 1 + used) (ip + 1 + used + n)).size = out.size + n := by
      rw [ByteArray.size_append, ByteArray.size_extract]
      omega
    by_cases hlast : ip + 1 + used + n = g.src.size
    · simp only [if_pos hlast]
      exact ⟨capacity₁, rfl, by omega, hasked⟩
    simp only [if_neg hlast]
    generalize out ++ g.src.extract (ip + 1 + used) (ip + 1 + used + n) = out₁ at hsize₁ ⊢
    rcases hback : g.toDecoding.backReference out₁ (ip + 1 + used + n) g.src[ip].toNat with e | ⟨offset, length, more⟩
    · simp only [backReference_refused hback]
      exact ⟨capacity₁, rfl, by omega, hasked⟩
    have hfits : out₁.size ≤ capacity₁ := by omega
    obtain ⟨capacity₂, hgrown', hroom', hasked', hlength⟩ :=
      backReference_asked hspace (by omega) hfits (by omega) hback
    have hsize₂ := size_copyBack out₁ offset length
    have hfits' : (copyBack out₁ offset length).size ≤ capacity₂ := by omega
    simp only [hgrown']
    obtain ⟨capacity₃, hrun, hheld, hasked''⟩ :=
      ih (g.src.size - (ip + 1 + used + n + 2 + more)) (by omega) (by omega) hfits' (by omega) rfl
    exact ⟨capacity₃, hrun, hheld, (hasked.trans hasked').trans hasked''⟩

end Growing

/-- Decodes a block behind the bytes of `out`, in a buffer with room for `capacity` of them. The last part is the
capacity of the buffer then. -/
def decompressGrowing (a : Allocator) (src out : ByteArray) (capacity limit : Nat) (hlimit : limit < sizeLimit) :
    Except Error Nat × ByteArray × Nat :=
  let g : Growing := ⟨⟨src, out.size, limit⟩, a, hlimit⟩
  match g.growTo out.size capacity (min (max (min (2 * src.size) (sizeLimit - 1)) initialCapacity) limit) with
  | .error f => (.error (.fault f), out, capacity)
  | .ok capacity =>
    if src.isEmpty then (.error (.block .emptyBlock), out, capacity)
    else
      match g.run 0 out capacity with
      | (.ok (), result, capacity) => (.ok (result.size - out.size), result, capacity)
      | (.error e, result, capacity) => (.error e, result.extract 0 out.size, capacity)

theorem decompressGrowing_eq {a : Allocator} {src out : ByteArray} {capacity limit : Nat} (hlimit : limit < sizeLimit)
    (hsrc : src.size < 2 ^ 48) (hout : out.size ≤ 2 ^ 62) (hsize : out.size ≤ capacity) :
    ∃ capacity', decompressGrowing a src out capacity limit hlimit =
        ((decompressInto src out limit).1, (decompressInto src out limit).2, capacity') ∧
      (decompressInto src out limit).2.size ≤ capacity' ∧
      Growing.Asked ⟨⟨src, out.size, limit⟩, a, hlimit⟩ capacity capacity' := by
  have hmost : Growing.most ⟨⟨src, out.size, limit⟩, a, hlimit⟩ = min limit (max initialCapacity (510 * src.size)) :=
    rfl
  have hspace : out.size + Growing.most ⟨⟨src, out.size, limit⟩, a, hlimit⟩ ≤ largestBuffer := by
    rw [hmost, initialCapacity, largestBuffer]
    omega
  have hwanted : min (max (min (2 * src.size) (sizeLimit - 1)) initialCapacity) limit ≤
      Growing.most ⟨⟨src, out.size, limit⟩, a, hlimit⟩ := by
    rw [hmost]
    omega
  obtain ⟨capacity₁, hgrown, _, hasked⟩ := Growing.growTo_asked hspace hwanted hsize
  have hsize₁ : out.size ≤ capacity₁ := Nat.le_trans hsize hasked.1
  rw [decompressGrowing, decompressInto]
  simp only [hgrown]
  by_cases hempty : src.isEmpty
  · simp only [if_pos hempty]
    exact ⟨capacity₁, rfl, hsize₁, hasked⟩
  simp only [if_neg hempty]
  obtain ⟨capacity₂, hrun, hheld, hasked'⟩ :=
    @Growing.run_asked ⟨⟨src, out.size, limit⟩, a, hlimit⟩ out capacity₁ 0 hspace (Nat.le_refl _) hsize₁ (by simp)
  rw [hrun]
  rcases hdecoded : Decoding.run ⟨src, out.size, limit⟩ 0 out with ⟨e | u, result⟩
  · rw [hdecoded] at hheld
    refine ⟨capacity₂, rfl, ?_, hasked.trans hasked'⟩
    simp only [ByteArray.size_extract] at *
    omega
  · rw [hdecoded] at hheld
    exact ⟨capacity₂, rfl, hheld, hasked.trans hasked'⟩

/-- A decoder always comes to an end: it adds all of a block, within the limit, or refuses it and adds nothing. The
buffer that grows meanwhile never makes it fail, and is never asked to be larger than the block can need. -/
theorem decompressInto_adds_all_or_nothing {src : ByteArray} (out : ByteArray) (limit : Nat)
    (hsize : src.size < 2 ^ 48) :
    ((∃ n more, decompressInto src out limit = (.ok n, out ++ more) ∧ more.size = n ∧ n ≤ limit) ∨
      ∃ e, decompressInto src out limit = (.error e, out) ∧ Decoding.Refuses ⟨src, out.size, limit⟩ e) ∧
    ∀ (a : Allocator) (capacity : Nat) (hlimit : limit < sizeLimit), out.size ≤ 2 ^ 62 → out.size ≤ capacity →
      ∃ capacity', decompressGrowing a src out capacity limit hlimit =
          ((decompressInto src out limit).1, (decompressInto src out limit).2, capacity') ∧
        (decompressInto src out limit).2.size ≤ capacity' ∧
        Growing.Asked ⟨⟨src, out.size, limit⟩, a, hlimit⟩ capacity capacity' := by
  refine ⟨?_, fun a capacity hlimit hout hheld => decompressGrowing_eq hlimit hsize hout hheld⟩
  rcases h : decompressInto src out limit with ⟨e | n, result⟩
  · obtain ⟨hrefuses, rfl⟩ := decompressInto_error hsize h
    exact .inr ⟨e, rfl, hrefuses⟩
  · obtain ⟨more, rfl, hmore, hle, _⟩ := decompressInto_ok_le h
    exact .inl ⟨n, more, rfl, hmore, hle⟩

/-- Behind two bytes and one literal a match cannot reach back five. -/
theorem decompressInto_adds_all_or_nothing_of_far_match :
    (⟨#[0x10, 97, 5, 0]⟩ : ByteArray).size < 2 ^ 48 ∧
      decompressInto ⟨#[0x10, 97, 5, 0]⟩ ⟨#[8, 9]⟩ 64 = (.error (.matchOffset 5 1), ⟨#[8, 9]⟩) ∧ 2 + 1 < 5 ∧
      ∃ capacity, decompressGrowing ⟨id, Nat.le_refl⟩ ⟨#[0x10, 97, 5, 0]⟩ ⟨#[8, 9]⟩ 2 64 (by decide) =
        (.error (.matchOffset 5 1), ⟨#[8, 9]⟩, capacity) := by
  have hsize : (⟨#[0x10, 97, 5, 0]⟩ : ByteArray).size < 2 ^ 48 := by decide
  have hanswer : decompressInto ⟨#[0x10, 97, 5, 0]⟩ ⟨#[8, 9]⟩ 64 = (.error (.matchOffset 5 1), ⟨#[8, 9]⟩) := by
    rw [decompressInto_eq_error_iff_run, if_neg (by decide), Decoding.run]
    exact ⟨rfl, rfl⟩
  obtain ⟨hall, hgrowing⟩ := decompressInto_adds_all_or_nothing ⟨#[8, 9]⟩ 64 hsize
  obtain ⟨capacity, hgrown, _⟩ := hgrowing ⟨id, Nat.le_refl⟩ 2 (by decide) (by decide) (by decide)
  rw [hanswer] at hgrown
  refine ⟨hsize, hanswer, ?_, capacity, hgrown⟩
  rcases hall with ⟨n, more, hok, _⟩ | ⟨e, herror, hrefuses⟩
  · rw [hanswer] at hok
    cases hok
  · rw [hanswer] at herror
    cases herror
    cases hrefuses with
    | reach h => exact h.resolve_left (by decide)

end LempelZiv
