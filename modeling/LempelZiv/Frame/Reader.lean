import LempelZiv.Notice
import LempelZiv.Block.Decompress
import LempelZiv.Frame.Header
import LempelZiv.Frame.Writer
import LempelZiv.Stream.Source

namespace LempelZiv

/-- How many decoded bytes blocks that are linked may reach back. -/
def linkedHistory : Nat := 65536

inductive ReaderPhase where
  /-- No header has been read. -/
  | fresh
  | begun
  | ended
  | failed
  deriving DecidableEq, Repr

/-- A frame on its way out of a source. `pending` has decoded bytes, of which those from `pos` on
have not been handed out; in linked frames those before serve as history. -/
structure Reader (φ : Type) where
  source : Source φ
  phase : ReaderPhase := .fresh
  descriptor : Descriptor := {}
  pending : ByteArray := ByteArray.empty
  pos : Nat := 0
  /-- The last payload. -/
  block : ByteArray := ByteArray.empty
  digest : Option XXH32 := none
  produced : Nat := 0
  /-- What there was to say, the last first. -/
  notices : List Notice := []

namespace Reader

variable {φ : Type}

def new (source : Source φ) : Reader φ where
  source := source

def note (r : Reader φ) (n : Notice) : Reader φ := { r with notices := n :: r.notices }

/-- A source that ends too early is a flaw of the frame. -/
def streamError (e : StreamError) : Error :=
  if e.failure = .unexpectedEnd then .frame .unexpectedEnd else .stream e

/-- The outcome of a step that reads `n` bytes at least. -/
inductive Step (r : Reader φ) (n : Nat) (α : Type) where
  | done (value : α) (next : Reader φ) (left_le : next.source.left + n ≤ r.source.left)
  | failed (error : Error) (next : Reader φ) (left_le : next.source.left ≤ r.source.left)

variable [Feed φ]

/-- Takes the next `n` bytes of the source. -/
def take (r : Reader φ) (n : Nat) : Step r n ByteArray :=
  match r.source.fetch n with
  | .got bytes source h => .done bytes { r with source := source } (Nat.le_of_eq h)
  | .broken e source h => .failed (streamError e) { r with source := source } h

def takeWord (r : Reader φ) : Step r 4 Nat :=
  match r.take 4 with
  | .done bytes r1 h => .done (readLE bytes 0 4) r1 h
  | .failed e r1 h => .failed e r1 h

/-- Reads the header. -/
def readHeader (r : Reader φ) : Step r headerStart Unit :=
  match r.take headerStart with
  | .failed e r1 h1 => .failed e r1 h1
  | .done start r1 h1 =>
    match Descriptor.restLength start with
    | .error e => .failed e r1 (by omega)
    | .ok n =>
      match r1.take n with
      | .failed e r2 h2 => .failed e r2 (by omega)
      | .done rest r2 h2 =>
        match Descriptor.ofHeader start rest with
        | .error e => .failed e r2 (by omega)
        | .ok d =>
          .done () { r2.note (.headerRead (d.blockSize.bytes / 1024) d.independent d.contentSize)
            with
            phase := .begun
            descriptor := d
            digest := if d.contentChecksum then some (XXH32.start 0) else none }
            (by
              show r2.source.left + headerStart ≤ _
              omega)

/-- What the header says. It is read if it has not been. -/
def info (r : Reader φ) : Except Error Descriptor × Reader φ :=
  match r.phase with
  | .failed => (.error (.frame .failedEarlier), r)
  | .begun => (.ok r.descriptor, r)
  | .ended => (.ok r.descriptor, r)
  | .fresh =>
    match r.readHeader with
    | .done () r1 _ => (.ok r1.descriptor, r1)
    | .failed e r1 _ => (.error e, r1)

/-- Checks the content against the digest and the size that the frame declares. -/
def checkContent (r : Reader φ) : Step r 0 Unit :=
  match r.digest with
  | none => checkSize r (Nat.le_refl _)
  | some digest =>
    match takeWord { r with digest := none } with
    | .failed e r1 h1 => .failed e r1 h1
    | .done expected r1 h1 =>
      if expected = digest.digest.toNat then checkSize r1 (Nat.le_trans (Nat.le_add_right _ 4) h1)
      else
        .failed (.checksum .content expected digest.digest.toNat) r1
          (Nat.le_trans (Nat.le_add_right _ 4) h1)
where
  checkSize (r1 : Reader φ) (h1 : r1.source.left ≤ r.source.left) : Step r 0 Unit :=
    match r1.descriptor.contentSize with
    | none => .done () { r1 with phase := .ended } h1
    | some declared =>
      if declared = r1.produced then .done () { r1 with phase := .ended } h1
      else .failed (.contentSize declared r1.produced) r1 h1

/-- The bytes of a payload, after its checksum has been compared. There is room for all of them
before the first is read. -/
def takePayload (r : Reader φ) (n : Nat) : Step r 0 ByteArray :=
  match r.take n with
  | .failed e r1 h1 => .failed e { r1 with block := resize r1.block n } h1
  | .done payload r1 h1 =>
    if r1.descriptor.blockChecksum then
      match takeWord { r1 with block := payload } with
      | .failed e r2 h2 => .failed e r2 (Nat.le_trans (Nat.le_trans h2 (Nat.le_add_right _ n)) h1)
      | .done expected r2 h2 =>
        let actual := (xxh32 0 payload).toNat
        have left_le : r2.source.left ≤ r.source.left :=
          Nat.le_trans (Nat.le_of_add_right_le h2) (Nat.le_of_add_right_le h1)
        if expected = actual then .done payload r2 left_le
        else .failed (.checksum .block expected actual) r2 left_le
    else .done payload { r1 with block := payload } (Nat.le_of_add_right_le h1)

/-- The decoded bytes that the next block may reach. -/
def history (r : Reader φ) : ByteArray :=
  if r.descriptor.independent then ByteArray.empty
  else r.pending.extract (r.pending.size - linkedHistory) r.pending.size

/-- Reads the next block. The value is false at the end mark. -/
def nextBlock (r : Reader φ) : Step r 4 Bool :=
  match r.takeWord with
  | .failed e r1 h1 => .failed e r1 h1
  | .done word r1 h1 =>
    if word = 0 then
      match r1.checkContent with
      | .failed e r2 h2 => .failed e r2 (by omega)
      | .done () r2 h2 => .done false r2 (by omega)
    else
      let stored := storedFlag ≤ word
      let n := word % storedFlag
      let most := r1.descriptor.blockSize.bytes
      if most < n then .failed (.frame .oversizedBlock) r1 (by omega)
      else
        match r1.takePayload n with
        | .failed e r2 h2 => .failed e r2 (by omega)
        | .done payload r2 h2 =>
          let history := r2.history
          let start := history.size
          match (if stored then (.ok payload.size, history ++ payload)
              else decompressInto payload history most : Except Error Nat × ByteArray) with
          | (.error e, pending) =>
            .failed e { r2 with pending := pending, pos := start } (by
              show r2.source.left ≤ _
              omega)
          | (.ok count, pending) =>
            .done true { r2.note (.block (n + 4) count stored) with
              phase := .begun
              digest := r2.digest.map fun x => x.update (dropBytes pending start)
              produced := r2.produced + count
              pending := pending
              pos := start } (by
                show r2.source.left + 4 ≤ _
                omega)

/-- What is decoded and not handed out. -/
def available (r : Reader φ) : Nat := r.pending.size - r.pos

/-- A reader that is nearer to the end of what it can hand out. -/
def Nearer (next r : Reader φ) : Prop :=
  next.source.left < r.source.left ∨
    next.source.left ≤ r.source.left ∧ next.available < r.available

/-- The outcome of a read. -/
inductive Delivery (r : Reader φ) where
  | gave (bytes : ByteArray) (next : Reader φ) (nearer : Nearer next r) (size_pos : 0 < bytes.size)
  | ended (next : Reader φ)
  | failed (error : Error) (next : Reader φ)

/-- A reader after an error: it has nothing more to hand out. -/
def broken (r : Reader φ) : Reader φ := { r with phase := .failed, pos := r.pending.size }

/-- Hands out up to `n` decoded bytes, and reads blocks until there are some. -/
def serve (origin r : Reader φ) (n : Nat) (hn : 0 < n)
    (h : r.source.left < origin.source.left ∨
      r.source.left ≤ origin.source.left ∧ r.available ≤ origin.available) : Delivery origin :=
  if ha : 0 < r.available then
    let stop := r.pos + min n r.available
    .gave (r.pending.extract r.pos stop) { r with pos := stop } (by
      have hless : r.pending.size - (r.pos + min n r.available) < r.available := by
        have hmin : 0 < min n r.available := by omega
        unfold available at *
        omega
      rcases h with h | h
      · exact Or.inl h
      · exact Or.inr ⟨h.1, Nat.lt_of_lt_of_le hless h.2⟩)
      (by
        show 0 < (r.pending.extract r.pos (r.pos + min n r.available)).size
        rw [ByteArray.size_extract]
        unfold available at *
        omega)
  else if r.phase = .ended then .ended r
  else
    match r.nextBlock with
    | .failed e r1 _ => .failed e r1.broken
    | .done false r1 _ => .ended r1
    | .done true r1 h1 => serve origin r1 n hn (Or.inl (by omega))
  termination_by r.source.left

/-- Reads up to `n` bytes; none at the end of the frame. After an error all reads fail. -/
def read (r : Reader φ) (n : Nat) : Delivery r :=
  if hn : 0 < n then
    match r.phase with
    | .failed => .failed (.frame .failedEarlier) r.broken
    | .begun => serve r r n hn (Or.inr ⟨Nat.le_refl _, Nat.le_refl _⟩)
    | .ended => serve r r n hn (Or.inr ⟨Nat.le_refl _, Nat.le_refl _⟩)
    | .fresh =>
      match r.readHeader with
      | .failed e r1 _ => .failed e r1.broken
      | .done () r1 h1 => serve r r1 n hn (Or.inl (by simp only [headerStart] at h1; omega))
  else .ended r

/-- How reading in pieces of a fixed size ends: all bytes, the number of pieces, and the error that
ended it, if one did. -/
structure Drained (φ : Type) where
  bytes : ByteArray
  pieces : Nat
  error : Option Error
  reader : Reader φ

/-- Reads pieces of up to `n` bytes until there are no more. -/
def drainFrom (r : Reader φ) (n : Nat) (bytes : ByteArray) (pieces : Nat) : Drained φ :=
  match r.read n with
  | .gave more next _ _ => drainFrom next n (bytes ++ more) (pieces + 1)
  | .ended next => ⟨bytes, pieces, none, next⟩
  | .failed e next => ⟨bytes, pieces, some e, next⟩
  termination_by (r.source.left, r.available)
  decreasing_by
    next nearer _ =>
    rcases nearer with h | ⟨h1, h2⟩
    · exact Prod.Lex.left _ _ h
    · rcases Nat.lt_or_eq_of_le h1 with h | h
      · exact Prod.Lex.left _ _ h
      · rw [h]
        exact Prod.Lex.right _ h2

def drain (r : Reader φ) (n : Nat) : Drained φ := r.drainFrom n ByteArray.empty 0

end Reader

/-- The content of the frame at the start of `data`. -/
def decompressFrame (data : ByteArray) : Except Error ByteArray :=
  let d := (Reader.new (⟨⟨⟩, data, 0⟩ : Source Steady)).drain 65536
  match d.error with
  | none => .ok d.bytes
  | some e => .error e

end LempelZiv
