import LempelZiv.Proofs.LawfulBlocks
import LempelZiv.Proofs.Splicing

namespace LempelZiv

theorem tokenBytes_append_inj {n m code spare : Nat} {a b : ByteArray} (hcode : code < 16) (hspare : spare < 16)
    (h : tokenBytes n code ++ a = tokenBytes m spare ++ b) : n = m ∧ code = spare ∧ a = b := by
  have hat := hasAt_self (tokenBytes n code ++ a)
  have hat' := hasAt_self (tokenBytes m spare ++ b)
  rw [← h] at hat'
  have hm : HasAt (tokenBytes n code ++ a) 0 (tokenBytes m spare ++ b) := h ▸ hat'
  obtain ⟨rfl, rfl⟩ := tokenBytes_unique hcode hspare (hasAt_append.mp hat).1 (hasAt_append.mp hm).1
  exact ⟨rfl, rfl, ((ByteArray.append_eq_append_iff_of_size_eq_left rfl).mp h).2⟩

namespace Parse

/-- The literals that a block begins with. -/
def leading (p : Parse) : ByteArray :=
  match p.sequences with
  | [] => p.tail
  | s :: _ => s.literals

/-- Puts bytes in front of the first literals. -/
def lead (carried : ByteArray) (p : Parse) : Parse :=
  match p.sequences with
  | [] => { p with tail := carried ++ p.tail }
  | s :: ss => { p with sequences := s.lead carried :: ss }

variable {carried out src : ByteArray} {limit n m : Nat}

theorem bytes_eq_token (p : Parse) : ∃ code behind, code < 16 ∧ p.bytes = tokenBytes p.leading.size code ++ behind ∧
    ∀ carried, (p.lead carried).bytes = tokenBytes (carried.size + p.leading.size) code ++ (carried ++ behind) := by
  cases p with
  | last tail spare hspare =>
    refine ⟨spare, tail, hspare, bytes_last hspare, ?_⟩
    intro carried
    change (Parse.last (carried ++ tail) spare hspare).bytes = _
    rw [bytes_last, ByteArray.size_append]
    rfl
  | cons s p =>
    obtain ⟨code, behind, hcode, hs, hlead⟩ := s.bytes_eq_token
    refine ⟨code, behind ++ p.bytes, hcode, ?_, ?_⟩
    · rw [bytes_cons, hs, ByteArray.append_assoc]
      rfl
    · intro carried
      change (p.cons (s.lead carried)).bytes = _
      rw [bytes_cons, hlead, ByteArray.append_assoc, ByteArray.append_assoc]
      rfl

theorem lead_bytes_iff {p : Parse} {code : Nat} {behind : ByteArray} (hcode : code < 16) :
    (p.lead carried).bytes = tokenBytes (carried.size + p.leading.size) code ++ (carried ++ behind) ↔
      p.bytes = tokenBytes p.leading.size code ++ behind := by
  obtain ⟨code', behind', hcode', hp, hlead⟩ := p.bytes_eq_token
  rw [hlead, hp]
  constructor
  · intro h
    obtain ⟨_, rfl, hbehind⟩ := tokenBytes_append_inj hcode' hcode h
    rw [((ByteArray.append_eq_append_iff_of_size_eq_left rfl).mp hbehind).2]
  · intro h
    obtain ⟨_, rfl, rfl⟩ := tokenBytes_append_inj hcode' hcode h
    rfl

theorem size_leading {p : Parse} {code : Nat} {behind : ByteArray} (hcode : code < 16)
    (h : p.bytes = tokenBytes n code ++ behind) : p.leading.size = n := by
  obtain ⟨code', behind', hcode', hp, _⟩ := p.bytes_eq_token
  exact (tokenBytes_append_inj hcode' hcode (hp.symm.trans h)).1

/-- A block whose first token counts the carried bytes is the lead of another, if the carried bytes follow the token. -/
theorem exists_lead {q : Parse} {code : Nat} {behind : ByteArray} (hcode : code < 16)
    (h : q.bytes = tokenBytes (carried.size + n) code ++ (carried ++ behind)) :
    ∃ p : Parse, q = p.lead carried ∧ p.leading.size = n := by
  cases q with
  | last tail spare hspare =>
    rw [bytes_last] at h
    obtain ⟨hsize, rfl, rfl⟩ := tokenBytes_append_inj hspare hcode h
    rw [ByteArray.size_append] at hsize
    exact ⟨.last behind spare hspare, rfl, Nat.add_left_cancel hsize⟩
  | cons t q =>
    have htoken : min (t.length - minMatch) nibbleLimit < 16 := by
      rw [nibbleLimit]
      omega
    rw [bytes_cons, Sequence.bytes] at h
    simp only [ByteArray.append_assoc] at h
    obtain ⟨hsize, _, hbehind⟩ := tokenBytes_append_inj htoken hcode h
    obtain ⟨more, hmore, _⟩ := exists_append_of_size_le hbehind (by omega)
    rw [hmore, ByteArray.size_append] at hsize
    refine ⟨q.cons { t with literals := more }, ?_, Nat.add_left_cancel hsize⟩
    change q.cons t = q.cons { t with literals := carried ++ more }
    rw [← hmore]

theorem decodable_last_iff {tail : ByteArray} {spare present : Nat} {h : spare < 16} :
    (Parse.last tail spare h).Decodable present limit ↔ tail.size < sizeLimit ∧ tail.size ≤ limit := by
  have hsize := expandedSize_last tail h
  refine ⟨fun hd => ⟨hd.tail_sized, hsize ▸ hd.room⟩, fun hd => ⟨trivial, by simp [last], hd.1, ?_⟩⟩
  rw [hsize]
  exact hd.2

theorem decodable_cons_iff {s : Sequence} {p : Parse} {present : Nat} : (p.cons s).Decodable present limit ↔
    (s.offset ≤ present + s.literals.size ∧ s.literals.size < sizeLimit ∧ s.length < sizeLimit) ∧
      s.literals.size + s.length ≤ limit ∧
      p.Decodable (present + s.literals.size + s.length) (limit - (s.literals.size + s.length)) := by
  have hsize := p.expandedSize_cons s
  constructor
  · rintro ⟨⟨hoffset, hwithin⟩, hsized, htail, hroom⟩
    rw [hsize] at hroom
    obtain ⟨hs, hrest⟩ := List.forall_mem_cons.mp hsized
    exact ⟨⟨hoffset, hs⟩, by omega, hwithin, hrest, htail, by omega⟩
  · rintro ⟨⟨hoffset, hs⟩, hle, hwithin, hsized, htail, hroom⟩
    exact ⟨⟨hoffset, hwithin⟩, List.forall_mem_cons.mpr ⟨hs, hsized⟩, htail, by omega⟩

theorem decodable_lead_iff {p : Parse} {present : Nat} (hsize : carried.size + p.leading.size < sizeLimit) :
    (p.lead carried).Decodable present (carried.size + limit) ↔ p.Decodable (present + carried.size) limit := by
  cases p with
  | last tail spare hspare =>
    change carried.size + tail.size < sizeLimit at hsize
    change (Parse.last (carried ++ tail) spare hspare).Decodable _ _ ↔ _
    rw [decodable_last_iff, decodable_last_iff, ByteArray.size_append]
    omega
  | cons s p =>
    change carried.size + s.literals.size < sizeLimit at hsize
    have hlead : (s.lead carried).literals.size = carried.size + s.literals.size := ByteArray.size_append
    change (p.cons (s.lead carried)).Decodable _ _ ↔ _
    rw [decodable_cons_iff, decodable_cons_iff, hlead]
    change (s.offset ≤ _ ∧ _ ∧ s.length < _) ∧ carried.size + s.literals.size + s.length ≤ _ ∧
      p.Decodable (present + (carried.size + s.literals.size) + s.length)
        (carried.size + limit - (carried.size + s.literals.size + s.length)) ↔ _
    rw [show present + (carried.size + s.literals.size) + s.length =
        present + carried.size + s.literals.size + s.length by omega,
      show carried.size + limit - (carried.size + s.literals.size + s.length) =
        limit - (s.literals.size + s.length) by omega]
    constructor
    · rintro ⟨⟨hoffset, _, hlength⟩, hle, hp⟩
      exact ⟨⟨by omega, by omega, hlength⟩, by omega, hp⟩
    · rintro ⟨⟨hoffset, _, hlength⟩, hle, hp⟩
      exact ⟨⟨by omega, hsize, hlength⟩, by omega, hp⟩

theorem expand_lead (p : Parse) (carried out : ByteArray) : (p.lead carried).expand out = p.expand (out ++ carried) := by
  cases p with
  | last tail spare hspare =>
    change out ++ (carried ++ tail) = out ++ carried ++ tail
    rw [ByteArray.append_assoc]
  | cons s p =>
    change p.expand ((s.lead carried).expand out) = p.expand (s.expand (out ++ carried))
    rw [Sequence.expand, Sequence.expand, Sequence.lead, ByteArray.append_assoc]

theorem expandedSize_lead (p : Parse) (carried : ByteArray) :
    (p.lead carried).expandedSize = carried.size + p.expandedSize := by
  have hlead := (p.lead carried).size_expand ByteArray.empty
  rw [expand_lead, p.size_expand, ByteArray.empty_append, ByteArray.size_empty, Nat.zero_add] at hlead
  exact hlead.symm

end Parse

/-- Of the `n` bytes that are added, and of the `limit` that may be, the first `k` were added before `src` is decoded
behind `out`. -/
def DecodesAfter (k : Nat) (src out : ByteArray) (limit n : Nat) (result : ByteArray) : Prop :=
  ∃ limit' n', limit = k + limit' ∧ n = k + n' ∧ decompressInto src out limit' = (.ok n', result)

theorem decodesAfter_zero {limit n : Nat} {src out result : ByteArray} :
    DecodesAfter 0 src out limit n result ↔ decompressInto src out limit = (.ok n, result) := by
  constructor
  · rintro ⟨limit', n', rfl, rfl, h⟩
    rwa [Nat.zero_add, Nat.zero_add]
  · intro h
    exact ⟨limit, n, (Nat.zero_add limit).symm, (Nat.zero_add n).symm, h⟩

theorem decodesAfter_add {k l limit n : Nat} {src out src' out' result : ByteArray}
    (h : ∀ limit n, decompressInto src out limit = (.ok n, result) ↔ DecodesAfter l src' out' limit n result) :
    DecodesAfter k src out limit n result ↔ DecodesAfter (k + l) src' out' limit n result := by
  constructor
  · rintro ⟨_, _, rfl, rfl, hdecoded⟩
    obtain ⟨limit, n, rfl, rfl, hrest⟩ := (h _ _).mp hdecoded
    exact ⟨limit, n, (Nat.add_assoc k l limit).symm, (Nat.add_assoc k l n).symm, hrest⟩
  · rintro ⟨limit, n, rfl, rfl, hrest⟩
    exact ⟨l + limit, l + n, Nat.add_assoc k l limit, Nat.add_assoc k l n, (h _ _).mpr ⟨limit, n, rfl, rfl, hrest⟩⟩

section

variable {carried out src result : ByteArray} {limit n m : Nat}

/-- A token that counts carried bytes, and the carried bytes behind it, decode as the carried bytes and then the rest. -/
theorem decompressInto_lead {code : Nat} {behind : ByteArray} (hcode : code < 16)
    (hsize : carried.size + m < sizeLimit) :
    decompressInto (tokenBytes (carried.size + m) code ++ (carried ++ behind)) out limit = (.ok n, result) ↔
      DecodesAfter carried.size (tokenBytes m code ++ behind) (out ++ carried) limit n result := by
  rw [decompressInto_eq_ok_iff_decodable]
  constructor
  · rintro ⟨q, hq, hdecodable, rfl, rfl⟩
    obtain ⟨p, rfl, rfl⟩ := Parse.exists_lead hcode hq
    have hroom := hdecodable.room
    rw [p.expandedSize_lead] at hroom
    obtain ⟨limit, rfl⟩ := Nat.exists_eq_add_of_le (Nat.le_of_add_right_le hroom)
    refine ⟨limit, p.expandedSize, rfl, p.expandedSize_lead carried, ?_⟩
    rw [p.expand_lead, decompressInto_eq_ok_iff_decodable, ByteArray.size_append]
    exact ⟨p, (Parse.lead_bytes_iff hcode).mp hq, (Parse.decodable_lead_iff hsize).mp hdecodable, rfl, rfl⟩
  · rintro ⟨limit, _, rfl, rfl, h⟩
    obtain ⟨p, hp, hdecodable, rfl, rfl⟩ := decompressInto_eq_ok_iff_decodable.mp h
    obtain rfl := Parse.size_leading hcode hp
    rw [ByteArray.size_append] at hdecodable
    exact ⟨p.lead carried, (Parse.lead_bytes_iff hcode).mpr hp, (Parse.decodable_lead_iff hsize).mpr hdecodable,
      (p.expandedSize_lead carried).symm, (p.expand_lead carried out).symm⟩

theorem Parse.exists_cons {q : Parse} {s : Sequence} (h : q.bytes = s.bytes ++ src) :
    ∃ p : Parse, q = p.cons s ∧ p.bytes = src := by
  have hat := hasAt_self q.bytes
  rw [h] at hat
  have hs := (hasAt_append.mp hat).1
  rw [← h] at hs
  cases q with
  | last tail spare hspare => exact absurd hs (last_ne_sequence (hasAt_self _) (Nat.zero_add _))
  | cons t p =>
    rw [bytes_cons] at h hs
    cases sequence_unique (hasAt_append.mp (hasAt_self (t.bytes ++ p.bytes))).1 hs
    exact ⟨p, rfl, ((ByteArray.append_eq_append_iff_of_size_eq_left rfl).mp h).2⟩

theorem decompressInto_sequence {s : Sequence} : decompressInto (s.bytes ++ src) out limit = (.ok n, result) ↔
    (s.offset ≤ out.size + s.literals.size ∧ s.literals.size < sizeLimit ∧ s.length < sizeLimit) ∧
      DecodesAfter (s.literals.size + s.length) src (s.expand out) limit n result := by
  have hexpand := s.size_expand out
  rw [decompressInto_eq_ok_iff_decodable]
  constructor
  · rintro ⟨q, hq, hdecodable, rfl, rfl⟩
    obtain ⟨p, rfl, rfl⟩ := Parse.exists_cons hq
    obtain ⟨hs, hroom, hp⟩ := Parse.decodable_cons_iff.mp hdecodable
    obtain ⟨limit, rfl⟩ := Nat.exists_eq_add_of_le hroom
    rw [Nat.add_sub_cancel_left, ← hexpand] at hp
    exact ⟨hs, limit, p.expandedSize, rfl, p.expandedSize_cons s,
      decompressInto_eq_ok_iff_decodable.mpr ⟨p, rfl, hp, rfl, rfl⟩⟩
  · rintro ⟨hs, limit, _, rfl, rfl, h⟩
    obtain ⟨p, rfl, hp, rfl, rfl⟩ := decompressInto_eq_ok_iff_decodable.mp h
    refine ⟨p.cons s, p.bytes_cons s, Parse.decodable_cons_iff.mpr ⟨hs, Nat.le_add_right _ _, ?_⟩,
      (p.expandedSize_cons s).symm, rfl⟩
    rwa [Nat.add_sub_cancel_left, ← hexpand]

/-- Where sequences decode with one ending, they decode with all that decodes behind them. -/
theorem decompressInto_sequences {ss : List Sequence} {ending ended : ByteArray} {room k : Nat}
    (h : decompressInto (sequencesBytes ss ++ ending) out room = (.ok k, ended)) :
    decompressInto (sequencesBytes ss ++ src) out limit = (.ok n, result) ↔
      DecodesAfter (expandedSize ss) src (expandAll out ss) limit n result := by
  -- what `h` has to say of each sequence, that its offset and its lengths are allowed, does not depend on the ending
  induction ss generalizing out room k limit n with
  | nil =>
    rw [sequencesBytes, ByteArray.empty_append]
    exact decodesAfter_zero.symm
  | cons s ss ih =>
    rw [sequencesBytes, ByteArray.append_assoc, decompressInto_sequence] at h
    obtain ⟨hs, _, _, _, _, hended⟩ := h
    rw [sequencesBytes, ByteArray.append_assoc, decompressInto_sequence, and_iff_right hs, expandedSize_cons,
      expandAll_cons]
    exact decodesAfter_add fun _ _ => ih hended

/-- A last sequence without literals adds nothing. -/
theorem decompressInto_nothing (h : decompressInto ⟨#[0]⟩ out limit = (.ok n, result)) : n = 0 ∧ result = out := by
  obtain ⟨p, hp, _, rfl, rfl⟩ := decompressInto_eq_ok_iff_decodable.mp h
  have hlast : (Parse.last ByteArray.empty 0 (by decide)).bytes = ⟨#[0]⟩ := by rfl
  obtain rfl := Parse.eq_of_bytes_eq (hp.trans hlast.symm)
  exact ⟨rfl, ByteArray.append_empty⟩

/-- Where sequences decode with nothing behind them, they decode with all that decodes behind what they gave. -/
theorem decompressInto_closed {ss : List Sequence} {old : ByteArray} {room k : Nat}
    (h : decompressInto (sequencesBytes ss ++ ⟨#[0]⟩) out room = (.ok k, old)) :
    decompressInto (sequencesBytes ss ++ src) out limit = (.ok n, result) ↔ DecodesAfter k src old limit n result := by
  obtain ⟨_, _, _, rfl, hnothing⟩ := (decompressInto_sequences h).mp h
  obtain ⟨rfl, rfl⟩ := decompressInto_nothing hnothing
  exact decompressInto_sequences h

end

/-- Literals, and the match behind them if there is one. -/
inductive Entry where
  | sequence (s : Sequence)
  | literals (bytes : ByteArray)

namespace Entry

def write {σ : Type} [ByteSink σ] : Entry → σ → Except Fault σ
  | sequence s, sink => s.write sink
  | literals bytes, sink => writeLast bytes sink

/-- Puts bytes in front of the literals. -/
def lead (carried : ByteArray) : Entry → Entry
  | sequence s => sequence (s.lead carried)
  | literals bytes => literals (carried ++ bytes)

def bytes : Entry → ByteArray
  | sequence s => s.bytes
  | literals bytes => (Parse.last bytes 0 (by decide)).bytes

theorem write_eq (e : Entry) (sink : ByteArray) : e.write sink = .ok (sink ++ e.bytes) := by
  cases e with
  | sequence s => exact s.write_eq sink
  | literals bytes => exact (Parse.last bytes 0 (by decide)).write_eq sink

theorem bytes_eq_token (e : Entry) : ∃ n code behind, n ≤ e.bytes.size ∧ code < 16 ∧
    e.bytes = tokenBytes n code ++ behind ∧
    ∀ carried, (e.lead carried).bytes = tokenBytes (carried.size + n) code ++ (carried ++ behind) := by
  cases e with
  | sequence s =>
    obtain ⟨code, behind, htoken⟩ := s.bytes_eq_token
    refine ⟨s.literals.size, code, behind, ?_, htoken⟩
    rw [bytes, s.size_bytes]
    omega
  | literals bytes =>
    obtain ⟨code, behind, htoken⟩ := (Parse.last bytes 0 (by decide)).bytes_eq_token
    refine ⟨bytes.size, code, behind, ?_, htoken⟩
    rw [Entry.bytes, Parse.size_bytes_last]
    omega

end Entry

/-- Writes the entries in turn. -/
def writeEntries {σ : Type} [ByteSink σ] (es : List Entry) (sink : σ) : Except Fault σ :=
  es.foldlM (fun sink e => e.write sink) sink

def entriesBytes : List Entry → ByteArray
  | [] => ByteArray.empty
  | e :: es => e.bytes ++ entriesBytes es

theorem writeEntries_eq (es : List Entry) (sink : ByteArray) :
    writeEntries es sink = .ok (sink ++ entriesBytes es) := by
  induction es generalizing sink with
  | nil => exact congrArg Except.ok ByteArray.append_empty.symm
  | cons e es ih =>
    rw [writeEntries, List.foldlM_cons, e.write_eq]
    change writeEntries es (sink ++ e.bytes) = _
    rw [ih, entriesBytes, ByteArray.append_assoc]

theorem entriesBytes_sequences (ss : List Sequence) (es : List Entry) :
    entriesBytes (ss.map .sequence ++ es) = sequencesBytes ss ++ entriesBytes es := by
  induction ss with
  | nil => rw [sequencesBytes, ByteArray.empty_append, List.map_nil, List.nil_append]
  | cons s ss ih =>
    rw [List.map_cons, List.cons_append, entriesBytes, ih, sequencesBytes, ByteArray.append_assoc]
    rfl

/-- Splicing puts the carried bytes in front of the first literals of the body, and changes nothing else. Behind
whatever history the sequences decode at all, the joined stream decodes to what they stand for, then the carried bytes,
then what the body decodes to from there, whatever follows it. -/
theorem splice_leads_first_literals {ss : List Sequence} {first : Entry} {more : List Entry}
    {out carried body : ByteArray} (hout : writeEntries (ss.map .sequence) ByteArray.empty = .ok out)
    (hbody : writeEntries (first :: more) ByteArray.empty = .ok body)
    (hsize : carried.size + body.size < sizeLimit) :
    ∃ spliced, splice out carried body = .ok spliced ∧
      writeEntries (ss.map .sequence ++ first.lead carried :: more) ByteArray.empty = .ok spliced ∧
      ∀ history room k old, decompressInto (out ++ ⟨#[0]⟩) history room = (.ok k, old) →
        ∀ rest limit n result, decompressInto (spliced ++ rest) history limit = (.ok n, result) ↔
          DecodesAfter (k + carried.size) (body ++ rest) (old ++ carried) limit n result := by
  have hsequences := entriesBytes_sequences ss []
  rw [writeEntries_eq, ByteArray.empty_append] at hout hbody
  rw [List.append_nil, entriesBytes, ByteArray.append_empty] at hsequences
  rw [hsequences] at hout
  cases hout
  cases hbody
  obtain ⟨m, code, behind, hm, hcode, hfirst, hlead⟩ := first.bytes_eq_token
  have hbody : entriesBytes (first :: more) = tokenBytes m code ++ (behind ++ entriesBytes more) := by
    rw [entriesBytes, hfirst, ByteArray.append_assoc]
  have hfits : carried.size + m < sizeLimit := by
    rw [entriesBytes, ByteArray.size_append] at hsize
    omega
  have hspliced : (first.lead carried).bytes ++ entriesBytes more =
      tokenBytes (carried.size + m) code ++ (carried ++ (behind ++ entriesBytes more)) := by
    rw [hlead]
    simp only [ByteArray.append_assoc]
  refine ⟨_, splice_token _ hcode (by omega) hbody, ?_, ?_⟩
  · rw [writeEntries_eq, entriesBytes_sequences, entriesBytes, hspliced, ByteArray.empty_append]
  · intro history room k old hold rest limit n result
    rw [hbody]
    simp only [ByteArray.append_assoc]
    exact (decompressInto_closed hold).trans (decodesAfter_add fun _ _ => decompressInto_lead hcode hfits)

/-- Thirteen bytes in front of three literals fill the half of the token that counts them, and a byte follows it. -/
theorem splice_fills_literal_count :
    writeEntries ([⟨⟨#[7]⟩, 1, 4, by decide, by decide, by decide⟩].map .sequence) ByteArray.empty =
        .ok ⟨#[0x10, 7, 1, 0]⟩ ∧
      writeEntries [.sequence ⟨⟨#[1, 2, 3]⟩, 2, 5, by decide, by decide, by decide⟩, .literals ⟨#[9]⟩]
        ByteArray.empty = .ok ⟨#[0x31, 1, 2, 3, 2, 0, 0x10, 9]⟩ ∧
      decompressInto ⟨#[0x10, 7, 1, 0, 0]⟩ ByteArray.empty 5 = (.ok 5, ⟨#[7, 7, 7, 7, 7]⟩) ∧
      ∃ spliced, splice ⟨#[0x10, 7, 1, 0]⟩ ⟨.replicate 13 5⟩ ⟨#[0x31, 1, 2, 3, 2, 0, 0x10, 9]⟩ = .ok spliced ∧
        decompressInto spliced ByteArray.empty 27 =
          (.ok 27, ⟨#[7, 7, 7, 7, 7, 5, 5, 5, 5, 5, 5, 5, 5, 5, 5, 5, 5, 5, 1, 2, 3, 2, 3, 2, 3, 2, 9]⟩) := by
  have hout : writeEntries ([⟨⟨#[7]⟩, 1, 4, by decide, by decide, by decide⟩].map .sequence) ByteArray.empty =
      .ok ⟨#[0x10, 7, 1, 0]⟩ := by rfl
  have hbody : writeEntries [.sequence ⟨⟨#[1, 2, 3]⟩, 2, 5, by decide, by decide, by decide⟩, .literals ⟨#[9]⟩]
      ByteArray.empty = .ok ⟨#[0x31, 1, 2, 3, 2, 0, 0x10, 9]⟩ := by rfl
  have hold : decompressInto ⟨#[0x10, 7, 1, 0, 0]⟩ ByteArray.empty 5 = (.ok 5, ⟨#[7, 7, 7, 7, 7]⟩) :=
    decompressInto_eq_ok_iff_decodable.mpr
      ⟨⟨[⟨⟨#[7]⟩, 1, 4, by decide, by decide, by decide⟩], ByteArray.empty, 0, by decide⟩, by rfl,
      ⟨by decide, by decide, by decide, by decide⟩, by rfl, by rfl⟩
  have hfrom : decompressInto ⟨#[0x31, 1, 2, 3, 2, 0, 0x10, 9]⟩ (⟨#[7, 7, 7, 7, 7]⟩ ++ ⟨.replicate 13 5⟩) 9 =
      (.ok 9, ⟨#[7, 7, 7, 7, 7, 5, 5, 5, 5, 5, 5, 5, 5, 5, 5, 5, 5, 5, 1, 2, 3, 2, 3, 2, 3, 2, 9]⟩) :=
    decompressInto_eq_ok_iff_decodable.mpr
      ⟨⟨[⟨⟨#[1, 2, 3]⟩, 2, 5, by decide, by decide, by decide⟩], ⟨#[9]⟩, 0, by decide⟩, by rfl,
      ⟨by decide, by decide, by decide, by decide⟩, by rfl, by rfl⟩
  obtain ⟨spliced, hspliced, _, hdecodes⟩ := splice_leads_first_literals hout hbody
    (by decide : (⟨.replicate 13 5⟩ : ByteArray).size + 8 < sizeLimit)
  have hresult := (hdecodes _ _ _ _ hold ByteArray.empty 27 27 _).mpr ⟨9, 9, rfl, rfl, hfrom⟩
  rw [ByteArray.append_empty] at hresult
  exact ⟨hout, hbody, hold, spliced, hspliced, hresult⟩

end LempelZiv
