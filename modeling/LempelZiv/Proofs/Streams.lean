import LempelZiv.Stream.Source
import LempelZiv.Proofs.Bytes

namespace LempelZiv

/-- From here on the device takes some of every offer and never fails. -/
def Device.Reliable {δ : Type} [Device δ] (d : δ) : Prop :=
  ∃ good : δ → Prop, good d ∧
    (∀ d length, good d → 0 < length → ∃ n d', Device.offer d length = (.took n, d') ∧ 0 < n ∧ good d') ∧
    ∀ d, good d → ∃ d', Device.flush d = (none, d') ∧ good d'

/-- From here on the feed hands out some of the bytes at every read and never fails. -/
def Feed.Reliable {φ : Type} [Feed φ] (f : φ) : Prop :=
  ∃ good : φ → Prop, good f ∧ ∀ f pos wanted, good f → 0 < wanted →
    ∃ n f', Feed.pull f pos wanted = (.upTo n, f') ∧ 0 < n ∧ good f'

namespace Device.Reliable

variable {δ : Type} [Device δ] {d : δ}

theorem offer (h : Reliable d) {length : Nat} (hpos : 0 < length) :
    ∃ n d', Device.offer d length = (.took n, d') ∧ 0 < n ∧ Reliable d' := by
  obtain ⟨good, hd, hoffer, hflush⟩ := h
  obtain ⟨n, d', htook, hn, hd'⟩ := hoffer d length hd hpos
  exact ⟨n, d', htook, hn, good, hd', hoffer, hflush⟩

theorem flush (h : Reliable d) : ∃ d', Device.flush d = (none, d') ∧ Reliable d' := by
  obtain ⟨good, hd, hoffer, hflush⟩ := h
  obtain ⟨d', hok, hd'⟩ := hflush d hd
  exact ⟨d', hok, good, hd', hoffer, hflush⟩

end Device.Reliable

theorem Feed.Reliable.pull {φ : Type} [Feed φ] {f : φ} (h : Reliable f) {wanted : Nat} (pos : Nat)
    (hpos : 0 < wanted) :
    ∃ n f', Feed.pull f pos wanted = (.upTo n, f') ∧ 0 < n ∧ Reliable f' := by
  obtain ⟨good, hf, hpull⟩ := h
  obtain ⟨n, f', hup, hn, hf'⟩ := hpull f pos wanted hf hpos
  exact ⟨n, f', hup, hn, good, hf', hpull⟩

theorem memory_reliable (m : Memory) : Device.Reliable m :=
  ⟨fun _ => True, trivial, fun d length _ hpos => ⟨length, d, rfl, hpos, trivial⟩,
    fun d _ => ⟨d, rfl, trivial⟩⟩

theorem steady_reliable (f : Steady) : Feed.Reliable f :=
  ⟨fun _ => True, trivial, fun f _ wanted _ hpos => ⟨wanted, f, rfl, hpos, trivial⟩⟩

namespace Sink

variable {δ : Type} [Device δ] {s : Sink δ}

/-- A device takes the bytes in order: all of them, or with an error those in front of some, and then it is not
reliable. -/
theorem writeFrom_takes {bytes : ByteArray} {i : Nat} (hi : i ≤ bytes.size) :
    (∃ s', s.writeFrom bytes i = (.ok (), s') ∧ s'.held = s.held ++ dropBytes bytes i ∧
      s'.flushes = s.flushes ∧ (Device.Reliable s.device → Device.Reliable s'.device)) ∨
    ∃ e s' taken missing, s.writeFrom bytes i = (.error e, s') ∧ s'.held = s.held ++ taken ∧
      dropBytes bytes i = taken ++ missing ∧ 0 < missing.size ∧ ¬Device.Reliable s.device := by
  induction hn : bytes.size - i using Nat.strongRecOn generalizing s i with
  | ind n ih =>
    obtain ⟨device, held, flushes⟩ := s
    rw [writeFrom]
    by_cases hlt : i < bytes.size
    case neg =>
      rw [dif_neg hlt, dropBytes_of_le (Nat.le_of_not_lt hlt)]
      exact .inl ⟨_, rfl, ByteArray.append_empty.symm, rfl, id⟩
    have hpos : 0 < bytes.size - i := by omega
    have hall : 0 < (dropBytes bytes i).size := by rwa [size_dropBytes]
    rcases hoffer : Device.offer device (bytes.size - i) with ⟨k | e, device'⟩
    case failed =>
      simp only [dif_pos hlt]
      refine .inr ⟨_, _, ByteArray.empty, _, rfl, ByteArray.append_empty.symm, ByteArray.empty_append.symm, hall, ?_⟩
      intro hs
      obtain ⟨k, d, htook, _⟩ := hs.offer hpos
      rw [hoffer] at htook
      cases htook
    have hkeeps : Device.Reliable device → 0 < k ∧ Device.Reliable device' := by
      intro hs
      obtain ⟨k', d, htook, hk, hd⟩ := hs.offer hpos
      rw [hoffer] at htook
      cases htook
      exact ⟨hk, hd⟩
    by_cases htaken : 0 < min k (bytes.size - i)
    case neg =>
      simp only [dif_pos hlt, if_neg htaken]
      refine .inr ⟨_, _, ByteArray.empty, _, rfl, ByteArray.append_empty.symm, ByteArray.empty_append.symm, hall, ?_⟩
      intro hs
      have := (hkeeps hs).1
      omega
    have hcut := extract_append_dropBytes (Nat.le_add_right i (min k (bytes.size - i)))
      (by omega : i + min k (bytes.size - i) ≤ bytes.size)
    simp only [dif_pos hlt, if_pos htaken]
    rcases @ih (bytes.size - (i + min k (bytes.size - i))) (by omega)
      ⟨device', held ++ bytes.extract i (i + min k (bytes.size - i)), flushes⟩
      (i + min k (bytes.size - i)) (by omega) rfl with
        ⟨s', hok, hheld, hflushes, hlater⟩ | ⟨e, s', taken, missing, herror, hheld, hrest, hless, hlater⟩
    · refine .inl ⟨s', hok, ?_, hflushes, fun hs => hlater (hkeeps hs).2⟩
      rw [hheld, ByteArray.append_assoc, hcut]
    · refine .inr ⟨e, s', bytes.extract i (i + min k (bytes.size - i)) ++ taken, missing, herror, ?_, ?_, hless,
        fun hs => hlater (hkeeps hs).2⟩
      · rw [hheld, ByteArray.append_assoc]
      · rw [← hcut, hrest, ByteArray.append_assoc]

theorem writeAll_takes (s : Sink δ) (bytes : ByteArray) :
    (∃ s', s.writeAll bytes = (.ok (), s') ∧ s'.held = s.held ++ bytes ∧ s'.flushes = s.flushes ∧
      (Device.Reliable s.device → Device.Reliable s'.device)) ∨
    ∃ e s' taken missing, s.writeAll bytes = (.error e, s') ∧ s'.held = s.held ++ taken ∧
      bytes = taken ++ missing ∧ 0 < missing.size ∧ ¬Device.Reliable s.device := by
  have h := @writeFrom_takes δ _ s bytes 0 (Nat.zero_le _)
  rw [dropBytes_zero] at h
  exact h

theorem flush_answers (s : Sink δ) :
    ∃ d, s.flush.2 = ⟨d, s.held, s.flushes + 1⟩ ∧
      (Device.Reliable s.device → s.flush.1 = .ok () ∧ Device.Reliable d) := by
  obtain ⟨device, held, flushes⟩ := s
  rw [flush]
  rcases hflush : Device.flush device with ⟨error, device'⟩
  cases error with
  | none =>
    refine ⟨device', rfl, ?_⟩
    intro hs
    obtain ⟨d, hok, hd⟩ := hs.flush
    rw [hflush] at hok
    cases hok
    exact ⟨rfl, hd⟩
  | some e =>
    refine ⟨device', rfl, ?_⟩
    intro hs
    obtain ⟨d, hok, _⟩ := hs.flush
    rw [hflush] at hok
    cases hok

end Sink

namespace Source

theorem size_rest {φ : Type} (s : Source φ) : s.rest.size = s.left := size_dropBytes _ _

theorem rest_advance {φ : Type} {s : Source φ} {a b : ByteArray} (hrest : s.rest = a ++ b)
    (hpos : 0 < a.size) (feed : φ) :
    s.data.extract s.pos (s.pos + a.size) = a ∧ rest ⟨feed, s.data, s.pos + a.size⟩ = b := by
  have hsize := s.size_rest
  rw [hrest, ByteArray.size_append, left] at hsize
  have hle : s.pos ≤ s.data.size := by omega
  refine ⟨(hasAt_of_dropBytes hle hrest).eq, ?_⟩
  have hdrop := dropBytes_append a b
  rwa [← hrest, rest, dropBytes_dropBytes _ hle] at hdrop

variable {φ : Type} [Feed φ] {s : Source φ}

theorem fetchMore_step {origin : Source φ} {n need : Nat} {got : ByteArray}
    {h : s.left + n = origin.left + need}
    {hn : need ≤ n} (hs : Feed.Reliable s.feed) (hneed : 0 < need) (hleft : 0 < s.left) :
    ∃ taken feed h' hn', 0 < taken ∧ taken ≤ need ∧ Feed.Reliable feed ∧
      fetchMore origin s n need got h hn = fetchMore origin ⟨feed, s.data, s.pos + taken⟩ n (need - taken)
        (got ++ s.data.extract s.pos (s.pos + taken)) h' hn' := by
  obtain ⟨k, feed, hpull, hk, hfeed⟩ := hs.pull s.pos hneed
  have htaken : 0 < min k (min need s.left) := by omega
  have hadvanced : s.data.size - (s.pos + min k (min need s.left)) + n =
    origin.left + (need - min k (min need s.left)) := by
    rw [left] at h hleft htaken ⊢
    omega
  refine ⟨min k (min need s.left), feed, hadvanced, by omega, htaken, by omega, hfeed, ?_⟩
  rw [fetchMore, dif_neg (Nat.ne_of_gt hneed)]
  simp only [hpull, dif_pos htaken]

theorem fetchMore_reliable {origin : Source φ} {n need : Nat} {got a b : ByteArray}
    {h : s.left + n = origin.left + need} {hn : need ≤ n} (hs : Feed.Reliable s.feed)
    (hrest : s.rest = a ++ b)
    (ha : a.size = need) :
    ∃ s' h', fetchMore origin s n need got h hn = .got (got ++ a) s' h' ∧ s'.rest = b ∧
      Feed.Reliable s'.feed := by
  induction need using Nat.strongRecOn generalizing s got a with
  | ind need ih =>
    rcases Nat.eq_zero_or_pos need with hz | hneed
    · have hempty := ByteArray.size_eq_zero_iff.mp (ha.trans hz)
      rw [hempty, ByteArray.empty_append] at hrest
      rw [hempty, ByteArray.append_empty, fetchMore, dif_pos hz]
      exact ⟨s, _, rfl, hrest, hs⟩
    have hleft : 0 < s.left := by
      rw [← s.size_rest, hrest, ByteArray.size_append]
      omega
    obtain ⟨taken, feed, h', hn', hpos, hle, hfeed, hstep⟩ :=
      @fetchMore_step φ _ s origin n need got h hn hs hneed hleft
    have hcut : a.extract 0 taken ++ dropBytes a taken = a := extract_zero_append_dropBytes (by omega)
    have hfirst : (a.extract 0 taken).size = taken := by
      rw [ByteArray.size_extract]
      omega
    rw [← hcut, ByteArray.append_assoc] at hrest
    obtain ⟨hnow, hlater⟩ := rest_advance hrest (by omega) feed
    rw [hfirst] at hnow hlater
    obtain ⟨s', hs', hok, hb, hfeed'⟩ := @ih (need - taken) (by omega) ⟨feed, s.data, s.pos + taken⟩
      (got ++ s.data.extract s.pos (s.pos + taken))
      (dropBytes a taken) h' hn' hfeed hlater (by rw [size_dropBytes, ha])
    refine ⟨s', hs', ?_, hb, hfeed'⟩
    rw [hstep, hok, hnow, ByteArray.append_assoc, hcut]

/-- Reading as many bytes as are there gives them, in however many pieces they come. -/
theorem fetch_reliable {a b : ByteArray} (hs : Feed.Reliable s.feed) (hrest : s.rest = a ++ b) :
    ∃ s' h', s.fetch a.size = .got a s' h' ∧ s'.rest = b ∧ Feed.Reliable s'.feed := by
  obtain ⟨s', h', hok, hb, hs'⟩ :=
    @fetchMore_reliable φ _ s s a.size a.size ByteArray.empty a b rfl (Nat.le_refl _) hs
    hrest rfl
  rw [ByteArray.empty_append] at hok
  exact ⟨s', h', hok, hb, hs'⟩

theorem fetchMore_short {origin : Source φ} {n need : Nat} {got : ByteArray}
    {h : s.left + n = origin.left + need} {hn : need ≤ n} (hs : Feed.Reliable s.feed) (hleft : s.left < need) :
    ∃ text s' h', fetchMore origin s n need got h hn = .broken ⟨.unexpectedEnd, text⟩ s' h' := by
  induction need using Nat.strongRecOn generalizing s got with
  | ind need ih =>
    have hneed : 0 < need := by omega
    rcases Nat.eq_zero_or_pos s.left with hnone | hsome
    · obtain ⟨k, feed, hpull, _⟩ := hs.pull s.pos hneed
      have hle : left ⟨feed, s.data, s.pos⟩ ≤ origin.left := show s.left ≤ origin.left by omega
      rw [fetchMore, dif_neg (Nat.ne_of_gt hneed)]
      simp [hpull, hnone, hle]
    · obtain ⟨taken, feed, h', hn', hpos, hle, hfeed, hstep⟩ :=
        @fetchMore_step φ _ s origin n need got h hn hs hneed hsome
      have hshort : (⟨feed, s.data, s.pos + taken⟩ : Source φ).left < need - taken := by
        rw [left] at *
        omega
      rw [hstep]
      exact ih (need - taken) (by omega) hfeed hshort

/-- Reading more bytes than are there finds the end. -/
theorem fetch_short {n : Nat} (hs : Feed.Reliable s.feed) (hleft : s.left < n) :
    ∃ text s' h', s.fetch n = .broken ⟨.unexpectedEnd, text⟩ s' h' := fetchMore_short hs hleft

end Source

end LempelZiv
