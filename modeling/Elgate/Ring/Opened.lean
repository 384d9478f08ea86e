import Elgate.Foundation.Transition
import Elgate.Ring.Geometry
import Elgate.Ring.HeaderBytes
import Elgate.Ring.InRange
import Elgate.Ring.Solo

/-!
# Rings that `open` admits

`open` takes a file that any process may have left, and checks its header by `validate`. A handle is
usable when `max_payload_size` does not panic, and no run of threads that call `write` and `read`
through it has an underflow, divides by zero, fails the assertion of `get_slot`, or accesses a slot
that is not within the file. `validate` is not enough for this: it does not look at the indices, at
the room for the metadata in a slot, or at the length of the file. `open_usable_iff` says what the
header must satisfy in addition.

A sum or a product that overflows is none of these failures. With overflow checks it ends the call
before it accesses a slot, which is why a ring is also usable when its consumer index is the last
`usize`: every call that would pass that index panics at the addition.

An access may be at any byte: the check of a pointer's alignment, which a slot size may fail, is
outside the model.
-/

namespace Elgate.Ring

open Transition Region

/-- The panics that a usable ring is free of: an underflow, a division or a remainder by zero, and
the failing assertion of `get_slot`. -/
def Panic.Excluded : Panic → Prop
  | .subtractOverflow | .divideByZero | .remainderByZero | .slotIndexOutOfBounds => True
  | .addOverflow | .multiplyOverflow | .shiftLeftOverflow => False

/-- A call has ended in such a panic. -/
def Event.Fails {W R : Type} : Event W R → Prop
  | .writeReturned _ _ (.error (.panic panic)) => panic.Excluded
  | .readReturned _ _ (.error (.panic panic)) => panic.Excluded
  | _ => False

/-- No call has failed, and the slots that threads are about to access lie within the file. -/
structure System.Usable {W R : Type} (rb : RingBuffer) (fileLen : ℕ) (s : System W R) : Prop where
  /-- No call has failed. -/
  calls : ∀ ev ∈ s.history, ¬ ev.Fails
  /-- The slots of the calls of `write` lie within the file. -/
  writes : ∀ w call pc idx, s.writer w = some (call, pc) → pc.visits = some idx →
    (slotRegion rb.slotSize idx).Inside fileLen
  /-- So do those of the calls of `read`. -/
  reads : ∀ r pc idx, s.reader r = some pc → pc.visits = some idx →
    (slotRegion rb.slotSize idx).Inside fileLen

/-- What a header may satisfy in addition to `validate`. -/
structure RingHeader.Admissible (header : RingHeader) (fileLen : ℕ) : Prop where
  /-- A slot has room for its metadata. -/
  room : sizeOfSlotMetadata ≤ header.slotSize
  /-- The consumer index is that of a slot. -/
  consumerIdx : header.consumerIdx < header.slotCount
  /-- So is the producer index, or it is the index from which a ring of one slot looks full. -/
  producerIdx : header.producerIdx < header.slotCount ∨
    header.slotCount = 1 ∧ header.producerIdx = 1
  /-- The file has room for the slots. -/
  inside : sizeOfRingHeader + header.slotCount * header.slotSize ≤ fileLen

/-- What it may satisfy instead: no call gets past the consumer index. -/
structure RingHeader.Stalled (header : RingHeader) (fileLen : ℕ) : Prop where
  /-- A slot has room for its metadata. -/
  room : sizeOfSlotMetadata ≤ header.slotSize
  /-- The consumer index is the last `usize`. -/
  consumerIdx : header.consumerIdx + 1 = 2^64
  /-- So is the producer index, or it is that of a slot and the file has room for the slots. -/
  producerIdx : header.producerIdx + 1 = 2^64 ∨ header.producerIdx < header.slotCount ∧
    sizeOfRingHeader + header.slotCount * header.slotSize ≤ fileLen

/-- The handle that `open` returns has the slot size of the header, and the ring has a slot. -/
theorem openRing_ok {header : RingHeader} {options : RingBufferOptions} {rb : RingBuffer}
    (h : openRing header options = .ok rb) :
    rb.slotSize = header.slotSize ∧ 0 < header.slotCount := by
  unfold openRing at h
  split at h
  · rename_i hvalid
    obtain rfl := pure_eq_ok h
    unfold RingHeader.validate at hvalid
    simp only [Bool.and_eq_true, decide_eq_true_eq] at hvalid
    exact ⟨rfl, hvalid.2⟩
  · exact absurd h throw_ne_ok

/-- When `available_slots` is defined, and what it is. -/
theorem availableSlots_iff {slotCount p c k : ℕ} :
    availableSlots slotCount p c = .ok k ↔
      (c ≤ p ∧ p - c ≤ slotCount ∧ k = slotCount - (p - c)) ∨ (p < c ∧ k = c - p) := by
  unfold availableSlots
  constructor
  · intro h
    split at h
    · rename_i hcp
      obtain ⟨d, hd, h⟩ := bind_eq_ok h
      obtain ⟨-, rfl⟩ := subUsize_eq_ok hd
      obtain ⟨hle, rfl⟩ := subUsize_eq_ok h
      exact Or.inl ⟨hcp, hle, rfl⟩
    · rename_i hcp
      obtain ⟨-, rfl⟩ := subUsize_eq_ok h
      exact Or.inr ⟨Nat.lt_of_not_le hcp, rfl⟩
  · rintro (⟨hcp, hle, rfl⟩ | ⟨hpc, rfl⟩)
    · rw [if_pos hcp, subUsize, if_pos hcp, ok_bind, subUsize, if_pos hle]
    · rw [if_neg (Nat.not_le_of_lt hpc), subUsize, if_pos (Nat.le_of_lt hpc)]

/-- `available_slots` is defined, or it panics. -/
theorem availableSlots_cases (slotCount p c : ℕ) :
    (∃ k, availableSlots slotCount p c = .ok k) ∨
      availableSlots slotCount p c = .error (.panic .subtractOverflow) := by
  unfold availableSlots subUsize
  by_cases hcp : c ≤ p
  · by_cases hle : p - c ≤ slotCount
    · simp [hcp, hle]
    · simp [hcp, hle]
  · simp [hcp, Nat.le_of_not_le hcp]

/-! ## A header that is admissible is enough -/

section
variable {W R : Type} {m : RingMemory} {rb : RingBuffer} {fileLen : ℕ} {N : ℕ} {P : ℕ → Prop}

/-- What an admissible header keeps its producer index in. -/
theorem RingHeader.Admissible.inRange {header : RingHeader} (h : header.Admissible fileLen) :
    ∃ P, Closed header.slotCount P ∧ header.InRange header.slotCount P := by
  rcases h.producerIdx with hlt | ⟨hN, hp⟩
  · exact ⟨_, closed_lt _, rfl, hlt, h.consumerIdx⟩
  · exact ⟨(· = 1), by rw [hN]; exact closed_one, rfl, hp, h.consumerIdx⟩

/-- A call that does not panic does not fail. -/
theorem Event.not_fails {ev : Event W R} (h : ¬ ev.Panics) : ¬ ev.Fails := by
  intro hfails
  apply h
  cases ev with
  | writeReturned w call result | readReturned r visited result =>
    rcases result with (error | panic) | a
    · exact hfails
    · exact trivial
    · exact hfails
  | writeCalled | claimed | readyStored | readCalled | passed => exact hfails

/-- Every run on an admissible header is usable. -/
theorem usable_of_admissible [DecidableEq W] [DecidableEq R] (hlen : fileLen < 2^64)
    (hsize : rb.slotSize = m.header.slotSize)
    (h : m.header.Admissible fileLen) {s : System W R}
    (hrun : Reaches (System.step rb) Always (System.start m) s) : s.Usable rb fileLen := by
  obtain ⟨P, hP, hheader⟩ := h.inRange
  have hinside : ∀ idx < m.header.slotCount, (slotRegion rb.slotSize idx).Inside fileLen := by
    rw [hsize]
    exact (cells_inside_iff (Nat.zero_lt_of_lt h.consumerIdx)).mpr h.inside
  have hfits : SlotsFit rb.slotSize m.header.slotCount :=
    .of_inside (by rw [hsize]; exact h.room) hlen hinside
  have hrange := System.InRange.of_reaches hP hfits hheader hrun
  exact {
    calls := fun ev hev => Event.not_fails (hrange.history ev hev)
    writes := fun w call pc idx hw hidx =>
      hinside idx ((hrange.writer w call pc hw).visits_lt hidx)
    reads := fun r pc idx hr hidx => hinside idx (hrange.reader r pc hr idx (Or.inl hidx)) }

/-! ## A header that is stalled is enough -/

section
variable (N P)

/-- The consumer index is the last `usize`, and the producer index is in a set. -/
structure RingHeader.Stalls (header : RingHeader) : Prop where
  /-- There are `N` slots. -/
  slotCount : header.slotCount = N
  /-- The producer index is in the set. -/
  producerIdx : P header.producerIdx
  /-- The consumer index is the last `usize`. -/
  consumerIdx : header.consumerIdx + 1 = 2^64

/-- What a call of `write` has loaded is in the set, and its slot is one of the ring. -/
def WritePc.Stalls : WritePc → Prop
  | loadProducerIdx _ | loadCurrent _ => True
  | loadConsumerIdx _ producerIdx => P producerIdx
  | compareExchange _ current => P current
  | checkEmpty _ idx | checkComplete _ idx | storing idx _ _ => P idx ∧ idx < N

/-- A call of `read` gets to its compare-exchange, and no further. -/
def ReadPc.Stalls : ReadPc → Prop
  | loadProducerIdx | loadConsumerIdx _ | loadCurrent => True
  | compareExchange current => current + 1 = 2^64
  | _ => False

/-- A set of producer indices that no step leaves while the consumer index is the last `usize`: they
are those of slots that fit, or the last `usize`. -/
structure Stuck (slotSize : ℕ) : Prop where
  /-- The indices. -/
  idx : ∀ p, P p → p < N ∧ SlotsFit slotSize N ∨ p + 1 = 2^64
  /-- A claim leads to an index of the set. -/
  next : ∀ p, P p → p < N → P ((p + 1) % N)

end

/-- `available_slots` is defined. -/
theorem Stuck.available {slotSize p c : ℕ} (h : Stuck N P slotSize) (hN : N < 2^64) (hp : P p)
    (hc : c + 1 = 2^64) : ∃ k, availableSlots N p c = .ok k := by
  rcases h.idx p hp with ⟨hlt, -⟩ | hlast
  · exact ⟨c - p, availableSlots_iff.mpr (Or.inr ⟨by omega, rfl⟩)⟩
  · exact ⟨N - (p - c), availableSlots_iff.mpr (Or.inl ⟨by omega, by omega, rfl⟩)⟩

/-- The stores that are left are to the slot. -/
theorem WritePc.ofStores_stalls {idx : ℕ} (h : P idx ∧ idx < N) (stores : List Store) :
    ∀ pc ∈ WritePc.ofStores idx stores, pc.Stalls N P := by
  intro pc hpc
  obtain ⟨st, rest, -, rfl⟩ := WritePc.ofStores_eq_some.mp hpc
  exact h

/-- The end of an attempt. -/
theorem nextAttempt_stalls (h : m.header.Stalls N P) (w : W) (call : WriteCall) (attempts : ℕ) :
    (nextAttempt w call m attempts : Effect W R WritePc).Within (RingHeader.Stalls N P)
      (fun ev => ¬ ev.Fails) (WritePc.Stalls N P) := by
  cases attempts with
  | zero => exact ⟨h, by simp [nextAttempt], by simp [nextAttempt, Event.Fails]⟩
  | succ attempts => exact ⟨h, by simp [nextAttempt, WritePc.Stalls], by simp [nextAttempt]⟩

/-- A step of `write` keeps the header stalled, and does not fail. -/
theorem writeStep_stalls (hP : Stuck N P rb.slotSize) (hN : N < 2^64) (h : m.header.Stalls N P)
    {pc : WritePc} (hpc : pc.Stalls N P) (w : W) (call : WriteCall) (spurious : Bool) :
    (writeStep rb w call m spurious pc : Effect W R WritePc).Within (RingHeader.Stalls N P)
      (fun ev => ¬ ev.Fails) (WritePc.Stalls N P) := by
  cases pc with
  | loadProducerIdx attempts =>
    refine ⟨h, ?_, by simp [writeStep]⟩
    rintro pc' ⟨⟩
    exact h.producerIdx
  | loadConsumerIdx attempts producerIdx =>
    obtain ⟨k, hk⟩ := hP.available hN hpc h.consumerIdx
    simp only [writeStep, h.slotCount, hk]
    split
    · exact ⟨h, by simp [WritePc.Stalls], by simp⟩
    · exact nextAttempt_stalls h w call attempts
  | loadCurrent attempts =>
    refine ⟨h, ?_, by simp [writeStep]⟩
    rintro pc' ⟨⟩
    exact h.producerIdx
  | compareExchange attempts current =>
    rcases hP.idx current hpc with ⟨hlt, hfits⟩ | hlast
    · rw [writeStep_compareExchange (h.slotCount.symm ▸ hfits) (h.slotCount.symm ▸ hlt)]
      split
      · refine ⟨⟨h.slotCount, ?_, h.consumerIdx⟩, ?_, by simp [Event.Fails]⟩
        · rw [RingMemory.setProducerIdx_producerIdx, h.slotCount]
          exact hP.next current hpc hlt
        · rintro pc' ⟨⟩
          exact ⟨hpc, hlt⟩
      · refine ⟨h, ?_, by simp⟩
        rintro pc' ⟨⟩
        exact h.producerIdx
    · -- The addition overflows, which is no failure.
      simp only [writeStep, nextIdx_overflow hlast.ge]
      exact ⟨h, by simp, by simp [Event.Fails, Panic.Excluded]⟩
  | checkEmpty attempts idx =>
    simp only [writeStep]
    split
    · exact ⟨h, WritePc.ofStores_stalls hpc call.program, by simp⟩
    · refine ⟨h, ?_, by simp⟩
      rintro pc' ⟨⟩
      exact hpc
  | checkComplete attempts idx =>
    simp only [writeStep]
    split
    · exact ⟨h, WritePc.ofStores_stalls hpc call.program, by simp⟩
    · exact nextAttempt_stalls h w call attempts
  | storing idx st rest =>
    refine ⟨h, WritePc.ofStores_stalls hpc rest, ?_⟩
    intro ev hev
    rcases storeEvents_mem hev with rfl | rfl <;> exact id

/-- So does a step of `read`, and no call gets past its compare-exchange. -/
theorem readStep_stalls (h : m.header.Stalls N P) {pc : ReadPc} (hpc : pc.Stalls) (r : R)
    (spurious : Bool) :
    (readStep rb r m spurious pc : Effect W R ReadPc).Within (RingHeader.Stalls N P)
      (fun ev => ¬ ev.Fails) ReadPc.Stalls := by
  cases pc with
  | loadProducerIdx => exact ⟨h, by simp [readStep, ReadPc.Stalls], by simp [readStep]⟩
  | loadConsumerIdx producerIdx =>
    simp only [readStep]
    split
    · exact ⟨h, by simp, by simp [Event.Fails]⟩
    · exact ⟨h, by simp [ReadPc.Stalls], by simp⟩
  | loadCurrent =>
    refine ⟨h, ?_, by simp [readStep]⟩
    rintro pc' ⟨⟩
    exact h.consumerIdx
  | compareExchange current =>
    have hlast : current + 1 = 2^64 := hpc
    simp only [readStep, nextIdx_overflow hlast.ge]
    exact ⟨h, by simp, by simp [Event.Fails, Panic.Excluded]⟩
  | checkReady | loadOperation | recheckReady | storeReading | loadSize | copy | storeComplete
  | increment | resetting => exact hpc.elim

/-- The steps of the calls keep the header stalled. -/
theorem stepsKeep_stalls (hP : Stuck N P rb.slotSize) (hN : N < 2^64)
    (h64 : sizeOfSlotMetadata ≤ rb.slotSize) :
    StepsKeep (W := W) (R := R) (RingHeader.Stalls N P) (WritePc.Stalls N P) ReadPc.Stalls
      (fun ev => ¬ ev.Fails) rb where
  writeCall h w call := by
    unfold writeCall
    rw [maxPayloadSize_eq h64]
    dsimp only
    split
    · exact ⟨h, by simp, by simp [Event.Fails]⟩
    · exact ⟨h, by simp [WritePc.Stalls], by simp [Event.Fails]⟩
  writeStep h _ hpc := writeStep_stalls hP hN h hpc
  readCall := ⟨trivial, fun _ => id⟩
  readStep h _ hpc := readStep_stalls h hpc

/-- What a stalled header keeps its producer index in. -/
theorem RingHeader.Stalled.stuck {header : RingHeader} (h : header.Stalled fileLen)
    (hlen : fileLen < 2^64) (hN : header.slotCount < 2^64) :
    ∃ P, Stuck header.slotCount P header.slotSize ∧ header.Stalls header.slotCount P ∧
      ∀ p, P p → p < header.slotCount → (slotRegion header.slotSize p).Inside fileLen := by
  rcases h.producerIdx with hlast | ⟨hlt, hinside⟩
  · exact ⟨(· + 1 = 2^64), ⟨fun p hp => Or.inr hp, fun p hp hlt => by omega⟩,
      ⟨rfl, hlast, h.consumerIdx⟩, fun p hp hlt => by omega⟩
  · have hcells := (cells_inside_iff (Nat.zero_lt_of_lt hlt)).mpr hinside
    exact ⟨(· < header.slotCount), ⟨fun p hp => Or.inl ⟨hp, .of_inside h.room hlen hcells⟩,
      fun p _ hp => Nat.mod_lt _ (Nat.zero_lt_of_lt hp)⟩, ⟨rfl, hlt, h.consumerIdx⟩,
      fun p _ hp => hcells p hp⟩

/-- Every run on a stalled header is usable. -/
theorem usable_of_stalled [DecidableEq W] [DecidableEq R] (hlen : fileLen < 2^64)
    (hN : m.header.slotCount < 2^64) (hsize : rb.slotSize = m.header.slotSize)
    (h : m.header.Stalled fileLen) {s : System W R}
    (hrun : Reaches (System.step rb) Always (System.start m) s) : s.Usable rb fileLen := by
  obtain ⟨P, hP, hheader, hinside⟩ := h.stuck hlen hN
  rw [← hsize] at hP hinside
  have hstalls := System.Within.of_reaches
    (stepsKeep_stalls hP hN (by rw [hsize]; exact h.room)) hheader hrun
  refine ⟨hstalls.history, fun w call pc idx hw hidx => ?_, fun r pc idx hr hidx => ?_⟩
  · have hpc := hstalls.writer w call pc hw
    cases pc with
    | checkEmpty | checkComplete | storing =>
      obtain rfl := Option.some.inj hidx
      exact hinside _ hpc.1 hpc.2
    | loadProducerIdx | loadConsumerIdx | loadCurrent | compareExchange => cases hidx
  · have hpc := hstalls.reader r pc hr
    cases pc with
    | loadProducerIdx | loadConsumerIdx | loadCurrent | compareExchange => cases hidx
    | checkReady | loadOperation | recheckReady | storeReading | loadSize | copy | storeComplete
    | increment | resetting => exact hpc.elim

end

/-! ## Threads that run on -/

/-- Some steps of a call that nothing interrupts, from one place of it to another. -/
inductive Goes {W R Pc : Type} (step : RingMemory → Pc → Effect W R Pc) :
    RingMemory → Pc → RingMemory → Pc → Prop
  /-- No step. -/
  | refl (m : RingMemory) (pc : Pc) : Goes step m pc m pc
  /-- A first step. -/
  | next {m m' m'' : RingMemory} {pc pc' pc'' : Pc} {es : List (Event W R)}
    (h : step m pc = ⟨m', some pc', es⟩) (hrest : Goes step m' pc' m'' pc'') :
    Goes step m pc m'' pc''

section
variable {W R : Type} {rb : RingBuffer} {w : W} {call : WriteCall}

/-- A call of `write` gets to its compare-exchange when `available_slots` is not zero. -/
theorem goes_compareExchange {m : RingMemory} {k : ℕ}
    (hk : availableSlots m.header.slotCount m.header.producerIdx m.header.consumerIdx = .ok k)
    (hpos : 0 < k) (attempts : ℕ) :
    Goes (fun m pc => (writeStep rb w call m false pc : Effect W R WritePc)) m
      (.loadProducerIdx attempts) m (.compareExchange attempts m.header.producerIdx) := by
  have hchecked : (writeStep rb w call m false (.loadConsumerIdx attempts m.header.producerIdx) :
      Effect W R WritePc) = ⟨m, some (.loadCurrent attempts), []⟩ := by
    simp only [writeStep, hk, gt_iff_lt, hpos, if_true]
  exact .next rfl (.next hchecked (.next rfl (.refl _ _)))

end

section
variable {W R : Type} [DecidableEq W] [DecidableEq R] {rb : RingBuffer} {w : W} {r : R}
  {call : WriteCall}

/-- A thread in a call of `write` goes on. -/
theorem Goes.reaches_write {m m' : RingMemory} {pc pc' : WritePc}
    (h : Goes (fun m pc => (writeStep rb w call m false pc : Effect W R WritePc)) m pc m' pc') :
    ∀ s : System W R, s.memory = m → s.writer w = some (call, pc) →
      ∃ s', Reaches (System.step rb) Always s s' ∧ s'.memory = m' ∧
        s'.writer w = some (call, pc') ∧ s'.reader = s.reader := by
  induction h with
  | refl m pc => exact fun s hm hw => ⟨s, Reaches.refl s, hm, hw, rfl⟩
  | @next m m' m'' pc pc' pc'' es h hrest ih =>
    rintro s rfl hw
    obtain ⟨s', hrun, hm, hw', hr⟩ := ih (s.afterWrite w call ⟨m', some pc', es⟩) rfl
      (Function.update_self _ _ _)
    exact ⟨s', (System.reaches_stepWrite hw h).trans hrun, hm, hw', hr⟩

/-- A thread in a call of `read` goes on. -/
theorem Goes.reaches_read {m m' : RingMemory} {pc pc' : ReadPc}
    (h : Goes (fun m pc => (readStep rb r m false pc : Effect W R ReadPc)) m pc m' pc') :
    ∀ s : System W R, s.memory = m → s.reader r = some pc →
      ∃ s', Reaches (System.step rb) Always s s' ∧ s'.memory = m' ∧
        s'.reader r = some pc' ∧ s'.writer = s.writer := by
  induction h with
  | refl m pc => exact fun s hm hr => ⟨s, Reaches.refl s, hm, hr, rfl⟩
  | @next m m' m'' pc pc' pc'' es h hrest ih =>
    rintro s rfl hr
    obtain ⟨s', hrun, hm, hr', hw⟩ := ih (s.afterRead r ⟨m', some pc', es⟩) rfl
      (Function.update_self _ _ _)
    exact ⟨s', (System.reaches_stepRead hr h).trans hrun, hm, hr', hw⟩

end

/-! ## Only such headers are enough -/

/-- `get_slot` returns a slot of the ring, unless its offset overflows. -/
theorem getSlot_of_lt {header : RingHeader} {idx slotSize : ℕ} (h64 : sizeOfSlotMetadata ≤ slotSize)
    (hidx : idx < header.slotCount) :
    (∃ slot, getSlot header idx slotSize = .ok slot ∧ slot.idx = idx) ∨
      (2^64 ≤ sizeOfRingHeader + idx * slotSize ∧ ∃ e, getSlot header idx slotSize = .error e) := by
  rcases getSlot_cases header idx slotSize with ⟨slot, hslot⟩ | ⟨p, hpanic⟩
  · obtain ⟨rfl, -⟩ := getSlot_ok hslot
    exact Or.inl ⟨_, hslot, rfl⟩
  · refine Or.inr ⟨?_, _, hpanic⟩
    by_contra hlt
    have hmul : mulUsize idx slotSize = .ok (idx * slotSize) := mulUsize_eq (by omega)
    unfold getSlot at hpanic
    rw [if_pos hidx, hmul, ok_bind, addUsize_eq (Nat.lt_of_not_le hlt), ok_bind, subUsize,
      if_pos h64] at hpanic
    cases hpanic

/-- A `read` of different indices moves the consumer index on, whether `get_slot` finds the slot or
panics. -/
theorem read_advances (rb : RingBuffer) {m : RingMemory}
    (hne : m.header.producerIdx ≠ m.header.consumerIdx) {next : ℕ}
    (hnext : nextIdx m.header.consumerIdx m.header.slotCount = .ok next) :
    ((read rb).exec m).2.header.slotCount = m.header.slotCount ∧
      ((read rb).exec m).2.header.producerIdx = m.header.producerIdx ∧
      ((read rb).exec m).2.header.consumerIdx = next := by
  rcases getSlot_cases m.header m.header.consumerIdx rb.slotSize with ⟨slot, hslot⟩ | ⟨p, hpanic⟩
  · obtain rfl : (m.header.consumerIdx + 1) % m.header.slotCount = next :=
      Except.ok.inj ((nextIdx_of_getSlot hslot).symm.trans hnext)
    by_cases hready : (m.slots m.header.consumerIdx).getStatus = .ready ∧
      (m.slots m.header.consumerIdx).size ≤ rb.payloadSize
    · rw [read_ready hslot hne hready.1 hready.2]
      exact ⟨rfl, rfl, rfl⟩
    · rw [read_skip hslot hne ((not_and_or.mp hready).imp_right Nat.lt_of_not_le)]
      exact ⟨rfl, rfl, rfl⟩
  · have hpanic' : getSlot (m.setConsumerIdx next).header m.header.consumerIdx rb.slotSize =
      .error (.panic p) := hpanic
    have hread : (read rb).exec m = (.error (.panic p), m.setConsumerIdx next) := by
      simp [read, hne, nextConsumerIdx_exec m hnext, hpanic']
    rw [hread]
    exact ⟨rfl, rfl, rfl⟩

/-- A file that has room for every slot whose offset does not overflow has room for all of them. -/
theorem inside_of_offsets {slotSize N fileLen : ℕ} (hN : 0 < N) (hlen : fileLen < 2^64)
    (h : ∀ idx < N, sizeOfRingHeader + idx * slotSize < 2^64 →
      (slotRegion slotSize idx).Inside fileLen) :
    sizeOfRingHeader + N * slotSize ≤ fileLen := by
  -- A slot that ends in the file is followed by one whose offset does not overflow.
  have hends : ∀ n < N, sizeOfRingHeader + (n + 1) * slotSize ≤ fileLen := by
    intro n hn
    induction n with
    | zero =>
      have hoffset : sizeOfRingHeader + 0 * slotSize < 2^64 := by
        unfold sizeOfRingHeader
        omega
      exact cell_inside_iff.mp (h 0 hn hoffset)
    | succ n ih =>
      have hend := ih (Nat.lt_of_succ_lt hn)
      exact cell_inside_iff.mp (h (n + 1) hn (Nat.lt_of_le_of_lt hend hlen))
  have hlast := hends (N - 1) (by omega)
  rwa [Nat.sub_add_cancel hN] at hlast

section
variable {W R : Type} [DecidableEq W] [DecidableEq R] {rb : RingBuffer} {m : RingMemory}
  {fileLen : ℕ} {s : System W R} {w : W} {r : R} {call : WriteCall} {N : ℕ}

/-- A call of `write` without a payload. -/
def emptyCall : WriteCall := ⟨.none, [], Uuid.nil, 0⟩

/-- The thread can go on to the next attempt to claim a slot: it is in no call, or its call is
there. -/
def System.CanClaim (s : System W R) (w : W) : Prop :=
  s.writer w = none ∨ ∃ attempts, s.writer w = some (emptyCall, .loadProducerIdx attempts)

/-- It does so. -/
theorem System.CanClaim.goes (h64 : sizeOfSlotMetadata ≤ rb.slotSize) (h : s.CanClaim w) :
    ∃ s' attempts, Reaches (System.step rb) Always s s' ∧ s'.memory = s.memory ∧
      s'.writer w = some (emptyCall, .loadProducerIdx attempts) ∧ s'.reader = s.reader := by
  rcases h with hidle | ⟨attempts, hw⟩
  · have hcall : (writeCall rb w emptyCall s.memory : Effect W R WritePc) =
        ⟨s.memory, some (.loadProducerIdx maxAttempts), [.writeCalled w emptyCall]⟩ := by
      unfold writeCall
      rw [maxPayloadSize_eq h64]
      rfl
    have hrun := System.reaches_callWrite rb hidle emptyCall
    rw [hcall] at hrun
    exact ⟨_, maxAttempts, hrun, rfl, Function.update_self _ _ _, rfl⟩
  · exact ⟨s, attempts, Reaches.refl s, rfl, hw, rfl⟩

/-- A call that has taken its slot makes its stores, and ends. -/
theorem settles_storing {idx : ℕ} (rest : List Store) : ∀ (s : System W R) (st : Store),
    s.writer w = some (emptyCall, .storing idx st rest) →
    ∃ s', Reaches (System.step rb) Always s s' ∧ s'.memory.header = s.memory.header ∧
      s'.CanClaim w := by
  induction rest with
  | nil =>
    intro s st hw
    exact ⟨_, System.reaches_stepWrite hw rfl, rfl, Or.inl (Function.update_self _ _ _)⟩
  | cons st' rest ih =>
    intro s st hw
    obtain ⟨s', hrun, hheader, hclaim⟩ := ih (s.afterWrite w emptyCall
      (writeStep rb w emptyCall s.memory false (.storing idx st (st' :: rest)))) st'
      (Function.update_self _ _ _)
    exact ⟨s', (System.reaches_stepWrite hw rfl).trans hrun, hheader, hclaim⟩

/-- After the claim the call fills the slot, or goes on to the next attempt, or fails. -/
theorem settles {attempts idx : ℕ} (hw : s.writer w = some (emptyCall, .checkEmpty attempts idx)) :
    ∃ s', Reaches (System.step rb) Always s s' ∧ s'.memory.header = s.memory.header ∧
      s'.CanClaim w := by
  -- A check that finds the slot available takes it.
  have htaken : ∀ {pc : WritePc} (s : System W R), s.writer w = some (emptyCall, pc) →
      (writeStep rb w emptyCall s.memory false pc : Effect W R WritePc) =
        ⟨s.memory, WritePc.ofStores idx emptyCall.program, []⟩ →
      ∃ s', Reaches (System.step rb) Always s s' ∧ s'.memory.header = s.memory.header ∧
        s'.CanClaim w := by
    intro pc s hw hpc
    obtain ⟨s', hrun, hheader, hclaim⟩ := settles_storing _ (s.afterWrite w emptyCall
      ⟨s.memory, WritePc.ofStores idx emptyCall.program, []⟩) _ (Function.update_self _ _ _)
    exact ⟨s', (System.reaches_stepWrite hw hpc).trans hrun, hheader, hclaim⟩
  by_cases hempty : (s.memory.slots idx).getStatus = .empty
  · exact htaken s hw (by simp only [writeStep, hempty, if_true])
  · have hchecked : Goes (fun m pc => (writeStep rb w emptyCall m false pc : Effect W R WritePc))
        s.memory (.checkEmpty attempts idx) s.memory (.checkComplete attempts idx) :=
      .next (by simp only [writeStep, hempty, if_false]; rfl) (.refl _ _)
    obtain ⟨s1, hrun1, hm1, hw1, -⟩ := hchecked.reaches_write s rfl hw
    by_cases hcomplete : (s.memory.slots idx).getStatus = .complete
    · obtain ⟨s2, hrun2, hheader, hclaim⟩ := htaken s1 hw1
        (by rw [hm1]; simp only [writeStep, hcomplete, if_true])
      exact ⟨s2, hrun1.trans hrun2, by rw [hheader, hm1], hclaim⟩
    · -- The slot is not available, and the attempt ends.
      have hnext : (writeStep rb w emptyCall s1.memory false (.checkComplete attempts idx) :
          Effect W R WritePc) = nextAttempt w emptyCall s1.memory attempts := by
        rw [hm1]
        simp only [writeStep, hcomplete, if_false]
      refine ⟨_, hrun1.trans (System.reaches_stepWrite hw1 hnext), ?_, ?_⟩
      · rw [← hm1]
        cases attempts <;> rfl
      · cases attempts with
        | zero => exact Or.inl (Function.update_self _ _ _)
        | succ attempts => exact Or.inr ⟨attempts, Function.update_self _ _ _⟩

/-- From the index of a slot a call claims that slot, and accesses it unless its offset
overflows. -/
theorem claims_slot (h64 : sizeOfSlotMetadata ≤ rb.slotSize)
    (hsize : s.memory.header.slotCount < 2^64)
    (hp : s.memory.header.producerIdx < s.memory.header.slotCount) {k : ℕ}
    (hk : availableSlots s.memory.header.slotCount s.memory.header.producerIdx
      s.memory.header.consumerIdx = .ok k) (hpos : 0 < k) (hcan : s.CanClaim w) :
    ∃ s', Reaches (System.step rb) Always s s' ∧ s'.memory.header =
        (s.memory.setProducerIdx
          ((s.memory.header.producerIdx + 1) % s.memory.header.slotCount)).header ∧
      ((∃ attempts, s'.writer w =
          some (emptyCall, .checkEmpty attempts s.memory.header.producerIdx)) ∨
        (2^64 ≤ sizeOfRingHeader + s.memory.header.producerIdx * rb.slotSize ∧
          s'.CanClaim w)) := by
  -- The thread comes to its exchange, which succeeds when no other one runs.
  obtain ⟨s1, attempts, hrun1, hm1, hw1, -⟩ := hcan.goes h64
  obtain ⟨s2, hrun2, hm2, hw2, -⟩ :=
    (goes_compareExchange hk hpos attempts).reaches_write s1 hm1 hw1
  have hnext : nextIdx s.memory.header.producerIdx s.memory.header.slotCount = _ :=
    nextIdx_eq (by omega) (by omega)
  rcases getSlot_of_lt h64 hp with ⟨slot, hslot, hidx⟩ | ⟨hoffset, e, hpanic⟩
  · have hclaimed : (writeStep rb w emptyCall s2.memory false
        (.compareExchange attempts s.memory.header.producerIdx) : Effect W R WritePc) =
        ⟨s.memory.setProducerIdx
            ((s.memory.header.producerIdx + 1) % s.memory.header.slotCount),
          some (.checkEmpty attempts s.memory.header.producerIdx),
          [.claimed w emptyCall s.memory.header.producerIdx]⟩ := by
      rw [hm2]
      simp only [writeStep, hnext, and_self, if_true, hslot, hidx]
    exact ⟨_, (hrun1.trans hrun2).trans (System.reaches_stepWrite hw2 hclaimed), rfl,
      Or.inl ⟨attempts, Function.update_self _ _ _⟩⟩
  · -- The index has moved on when `get_slot` panics.
    have hclaimed : (writeStep rb w emptyCall s2.memory false
        (.compareExchange attempts s.memory.header.producerIdx) : Effect W R WritePc) =
        ⟨s.memory.setProducerIdx
            ((s.memory.header.producerIdx + 1) % s.memory.header.slotCount), none,
          [.claimed w emptyCall s.memory.header.producerIdx,
            .writeReturned w emptyCall (.error e)]⟩ := by
      rw [hm2]
      simp only [writeStep, hnext, and_self, if_true, hpanic]
    exact ⟨_, (hrun1.trans hrun2).trans (System.reaches_stepWrite hw2 hclaimed), rfl,
      Or.inr ⟨hoffset, Or.inl (Function.update_self _ _ _)⟩⟩

/-- A thread that writes goes on to access any slot of the ring, however far ahead, unless its
offset overflows. -/
theorem visits_ahead (h64 : sizeOfSlotMetadata ≤ rb.slotSize) {c : ℕ} (hsize : N < 2^64)
    (hav : ∀ p < N, ∃ k, availableSlots N p c = .ok k ∧ 0 < k) (d : ℕ) :
    ∀ s : System W R, s.memory.header.slotCount = N → s.memory.header.consumerIdx = c →
      s.memory.header.producerIdx < N → s.CanClaim w →
      ∃ s', Reaches (System.step rb) Always s s' ∧
        ((∃ attempts, s'.writer w =
            some (emptyCall, .checkEmpty attempts ((s.memory.header.producerIdx + d) % N))) ∨
          2^64 ≤ sizeOfRingHeader + (s.memory.header.producerIdx + d) % N * rb.slotSize) := by
  -- One claim moves the producer index on by one, so the slot is one closer.
  induction d with
  | zero =>
    rintro s rfl rfl hp hcan
    obtain ⟨k, hk, hpos⟩ := hav _ hp
    obtain ⟨s', hrun, -, hvisit | ⟨hoffset, -⟩⟩ := claims_slot h64 hsize hp hk hpos hcan
    · refine ⟨s', hrun, Or.inl ?_⟩
      rwa [Nat.add_zero, Nat.mod_eq_of_lt hp]
    · refine ⟨s', hrun, Or.inr ?_⟩
      rwa [Nat.add_zero, Nat.mod_eq_of_lt hp]
  | succ d ih =>
    rintro s rfl rfl hp hcan
    obtain ⟨k, hk, hpos⟩ := hav _ hp
    obtain ⟨s1, hrun1, hheader1, hvisit⟩ := claims_slot h64 hsize hp hk hpos hcan
    have hsettled : ∃ s2, Reaches (System.step rb) Always s1 s2 ∧
        s2.memory.header = s1.memory.header ∧ s2.CanClaim w := by
      rcases hvisit with ⟨attempts, hw1⟩ | ⟨-, hcan1⟩
      · exact settles hw1
      · exact ⟨s1, Reaches.refl s1, rfl, hcan1⟩
    obtain ⟨s2, hrun2, hheader2, hcan2⟩ := hsettled
    have hheader := hheader2.trans hheader1
    obtain ⟨s', hrun', hvisit'⟩ := ih s2 (by rw [hheader]; rfl) (by rw [hheader]; rfl)
      (by rw [hheader]; exact Nat.mod_lt _ (Nat.zero_lt_of_lt hp)) hcan2
    refine ⟨s', (hrun1.trans hrun2).trans hrun', ?_⟩
    rw [hheader, RingMemory.setProducerIdx_producerIdx, Nat.mod_add_mod, Nat.add_assoc,
      Nat.add_comm 1 d] at hvisit'
    exact hvisit'

variable (rb r) in
/-- Reads move the consumer index of a ring on as far as one likes, when the producer index is past
the slots. -/
theorem reads_ahead (hsize : N < 2^64) (d : ℕ) :
    ∀ s : System W R, s.memory.header.slotCount = N → s.memory.header.consumerIdx < N →
      N ≤ s.memory.header.producerIdx → s.reader r = none →
      ∃ s', Reaches (System.step rb) Always s s' ∧ s'.writer = s.writer ∧ s'.reader r = none ∧
        s'.memory.header.slotCount = N ∧
        s'.memory.header.producerIdx = s.memory.header.producerIdx ∧
        s'.memory.header.consumerIdx = (s.memory.header.consumerIdx + d) % N := by
  induction d with
  | zero =>
    intro s hN hc hp hidle
    exact ⟨s, Reaches.refl s, rfl, hidle, hN, rfl, (Nat.mod_eq_of_lt hc).symm⟩
  | succ d ih =>
    rintro s rfl hc hp hidle
    -- The consumer index stays below the count, so that the two never meet.
    have hne : s.memory.header.producerIdx ≠ s.memory.header.consumerIdx := by omega
    obtain ⟨hcount, hproducer, hconsumer⟩ := read_advances rb hne
      (nextIdx_eq (by omega) (by omega))
    obtain ⟨es, hrun, -⟩ := read_solo rb hidle
    obtain ⟨s', hrun', hw, hr, hcount', hproducer', hconsumer'⟩ := ih
      ⟨((read rb).exec s.memory).2, s.writer, s.reader, s.history ++ es⟩ hcount
      (by rw [hconsumer]; exact Nat.mod_lt _ (by omega)) (by rw [hproducer]; exact hp) hidle
    refine ⟨s', hrun.trans hrun', hw, hr, hcount', hproducer'.trans hproducer, ?_⟩
    rw [hconsumer', hconsumer, Nat.mod_add_mod, Nat.add_assoc, Nat.add_comm 1 d]

/-- The runs through the handle on this memory are usable. -/
def Usable (W R : Type) [DecidableEq W] [DecidableEq R] (rb : RingBuffer) (m : RingMemory)
    (fileLen : ℕ) : Prop :=
  (∃ limit, maxPayloadSize rb = .ok limit) ∧
    ∀ s : System W R, Reaches (System.step rb) Always (System.start m) s → s.Usable rb fileLen

/-- Where runs are usable, no step of `write` fails. -/
theorem Usable.write_events (h : Usable W R rb m fileLen)
    (hrun : Reaches (System.step rb) Always (System.start m) s) {pc : WritePc}
    (hw : s.writer w = some (call, pc)) :
    ∀ ev ∈ (writeStep rb w call s.memory false pc : Effect W R WritePc).events, ¬ ev.Fails := by
  intro ev hev
  exact (h.2 _ (hrun.trans (System.reaches_stepWrite hw rfl))).calls ev
    (List.mem_append_right _ hev)

/-- Where runs are usable, no step of `read` fails. -/
theorem Usable.read_events (h : Usable W R rb m fileLen)
    (hrun : Reaches (System.step rb) Always (System.start m) s) {pc : ReadPc}
    (hr : s.reader r = some pc) :
    ∀ ev ∈ (readStep rb r s.memory false pc : Effect W R ReadPc).events, ¬ ev.Fails := by
  intro ev hev
  exact (h.2 _ (hrun.trans (System.reaches_stepRead hr rfl))).calls ev (List.mem_append_right _ hev)

/-- Where runs are usable, slots have room for their metadata. -/
theorem Usable.slotSize_ge (h : Usable W R rb m fileLen) : sizeOfSlotMetadata ≤ rb.slotSize := by
  obtain ⟨limit, hlimit⟩ := h.1
  exact (subUsize_eq_ok hlimit).1

/-- Where runs are usable and a call of `write` starts, `available_slots` is defined, and when it is
not zero the producer index is that of a slot, or the last `usize`. -/
theorem Usable.available (h : Usable W R rb m fileLen)
    (hrun : Reaches (System.step rb) Always (System.start m) s) (hidle : s.writer w = none) :
    ∃ k, availableSlots s.memory.header.slotCount s.memory.header.producerIdx
        s.memory.header.consumerIdx = .ok k ∧
      (0 < k → s.memory.header.producerIdx < s.memory.header.slotCount ∨
        2^64 ≤ s.memory.header.producerIdx + 1) := by
  obtain ⟨s1, attempts, hrun1, hm1, hw1, -⟩ :=
    System.CanClaim.goes (w := w) h.slotSize_ge (Or.inl hidle)
  rcases availableSlots_cases s.memory.header.slotCount s.memory.header.producerIdx
    s.memory.header.consumerIdx with ⟨k, hk⟩ | hpanic
  · refine ⟨k, hk, fun hpos => ?_⟩
    obtain ⟨s2, hrun2, hm2, hw2, -⟩ :=
      (goes_compareExchange hk hpos attempts).reaches_write s1 hm1 hw1
    have hevents := h.write_events ((hrun.trans hrun1).trans hrun2) hw2
    rw [hm2] at hevents
    rcases nextIdx_cases s.memory.header.producerIdx s.memory.header.slotCount with
      ⟨-, -, hnext⟩ | ⟨-, -, hnext⟩ | ⟨hlast, -⟩
    · -- A claim of an index past the slots would fail the assertion of `get_slot`.
      left
      by_contra hge
      have hget : getSlot s.memory.header s.memory.header.producerIdx rb.slotSize =
          .error (.panic .slotIndexOutOfBounds) := if_neg hge
      simp only [writeStep, hnext, and_self, if_true, hget] at hevents
      exact hevents _ (List.mem_cons_of_mem _ (List.mem_singleton_self _)) trivial
    · simp only [writeStep, hnext] at hevents
      exact absurd trivial (hevents _ (List.mem_singleton_self _))
    · exact Or.inr hlast
  · -- The call would fail when it has loaded the two indices.
    exfalso
    have hloaded : Goes (fun m pc => (writeStep rb w emptyCall m false pc : Effect W R WritePc))
        s.memory (.loadProducerIdx attempts) s.memory
        (.loadConsumerIdx attempts s.memory.header.producerIdx) := .next rfl (.refl _ _)
    obtain ⟨s2, hrun2, hm2, hw2, -⟩ := hloaded.reaches_write s1 hm1 hw1
    have hevents := h.write_events ((hrun.trans hrun1).trans hrun2) hw2
    rw [hm2] at hevents
    simp only [writeStep, hpanic] at hevents
    exact hevents _ (List.mem_singleton_self _) trivial

/-- Where runs are usable and a call of `read` starts on different indices, it accesses the slot at
the consumer index, which is one of the ring, unless its offset overflows or the index is the last
`usize`. -/
theorem Usable.passes (h : Usable W R rb m fileLen)
    (hrun : Reaches (System.step rb) Always (System.start m) s) (hidle : s.reader r = none)
    (hne : s.memory.header.producerIdx ≠ s.memory.header.consumerIdx) :
    2^64 ≤ s.memory.header.consumerIdx + 1 ∨
      s.memory.header.consumerIdx < s.memory.header.slotCount ∧
        (sizeOfRingHeader + s.memory.header.consumerIdx * rb.slotSize < 2^64 →
          (slotRegion rb.slotSize s.memory.header.consumerIdx).Inside fileLen) := by
  -- A call that runs alone loads both indices, and comes to its exchange.
  have hloaded : (readStep rb r s.memory false
      (.loadConsumerIdx s.memory.header.producerIdx) : Effect W R ReadPc) =
      ⟨s.memory, some .loadCurrent, []⟩ := by
    simp only [readStep, hne, if_false]
  have hgoes : Goes (fun m pc => (readStep rb r m false pc : Effect W R ReadPc)) s.memory
      .loadProducerIdx s.memory (.compareExchange s.memory.header.consumerIdx) :=
    .next rfl (.next hloaded (.next rfl (.refl _ _)))
  obtain ⟨s1, hrun1, hm1, hr1, -⟩ := hgoes.reaches_read
    (s.afterRead r ⟨s.memory, some .loadProducerIdx, [.readCalled r]⟩) rfl
    (Function.update_self _ _ _)
  have hrun1 : Reaches (System.step rb) Always s s1 :=
    (System.reaches_callRead rb hidle).trans hrun1
  have hevents := h.read_events (hrun.trans hrun1) hr1
  rw [hm1] at hevents
  rcases nextIdx_cases s.memory.header.consumerIdx s.memory.header.slotCount with
    ⟨-, -, hnext⟩ | ⟨-, -, hnext⟩ | ⟨hlast, -⟩
  · right
    -- Passing an index past the slots would fail the assertion of `get_slot`.
    have hlt : s.memory.header.consumerIdx < s.memory.header.slotCount := by
      by_contra hge
      have hget : getSlot s.memory.header s.memory.header.consumerIdx rb.slotSize =
          .error (.panic .slotIndexOutOfBounds) := if_neg hge
      simp only [readStep, hnext, and_self, if_true, hget] at hevents
      exact hevents _ (List.mem_cons_of_mem _ (List.mem_singleton_self _)) trivial
    refine ⟨hlt, fun hoffset => ?_⟩
    rcases getSlot_of_lt h.slotSize_ge hlt with ⟨slot, hslot, hidx⟩ | ⟨hover, -⟩
    · have hpassed : (readStep rb r s1.memory false
          (.compareExchange s.memory.header.consumerIdx) : Effect W R ReadPc) =
          ⟨s.memory.setConsumerIdx
              ((s.memory.header.consumerIdx + 1) % s.memory.header.slotCount),
            some (.checkReady s.memory.header.consumerIdx),
            [.passed r s.memory.header.consumerIdx]⟩ := by
        rw [hm1]
        simp only [readStep, hnext, and_self, if_true, hslot, hidx]
      exact (h.2 _ ((hrun.trans hrun1).trans (System.reaches_stepRead hr1 hpassed))).reads r _ _
        (Function.update_self _ _ _) rfl
    · exact absurd hoffset (Nat.not_lt_of_le hover)
  · simp only [readStep, hnext] at hevents
    exact absurd trivial (hevents _ (List.mem_singleton_self _))
  · exact Or.inl hlast

/-- Where runs are usable and calls of `write` can go round the ring, the file has room for the
slots. -/
theorem Usable.inside_of_writes [Inhabited W] (h : Usable W R rb m fileLen)
    (hlen : fileLen < 2^64) (hsize : m.header.slotCount < 2^64)
    (hp : m.header.producerIdx < m.header.slotCount)
    (hav : ∀ p < m.header.slotCount, ∃ k,
      availableSlots m.header.slotCount p m.header.consumerIdx = .ok k ∧ 0 < k) :
    sizeOfRingHeader + m.header.slotCount * rb.slotSize ≤ fileLen := by
  refine inside_of_offsets (Nat.zero_lt_of_lt hp) hlen fun idx hidx hoffset => ?_
  obtain ⟨s, hrun, hvisit⟩ := visits_ahead (w := (default : W)) h.slotSize_ge hsize hav
    (idx + (m.header.slotCount - m.header.producerIdx)) (System.start m : System W R) rfl rfl hp
    (Or.inl rfl)
  have hahead : (m.header.producerIdx +
      (idx + (m.header.slotCount - m.header.producerIdx))) % m.header.slotCount = idx := by
    rw [show m.header.producerIdx + (idx + (m.header.slotCount - m.header.producerIdx)) =
      idx + m.header.slotCount by omega, Nat.add_mod_right, Nat.mod_eq_of_lt hidx]
  rw [show (System.start m : System W R).memory.header.producerIdx = m.header.producerIdx from rfl,
    hahead] at hvisit
  rcases hvisit with ⟨attempts, hw⟩ | hover
  · exact (h.2 s hrun).writes _ _ _ _ hw rfl
  · exact absurd hoffset (Nat.not_lt_of_le hover)

/-- Where runs are usable and the producer index is past the slots, calls of `read` can go round the
ring, so the file has room for the slots. The ring has one slot, and looks full. -/
theorem Usable.inside_of_reads [Inhabited W] [Inhabited R] (h : Usable W R rb m fileLen)
    (hlen : fileLen < 2^64) (hsize : m.header.slotCount < 2^64)
    (hc : m.header.consumerIdx < m.header.slotCount)
    (hp : m.header.slotCount ≤ m.header.producerIdx) :
    sizeOfRingHeader + m.header.slotCount * rb.slotSize ≤ fileLen ∧
      m.header.slotCount = 1 ∧ m.header.producerIdx = 1 := by
  -- The state after enough calls of `read`.
  have hreads := fun d => reads_ahead rb (default : R) hsize
    (m.header.slotCount - m.header.consumerIdx + d) (System.start m : System W R) rfl hc hp rfl
  have hahead : ∀ d, (m.header.consumerIdx + (m.header.slotCount - m.header.consumerIdx + d)) %
      m.header.slotCount = d % m.header.slotCount := by
    intro d
    rw [show m.header.consumerIdx + (m.header.slotCount - m.header.consumerIdx + d) =
      d + m.header.slotCount by omega, Nat.add_mod_right]
  have hinside : sizeOfRingHeader + m.header.slotCount * rb.slotSize ≤ fileLen := by
    refine inside_of_offsets (Nat.zero_lt_of_lt hc) hlen fun idx hidx hoffset => ?_
    obtain ⟨s, hrun, -, hr, hcount, hproducer, hconsumer⟩ := hreads idx
    have hconsumer' : s.memory.header.consumerIdx = idx :=
      (hconsumer.trans (hahead idx)).trans (Nat.mod_eq_of_lt hidx)
    have hproducer' : s.memory.header.producerIdx = m.header.producerIdx := hproducer
    have hpasses := h.passes hrun hr (by omega)
    rw [hconsumer'] at hpasses
    rcases hpasses with hlast | ⟨-, hvisit⟩
    · omega
    · exact hvisit hoffset
  refine ⟨hinside, ?_⟩
  have hsmall : m.header.slotCount * 64 ≤ m.header.slotCount * rb.slotSize :=
    Nat.mul_le_mul_left _ h.slotSize_ge
  -- `available_slots` is defined when the consumer index is zero.
  have havailable : ∀ d < m.header.slotCount, ∃ k,
      availableSlots m.header.slotCount m.header.producerIdx d = .ok k ∧
        (0 < k → 2^64 ≤ m.header.producerIdx + 1) := by
    intro d hd
    obtain ⟨s, hrun, hw, -, hcount, hproducer, hconsumer⟩ := hreads d
    have hconsumer' : s.memory.header.consumerIdx = d :=
      (hconsumer.trans (hahead d)).trans (Nat.mod_eq_of_lt hd)
    have hproducer' : s.memory.header.producerIdx = m.header.producerIdx := hproducer
    obtain ⟨k, hk, hclaim⟩ := h.available (w := (default : W)) hrun (by rw [hw]; rfl)
    rw [hcount, hproducer', hconsumer'] at hk
    refine ⟨k, hk, fun hpos => ?_⟩
    rcases hclaim hpos with hlt | hlast
    · omega
    · rwa [hproducer'] at hlast
  obtain ⟨k, hk, -⟩ := havailable 0 (by omega)
  rw [availableSlots_iff] at hk
  by_cases hone : m.header.slotCount = 1
  · exact ⟨hone, by omega⟩
  · -- After one more read a slot is available, and it is not one of the ring.
    exfalso
    obtain ⟨k', hk', hclaim⟩ := havailable 1 (by omega)
    rw [availableSlots_iff] at hk'
    have hlast := hclaim (by omega)
    omega

/-- Where runs are usable the header is admissible or stalled. -/
theorem Usable.header [Inhabited W] [Inhabited R] (h : Usable W R rb m fileLen)
    (hwords : m.header.Fits) (hlen : fileLen < 2^64) (hsize : rb.slotSize = m.header.slotSize)
    (hpos : 0 < m.header.slotCount) :
    m.header.Admissible fileLen ∨ m.header.Stalled fileLen := by
  have hstart : Reaches (System.step rb) Always (System.start m) (System.start m : System W R) :=
    Reaches.refl _
  have h64 : sizeOfSlotMetadata ≤ m.header.slotSize := hsize ▸ h.slotSize_ge
  have hN : m.header.slotCount < 2^64 := hwords .slotCount
  have hc : m.header.consumerIdx < 2^64 := hwords .consumerIdx
  have hp : m.header.producerIdx < 2^64 := hwords .producerIdx
  obtain ⟨k, hk, hclaim⟩ := h.available (w := (default : W)) hstart rfl
  change availableSlots m.header.slotCount m.header.producerIdx m.header.consumerIdx = .ok k at hk
  change 0 < k → m.header.producerIdx < m.header.slotCount ∨
    2^64 ≤ m.header.producerIdx + 1 at hclaim
  rw [availableSlots_iff] at hk
  by_cases hslot : m.header.consumerIdx < m.header.slotCount
  · left
    -- The threads go round the slots, with writes or with reads.
    rcases Nat.lt_or_ge m.header.producerIdx m.header.slotCount with hproducer | hproducer
    · have hinside := h.inside_of_writes hlen hN hproducer fun p hp => by
        obtain ⟨k, hk, hpos, -⟩ := availableSlots_eq hp hslot
        exact ⟨k, hk, hpos⟩
      exact ⟨h64, hslot, Or.inl hproducer, hsize ▸ hinside⟩
    · obtain ⟨hinside, hone⟩ := h.inside_of_reads hlen hN hslot hproducer
      exact ⟨h64, hslot, Or.inr hone, hsize ▸ hinside⟩
  · right
    have hlast : m.header.consumerIdx + 1 = 2^64 := by
      by_cases heq : m.header.producerIdx = m.header.consumerIdx
      · -- An empty ring has slots available.
        rcases hclaim (by omega) with hlt | hlast <;> omega
      · rcases h.passes (r := (default : R)) hstart rfl heq with hlast | ⟨hlt, -⟩
        · exact Nat.le_antisymm hc hlast
        · exact absurd hlt hslot
    refine ⟨h64, hlast, ?_⟩
    rcases Nat.lt_or_ge m.header.producerIdx m.header.slotCount with hproducer | hproducer
    · refine Or.inr ⟨hproducer, hsize ▸ h.inside_of_writes hlen hN hproducer fun p hp => ?_⟩
      exact ⟨_, availableSlots_iff.mpr (Or.inr ⟨by omega, rfl⟩), by omega⟩
    · left
      rcases hk with ⟨hle, -, -⟩ | ⟨hlt, hk⟩
      · omega
      · rcases hclaim (by omega) with hclaim | hclaim <;> omega

end

/-- When `open` returns a handle, all later calls through it are usable exactly when the header is
admissible for the length of the file, or stalled. -/
theorem open_usable_iff {W R : Type} [DecidableEq W] [DecidableEq R] [Inhabited W] [Inhabited R]
    {m : RingMemory} {options : RingBufferOptions} {rb : RingBuffer} {fileLen : ℕ}
    (hwords : m.header.Fits) (hlen : fileLen < 2^64) (hopen : openRing m.header options = .ok rb) :
    Usable W R rb m fileLen ↔ m.header.Admissible fileLen ∨ m.header.Stalled fileLen := by
  obtain ⟨hsize, hpos⟩ := openRing_ok hopen
  refine ⟨fun h => h.header hwords hlen hsize hpos, fun h => ?_⟩
  have hlimit : sizeOfSlotMetadata ≤ rb.slotSize → ∃ limit, maxPayloadSize rb = .ok limit :=
    fun h64 => ⟨_, maxPayloadSize_eq h64⟩
  rcases h with h | h
  · exact ⟨hlimit (hsize ▸ h.room), fun s hrun => usable_of_admissible hlen hsize h hrun⟩
  · exact ⟨hlimit (hsize ▸ h.room),
      fun s hrun => usable_of_stalled hlen (hwords .slotCount) hsize h hrun⟩

/-- A header that `validate` accepts, of a file with one slot. -/
def smallHeader : RingHeader :=
  { magic := RingHeader.MAGIC, version := RingHeader.VERSION, size := 320, slotSize := 128,
    slotCount := 1, producerIdx := 0, consumerIdx := 0, activeProducers := 0,
    operationsCompleted := 0, createdAt := 0, numaNode := 0 }

/-- A header with a slot size of 32, which `validate` accepts: `max_payload_size` panics. -/
theorem open_usable_fails : ¬ ∀ (m : RingMemory) (options : RingBufferOptions) (rb : RingBuffer)
    (fileLen : ℕ), m.header.Fits → fileLen < 2^64 → sizeOfRingHeader ≤ fileLen →
    openRing m.header options = .ok rb → Usable Unit Unit rb m fileLen := by
  intro h
  have husable := h ⟨{ smallHeader with slotSize := 32 }, fun _ => Slot.zeroed 0⟩ ⟨320, 32⟩
    ⟨320, 32, false⟩ 320 (by intro field; cases field <;> decide) (by decide) (by decide) rfl
  have h64 := husable.slotSize_ge
  revert h64
  decide

/-- A ring of one slot that has been left as it was created. -/
theorem open_usable_oneSlot : ∃ (m : RingMemory) (rb : RingBuffer),
    openRing m.header ⟨320, 128⟩ = .ok rb ∧ Usable Unit Unit rb m 320 := by
  have hopen : openRing smallHeader ⟨320, 128⟩ = .ok ⟨320, 128, false⟩ := rfl
  exact ⟨⟨smallHeader, fun _ => Slot.zeroed 64⟩, ⟨320, 128, false⟩, hopen,
    (open_usable_iff (by intro field; cases field <;> decide) (by decide) hopen).mpr
      (Or.inl ⟨by decide, by decide, Or.inl (by decide), by decide⟩)⟩

-- On a stalled header a call of `write` panics at the addition of its first claim.
example (id : Uuid) : ((write ⟨448, 128, false⟩ ⟨.custom, [1], id, 0⟩).exec
    ⟨⟨RingHeader.MAGIC, RingHeader.VERSION, 448, 128, 2, 2^64 - 1, 2^64 - 1, 1, 0, 0, 0⟩,
      fun _ => Slot.zeroed 64⟩).1 = .error (.panic .addOverflow) := rfl

end Elgate.Ring
