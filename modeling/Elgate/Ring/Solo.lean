import Elgate.Ring.Session
import Elgate.Ring.Steps

/-!
# Threads that nothing interrupts

The functions `write` and `read` of the ring buffer and the threads of a `System` are two
descriptions of one code. A thread that runs alone, and whose compare-exchanges do not fail
spuriously, ends its call with the result of the function and leaves the memory that the function
leaves, whatever the memory is (`write_solo`, `read_solo`). So every session is a run of a system
with one writer and one reader (`session_reaches`).
-/

namespace Elgate.Ring

open Transition

/-- A call whose steps are `step` ends when it runs alone from a place on: the calls of `write` that
return `Ok`, the messages that are returned, and the memory that it leaves. -/
inductive Alone {W R Pc : Type} (step : RingMemory → Pc → Effect W R Pc) :
    RingMemory → Pc → List (W × WriteCall × ℕ) → List (ℕ × Message) → RingMemory → Prop
  /-- The last step. -/
  | last {m m' : RingMemory} {pc : Pc} {es : List (Event W R)} (h : step m pc = ⟨m', none, es⟩) :
    Alone step m pc (okReturns es) (deliveries es) m'
  /-- A step before it. -/
  | next {m m' m'' : RingMemory} {pc pc' : Pc} {es : List (Event W R)}
    {oks : List (W × WriteCall × ℕ)} {dels : List (ℕ × Message)}
    (h : step m pc = ⟨m', some pc', es⟩) (hoks : okReturns es = []) (hdels : deliveries es = [])
    (hrest : Alone step m' pc' oks dels m'') : Alone step m pc oks dels m''

/-- What is recorded of a call of `write` with this result. -/
def okResult {W : Type} (w : W) (call : WriteCall) : Except Fault ℕ → List (W × WriteCall × ℕ)
  | .ok idx => [(w, call, idx)]
  | .error _ => []

/-- A call of `write` runs alone from a place on and has the result. -/
def WriteEnds {W : Type} (R : Type) (rb : RingBuffer) (w : W) (call : WriteCall) (m : RingMemory)
    (pc : WritePc) (r : Except Fault ℕ × RingMemory) : Prop :=
  Alone (fun m pc => (writeStep rb w call m false pc : Effect W R WritePc)) m pc
    (okResult w call r.1) [] r.2

/-- What is returned by a call of `read` with this result. -/
def readResult : Except Fault (Option Message) → List Message
  | .ok (some msg) => [msg]
  | _ => []

/-- A call of `read` runs alone from a place on and has the result. -/
def ReadEnds (W : Type) {R : Type} (rb : RingBuffer) (r : R) (m : RingMemory) (pc : ReadPc)
    (result : Except Fault (Option Message) × RingMemory) : Prop :=
  ∃ dels, Alone (fun m pc => (readStep rb r m false pc : Effect W R ReadPc)) m pc [] dels result.2 ∧
    dels.map Prod.snd = readResult result.1

/-! ## `write` -/

section
variable {W R : Type} {rb : RingBuffer} {w : W} {call : WriteCall}

/-- The last step. -/
theorem WriteEnds.last {m m' : RingMemory} {pc : WritePc} {es : List (Event W R)}
    {result : Except Fault ℕ} (h : writeStep rb w call m false pc = ⟨m', none, es⟩)
    (hoks : okReturns es = okResult w call result) (hdels : deliveries es = []) :
    WriteEnds R rb w call m pc (result, m') := by
  unfold WriteEnds
  rw [← hoks, ← hdels]
  exact .last h

/-- A step before it. -/
theorem WriteEnds.next {m m' : RingMemory} {pc pc' : WritePc} {es : List (Event W R)}
    {r : Except Fault ℕ × RingMemory} (h : writeStep rb w call m false pc = ⟨m', some pc', es⟩)
    (hoks : okReturns es = []) (hdels : deliveries es = [])
    (hrest : WriteEnds R rb w call m' pc' r) : WriteEnds R rb w call m pc r :=
  Alone.next h hoks hdels hrest

/-- The stores of `write`, and its return. -/
theorem WriteEnds.storing (rest : List Store) : ∀ (m : RingMemory) (idx : ℕ) (st : Store),
    WriteEnds R rb w call m (.storing idx st rest)
      (.ok idx, m.setSlot idx ((m.slots idx).storeAll (st :: rest))) := by
  induction rest with
  | nil =>
    intro m idx st
    obtain ⟨-, -, -, -, hdels, hoks⟩ := storeEvents_records (R := R) w call idx st []
    exact .last rfl hoks hdels
  | cons st' rest ih =>
    intro m idx st
    obtain ⟨-, -, -, -, hdels, hoks⟩ := storeEvents_records (R := R) w call idx st (st' :: rest)
    have hrest := ih (m.setSlot idx ((m.slots idx).store st)) idx st'
    rw [RingMemory.setSlot_slots, Function.update_self, RingMemory.setSlot_setSlot] at hrest
    exact .next rfl hoks hdels hrest

/-- The call goes on after an attempt that has found no slot. -/
def NextEnds {W : Type} (R : Type) (rb : RingBuffer) (w : W) (call : WriteCall) (m : RingMemory)
    (r : Except Fault ℕ × RingMemory) : ℕ → Prop
  | 0 => r = (.error (.err (.ringBufferFull maxAttempts)), m)
  | attempts + 1 => WriteEnds R rb w call m (.loadProducerIdx attempts) r

/-- The end of an attempt that has found no slot. -/
theorem WriteEnds.nextAttempt {m m' : RingMemory} {pc : WritePc} {attempts : ℕ}
    {r : Except Fault ℕ × RingMemory}
    (h : writeStep rb w call m false pc = (Ring.nextAttempt w call m' attempts :
      Effect W R WritePc)) (hnext : NextEnds R rb w call m' r attempts) :
    WriteEnds R rb w call m pc r := by
  cases attempts with
  | zero =>
    obtain rfl := hnext
    exact .last h rfl rfl
  | succ attempts => exact .next h rfl rfl hnext

/-- A call that has claimed an available slot fills it, and goes on if it is not available. -/
theorem WriteEnds.check {m : RingMemory} {attempts idx : ℕ} {r : Except Fault ℕ × RingMemory}
    (h : if (m.slots idx).available then
        r = (.ok idx, m.setSlot idx ((m.slots idx).storeAll call.program))
      else NextEnds R rb w call m r attempts) :
    WriteEnds R rb w call m (.checkEmpty attempts idx) r := by
  -- `program` is not empty, so its stores are next.
  have hprogram : WriteEnds R rb w call m (.storing idx _ _)
      (.ok idx, m.setSlot idx ((m.slots idx).storeAll call.program)) :=
    .storing _ m idx (.status .empty)
  by_cases hempty : (m.slots idx).getStatus = .empty
  · have hav : (m.slots idx).available = true := by simp [Slot.available, hempty]
    rw [if_pos hav] at h
    subst h
    exact .next (by simp only [writeStep, hempty, if_true]; rfl) rfl rfl hprogram
  · refine .next (by simp only [writeStep, hempty, if_false]; rfl) rfl rfl ?_
    by_cases hcomplete : (m.slots idx).getStatus = .complete
    · have hav : (m.slots idx).available = true := by simp [Slot.available, hcomplete]
      rw [if_pos hav] at h
      subst h
      exact .next (by simp only [writeStep, hcomplete, if_true]; rfl) rfl rfl hprogram
    · have hav : ¬ (m.slots idx).available = true := by simp [Slot.available, hempty, hcomplete]
      rw [if_neg hav] at h
      exact .nextAttempt (by simp only [writeStep, hcomplete, if_false]) h

/-- An attempt of `wait_for_slot` ends as that of the function does: the call fails, or it goes on
after the attempt, or it fills the slot that it has taken. -/
theorem WriteEnds.attempt (R : Type) (rb : RingBuffer) (w : W) (call : WriteCall) (m : RingMemory)
    (attempts : ℕ) :
    (∃ e m', (tryClaim rb).exec m = (.error e, m') ∧
      WriteEnds R rb w call m (.loadProducerIdx attempts) (.error e, m')) ∨
    (∃ m', (tryClaim rb).exec m = (.ok none, m') ∧ ∀ r, NextEnds R rb w call m' r attempts →
      WriteEnds R rb w call m (.loadProducerIdx attempts) r) ∨
    (∃ idx m', (tryClaim rb).exec m = (.ok (some idx), m') ∧
      (∃ slot, getSlot m'.header idx rb.slotSize = .ok slot) ∧
      WriteEnds R rb w call m (.loadProducerIdx attempts)
        (.ok idx, m'.setSlot idx ((m'.slots idx).storeAll call.stores))) := by
  cases hav : availableSlots m.header.slotCount m.header.producerIdx m.header.consumerIdx with
  | error e =>
    -- `available_slots` panics.
    exact Or.inl ⟨e, m, by simp [tryClaim, hav],
      .next rfl rfl rfl (.last (by simp only [writeStep, hav]; rfl) rfl rfl)⟩
  | ok available =>
    by_cases hpos : available > 0
    · -- The call goes on to the compare-exchange, which succeeds.
      have hexchange : ∀ {r}, WriteEnds R rb w call m
          (.compareExchange attempts m.header.producerIdx) r →
          WriteEnds R rb w call m (.loadProducerIdx attempts) r := fun h =>
        .next rfl rfl rfl (.next (by simp only [writeStep, hav, hpos, if_true]; rfl) rfl rfl
          (.next rfl rfl rfl h))
      cases hnext : nextIdx m.header.producerIdx m.header.slotCount with
      | error e =>
        -- The ring has no slot, or the producer index is the last `usize`.
        have hpanic : nextProducerIdx.exec m = (.error e, m) := by
          simp [nextProducerIdx, hnext]
        exact Or.inl ⟨_, m, by simp [tryClaim, hav, hpos, hpanic]; rfl,
          hexchange (.last (by simp only [writeStep, hnext]; rfl) rfl rfl)⟩
      | ok next =>
        have hexec := nextProducerIdx_exec m hnext
        cases hget : getSlot m.header m.header.producerIdx rb.slotSize with
        | error e =>
          -- The index is advanced before `get_slot` panics.
          have hget' : getSlot (m.setProducerIdx next).header m.header.producerIdx rb.slotSize =
            .error e := hget
          exact Or.inl ⟨e, _, by simp [tryClaim, hav, hpos, hexec, hget']; rfl,
            hexchange (.last (by simp [writeStep, hnext, hget]; rfl) rfl rfl)⟩
        | ok slot =>
          obtain ⟨hidx, -⟩ := getSlot_ok hget
          have hget' : getSlot (m.setProducerIdx next).header m.header.producerIdx rb.slotSize =
            .ok slot := hget
          have hclaimed : (writeStep rb w call m false
              (.compareExchange attempts m.header.producerIdx) : Effect W R WritePc) =
              ⟨m.setProducerIdx next, some (.checkEmpty attempts m.header.producerIdx),
                [.claimed w call m.header.producerIdx]⟩ := by
            simp [writeStep, hnext, hget, hidx]
          have hclaim : ∀ {r}, WriteEnds R rb w call (m.setProducerIdx next)
              (.checkEmpty attempts m.header.producerIdx) r →
              WriteEnds R rb w call m (.loadProducerIdx attempts) r := fun h =>
            hexchange (.next hclaimed rfl rfl h)
          cases hslot : (m.slots m.header.producerIdx).available with
          | true =>
            -- The function resets the slot, which is the beginning of the thread's program.
            refine Or.inr (Or.inr ⟨m.header.producerIdx, (m.setProducerIdx next).setSlot
                m.header.producerIdx (m.slots m.header.producerIdx).reset,
              by simp [tryClaim, hav, hpos, hexec, hget', hidx, hslot], ⟨slot, hget⟩,
              hclaim (.check ?_)⟩)
            simp [hslot, Slot.reset, WriteCall.program, Slot.storeAll_append]
          | false =>
            exact Or.inr (Or.inl ⟨_, by simp [tryClaim, hav, hpos, hexec, hget', hidx, hslot]; rfl,
              fun r h => hclaim (.check (by simpa [hslot] using h))⟩)
    · -- No slot is available, and the attempt ends without a claim.
      exact Or.inr (Or.inl ⟨m, by simp [tryClaim, hav, hpos], fun r h =>
        .next rfl rfl rfl (.nextAttempt (by simp only [writeStep, hav, hpos, if_false]) h)⟩)

/-- The loop of `wait_for_slot` ends as that of the function does, and a call that gets a slot fills
it. -/
theorem WriteEnds.loop (R : Type) (rb : RingBuffer) (w : W) (call : WriteCall) (attempts : ℕ) :
    ∀ m : RingMemory,
    (∃ e m', (waitForSlotLoop rb attempts).exec m = (.error e, m') ∧
      WriteEnds R rb w call m (.loadProducerIdx attempts) (.error e, m')) ∨
    (∃ idx m', (waitForSlotLoop rb attempts).exec m = (.ok idx, m') ∧
      (∃ slot, getSlot m'.header idx rb.slotSize = .ok slot) ∧
      WriteEnds R rb w call m (.loadProducerIdx attempts)
        (.ok idx, m'.setSlot idx ((m'.slots idx).storeAll call.stores))) := by
  induction attempts with
  | zero =>
    intro m
    rcases attempt R rb w call m 0 with
      ⟨e, m', hexec, hends⟩ | ⟨m', hexec, hends⟩ | ⟨idx, m', hexec, hslot, hends⟩
    · exact Or.inl ⟨e, m', by simp [waitForSlotLoop, hexec], hends⟩
    · exact Or.inl ⟨_, m', by simp [waitForSlotLoop, hexec], hends _ rfl⟩
    · exact Or.inr ⟨idx, m', by simp [waitForSlotLoop, hexec], hslot, hends⟩
  | succ attempts ih =>
    intro m
    rcases attempt R rb w call m (attempts + 1) with
      ⟨e, m', hexec, hends⟩ | ⟨m', hexec, hends⟩ | ⟨idx, m', hexec, hslot, hends⟩
    · exact Or.inl ⟨e, m', by simp [waitForSlotLoop, hexec], hends⟩
    · rcases ih m' with ⟨e, m'', hexec', hends'⟩ | ⟨idx, m'', hexec', hslot, hends'⟩
      · exact Or.inl ⟨e, m'', by simp [waitForSlotLoop, hexec, hexec'], hends _ hends'⟩
      · exact Or.inr ⟨idx, m'', by simp [waitForSlotLoop, hexec, hexec'], hslot,
          hends _ hends'⟩
    · exact Or.inr ⟨idx, m', by simp [waitForSlotLoop, hexec], hslot, hends⟩

/-- A call of `write` whose payload fits ends as the function does. -/
theorem WriteEnds.write {limit : ℕ} (hlimit : maxPayloadSize rb = .ok limit)
    (hl : ¬ call.data.length > limit) (m : RingMemory) :
    WriteEnds R rb w call m (.loadProducerIdx maxAttempts) ((Ring.write rb call).exec m) := by
  rcases loop R rb w call maxAttempts m with
    ⟨e, m', hexec, hends⟩ | ⟨idx, m', hexec, hslot, hends⟩
  · have hwrite : (Ring.write rb call).exec m = (.error e, m') := by
      simp only [Ring.write, RingM.exec_bind, RingM.exec_liftExcept, hlimit, hl, if_false,
        waitForSlot, hexec]
    rw [hwrite]
    exact hends
  · obtain ⟨slot, hget⟩ := hslot
    obtain ⟨rfl, -⟩ := getSlot_ok hget
    have hdata : ¬ call.data.length > rb.slotSize - sizeOfSlotMetadata := by
      rw [← (subUsize_eq_ok hlimit).2]
      exact hl
    have hwrite : (Ring.write rb call).exec m =
        (.ok idx, m'.setSlot idx ((m'.slots idx).storeAll call.stores)) := by
      simp only [Ring.write, RingM.exec_bind, RingM.exec_liftExcept, hlimit, hl, if_false,
        waitForSlot, hexec, RingM.exec_get, hget, RingM.exec_set, Slot.writeData, hdata,
        RingM.exec_pure, RingM.exec_modify, RingMemory.setSlot_setSlot, ← Slot.storeAll_append]
      rfl
    rw [hwrite]
    exact hends

end

/-! ## `read` -/

section
variable {W R : Type} {rb : RingBuffer} {r : R}

/-- The last step. -/
theorem ReadEnds.last {m m' : RingMemory} {pc : ReadPc} {es : List (Event W R)}
    {result : Except Fault (Option Message)} (h : readStep rb r m false pc = ⟨m', none, es⟩)
    (hdels : readMessages es = readResult result) : ReadEnds W rb r m pc (result, m') := by
  have hoks := (readStep_events (W := W) rb r m false pc).1.okReturns
  rw [h] at hoks
  refine ⟨deliveries es, ?_, hdels⟩
  rw [← hoks]
  exact .last h

/-- A step before it. -/
theorem ReadEnds.next {m m' : RingMemory} {pc pc' : ReadPc} {es : List (Event W R)}
    {result : Except Fault (Option Message) × RingMemory}
    (h : readStep rb r m false pc = ⟨m', some pc', es⟩) (hdels : deliveries es = [])
    (hrest : ReadEnds W rb r m' pc' result) : ReadEnds W rb r m pc result := by
  have hoks := (readStep_events (W := W) rb r m false pc).1.okReturns
  rw [h] at hoks
  obtain ⟨dels, halone, hmap⟩ := hrest
  exact ⟨dels, .next h hoks hdels halone, hmap⟩

/-- The stores of `reset`. -/
theorem ReadEnds.resetting (rest : List Store) : ∀ (m : RingMemory) (idx : ℕ) (st : Store),
    ReadEnds W rb r m (.resetting idx st rest)
      (.ok none, m.setSlot idx ((m.slots idx).storeAll (st :: rest))) := by
  induction rest with
  | nil => exact fun m idx st => .last rfl rfl
  | cons st' rest ih =>
    intro m idx st
    have hrest := ih (m.setSlot idx ((m.slots idx).store st)) idx st'
    rw [RingMemory.setSlot_slots, Function.update_self, RingMemory.setSlot_setSlot] at hrest
    exact .next rfl rfl hrest

/-- A call that resets its slot. -/
theorem ReadEnds.skip {m m' : RingMemory} {pc : ReadPc} {idx : ℕ}
    (h : readStep rb r m false pc =
      (⟨m', ReadPc.ofStores idx Slot.resetStores, []⟩ : Effect W R ReadPc)) :
    ReadEnds W rb r m pc (.ok none, m'.setSlot idx (m'.slots idx).reset) :=
  .next h rfl (.resetting _ m' idx (.status .empty))

/-- A call that finds its slot `Ready` returns its message, or resets it when the size is out of
bounds. -/
theorem ReadEnds.ready {m : RingMemory} {idx : ℕ} (hready : (m.slots idx).getStatus = .ready) :
    ReadEnds W rb r m (.loadOperation idx)
      (if (m.slots idx).size > rb.payloadSize then
        (.ok none, m.setSlot idx (m.slots idx).reset)
      else
        (.ok (some ⟨(m.slots idx).getOperation, (m.slots idx).data.take (m.slots idx).size⟩),
          (m.setSlot idx ((m.slots idx).store (.status .complete))).incrementCompleted)) := by
  refine .next rfl rfl (.next (by simp only [readStep, hready, if_true]; rfl) rfl
    (.next rfl rfl ?_))
  generalize hm : m.setSlot idx ((m.slots idx).store (.status .reading)) = m'
  have hslot : m'.slots idx = (m.slots idx).store (.status .reading) := by
    rw [← hm]
    exact Function.update_self _ _ _
  have hsize' : (m'.slots idx).size = (m.slots idx).size := by
    rw [hslot]
    rfl
  have hcomplete : m'.setSlot idx ((m'.slots idx).store (.status .complete)) =
      m.setSlot idx ((m.slots idx).store (.status .complete)) := by
    rw [hslot, ← hm, RingMemory.setSlot_setSlot]
    rfl
  by_cases hsize : (m.slots idx).size > rb.payloadSize
  · -- `read_data` stores `Complete` before the call resets the slot.
    have hskip : ReadEnds W rb r m' (.storeComplete idx (m.slots idx).getOperation none) _ :=
      .skip rfl
    rw [hcomplete, RingMemory.setSlot_slots, Function.update_self, RingMemory.setSlot_setSlot,
      Slot.reset_store_status] at hskip
    rw [if_pos hsize]
    exact .next (by simp only [readStep, hsize', hsize, if_true]; rfl) rfl hskip
  · have hdata : (m.slots idx).data = (m'.slots idx).data := by
      rw [hslot]
      rfl
    rw [if_neg hsize, ← hcomplete, hdata]
    exact .next (by simp only [readStep, hsize', hsize, if_false]; rfl) rfl
      (.next rfl rfl (.next rfl rfl (.last rfl rfl)))

/-- A call of `read` ends as the function does. -/
theorem ReadEnds.read (W : Type) (rb : RingBuffer) (r : R) (m : RingMemory) :
    ReadEnds W rb r m .loadProducerIdx ((Ring.read rb).exec m) := by
  by_cases hidx : m.header.producerIdx = m.header.consumerIdx
  · rw [read_empty hidx]
    exact .next rfl rfl (.last (by simp only [readStep, hidx, if_true]; rfl) rfl)
  · -- The call goes on to the compare-exchange, which succeeds.
    have hexchange : ∀ {result}, ReadEnds W rb r m (.compareExchange m.header.consumerIdx) result →
        ReadEnds W rb r m .loadProducerIdx result := fun h =>
      .next rfl rfl (.next (by simp only [readStep, hidx, if_false]; rfl) rfl (.next rfl rfl h))
    refine hexchange ?_
    cases hnext : nextIdx m.header.consumerIdx m.header.slotCount with
    | error e =>
      -- The ring has no slot, or the consumer index is the last `usize`.
      have hread : (Ring.read rb).exec m = (.error e, m) := by
        simp [Ring.read, hidx, nextConsumerIdx, hnext]
      rw [hread]
      exact .last (by simp only [readStep, hnext]; rfl) rfl
    | ok next =>
      cases hget : getSlot m.header m.header.consumerIdx rb.slotSize with
      | error e =>
        -- The index is advanced before `get_slot` panics.
        have hexec := nextConsumerIdx_exec m hnext
        have hget' : getSlot (m.setConsumerIdx next).header m.header.consumerIdx rb.slotSize =
          .error e := hget
        have hread : (Ring.read rb).exec m = (.error e, m.setConsumerIdx next) := by
          simp [Ring.read, hidx, hexec, hget']
        rw [hread]
        exact .last (by simp only [readStep, hnext, and_self, if_true, hget]; rfl) rfl
      | ok slot =>
        obtain ⟨hslot, -⟩ := getSlot_ok hget
        refine .next (by simp only [readStep, hnext, and_self, if_true, hget, hslot]; rfl) rfl ?_
        obtain rfl : next = (m.header.consumerIdx + 1) % m.header.slotCount :=
          Except.ok.inj (hnext.symm.trans (nextIdx_of_getSlot hget))
        by_cases hready : (m.slots m.header.consumerIdx).getStatus = .ready
        · -- The slot is read, or reset when its size is out of bounds.
          generalize hpassed : m.setConsumerIdx
            ((m.header.consumerIdx + 1) % m.header.slotCount) = m'
          have hslots : m'.slots = m.slots := by rw [← hpassed, RingMemory.setConsumerIdx_slots]
          have hends : ReadEnds W rb r m' (.loadOperation m.header.consumerIdx) _ :=
            .ready (by rw [hslots]; exact hready)
          refine .next (by simp only [readStep, hslots, hready, if_true]; rfl) rfl ?_
          rw [hslots] at hends
          by_cases hsize : (m.slots m.header.consumerIdx).size > rb.payloadSize
          · rw [read_skip hget hidx (Or.inr hsize), hpassed]
            rw [if_pos hsize] at hends
            exact hends
          · rw [read_ready hget hidx hready (Nat.not_lt.mp hsize), hpassed]
            rw [if_neg hsize] at hends
            exact hends
        · rw [read_skip hget hidx (Or.inl hready)]
          exact .skip (by simp only [readStep, RingMemory.setConsumerIdx_slots, hready, if_false])

end

/-! ## Runs of a system -/

/-- A step of `write` keeps the slot size. -/
theorem writeStep_slotSize {W R : Type} (rb : RingBuffer) (w : W) (call : WriteCall)
    (m : RingMemory) (spurious : Bool) (pc : WritePc) :
    (writeStep rb w call m spurious pc : Effect W R WritePc).memory.header.slotSize =
      m.header.slotSize := by
  have hnext : ∀ attempts, (Ring.nextAttempt w call m attempts :
      Effect W R WritePc).memory.header.slotSize = m.header.slotSize := by
    intro attempts
    cases attempts <;> rfl
  cases pc with
  | loadProducerIdx attempts => rfl
  | loadConsumerIdx attempts producerIdx =>
    simp only [writeStep]
    split
    · split
      · rfl
      · exact hnext attempts
    · rfl
  | loadCurrent attempts => rfl
  | compareExchange attempts current =>
    simp only [writeStep]
    split
    · split
      · split <;> rfl
      · rfl
    · rfl
  | checkEmpty attempts idx =>
    simp only [writeStep]
    split <;> rfl
  | checkComplete attempts idx =>
    simp only [writeStep]
    split
    · rfl
    · exact hnext attempts
  | storing idx st rest => rfl

/-- A step of `read` keeps the slot size. -/
theorem readStep_slotSize {W R : Type} (rb : RingBuffer) (r : R) (m : RingMemory)
    (spurious : Bool) (pc : ReadPc) :
    (readStep rb r m spurious pc : Effect W R ReadPc).memory.header.slotSize =
      m.header.slotSize := by
  cases pc with
  | loadProducerIdx | loadCurrent | loadOperation | storeReading | copy | increment | resetting =>
    rfl
  | loadConsumerIdx producerIdx =>
    simp only [readStep]
    split <;> rfl
  | compareExchange current =>
    simp only [readStep]
    split
    · split
      · split <;> rfl
      · rfl
    · rfl
  | checkReady | recheckReady | loadSize =>
    simp only [readStep]
    split <;> rfl
  | storeComplete idx kind data => cases data <;> rfl

/-- The two functions depend on the handle through its slot size only. -/
theorem waitForSlotLoop_congr {rb rb' : RingBuffer} (h : rb'.slotSize = rb.slotSize)
    (attempts : ℕ) : waitForSlotLoop rb' attempts = waitForSlotLoop rb attempts := by
  have hclaim : tryClaim rb' = tryClaim rb := by simp only [tryClaim, h]
  induction attempts with
  | zero => simp only [waitForSlotLoop, hclaim]
  | succ attempts ih => simp only [waitForSlotLoop, hclaim, ih]

/-- `write` through another handle. -/
theorem write_congr {rb rb' : RingBuffer} (h : rb'.slotSize = rb.slotSize) (call : WriteCall) :
    write rb' call = write rb call := by
  simp only [write, maxPayloadSize, waitForSlot, waitForSlotLoop_congr h, h]

/-- `read` through another handle. -/
theorem read_congr {rb rb' : RingBuffer} (h : rb'.slotSize = rb.slotSize) : read rb' = read rb := by
  simp only [read, h]

section
variable {W R : Type} [DecidableEq W] [DecidableEq R] {rb : RingBuffer}

/-- A thread that is in a call of `write` finishes it alone. -/
theorem Alone.reaches_write {w : W} {call : WriteCall} {m m' : RingMemory} {pc : WritePc}
    {oks : List (W × WriteCall × ℕ)} {dels : List (ℕ × Message)}
    (h : Alone (fun m pc => (writeStep rb w call m false pc : Effect W R WritePc)) m pc oks dels
      m') : ∀ s : System W R, s.memory = m → s.writer w = some (call, pc) →
      ∃ es, okReturns es = oks ∧ deliveries es = dels ∧ Reaches (System.step rb) Always s
        ⟨m', Function.update s.writer w none, s.reader, s.history ++ es⟩ := by
  induction h with
  | @last m m' pc es h =>
    rintro s rfl hw
    exact ⟨es, rfl, rfl, System.reaches_stepWrite hw h⟩
  | @next m m' m'' pc pc' es oks dels h hoks hdels hrest ih =>
    rintro s rfl hw
    obtain ⟨es', rfl, rfl, hrun⟩ := ih (s.afterWrite w call ⟨m', some pc', es⟩) rfl
      (Function.update_self _ _ _)
    refine ⟨es ++ es', by simp [hoks], by simp [hdels], ?_⟩
    have hall := (System.reaches_stepWrite hw h).trans hrun
    simpa [System.afterWrite] using hall

/-- A thread that is in a call of `read` finishes it alone. -/
theorem Alone.reaches_read {r : R} {m m' : RingMemory} {pc : ReadPc}
    {oks : List (W × WriteCall × ℕ)} {dels : List (ℕ × Message)}
    (h : Alone (fun m pc => (readStep rb r m false pc : Effect W R ReadPc)) m pc oks dels m') :
    ∀ s : System W R, s.memory = m → s.reader r = some pc →
      ∃ es, okReturns es = oks ∧ deliveries es = dels ∧ Reaches (System.step rb) Always s
        ⟨m', s.writer, Function.update s.reader r none, s.history ++ es⟩ := by
  induction h with
  | @last m m' pc es h =>
    rintro s rfl hr
    exact ⟨es, rfl, rfl, System.reaches_stepRead hr h⟩
  | @next m m' m'' pc pc' es oks dels h hoks hdels hrest ih =>
    rintro s rfl hr
    obtain ⟨es', rfl, rfl, hrun⟩ := ih (s.afterRead r ⟨m', some pc', es⟩) rfl
      (Function.update_self _ _ _)
    refine ⟨es ++ es', by simp [hoks], by simp [hdels], ?_⟩
    have hall := (System.reaches_stepRead hr h).trans hrun
    simpa [System.afterRead] using hall

/-- A call of `write` by a thread that runs alone, whatever the other threads are in the middle of,
leaves the memory that the function leaves and returns what it returns. -/
theorem write_solo (rb : RingBuffer) {s : System W R} {w : W} (hidle : s.writer w = none)
    (call : WriteCall) :
    ∃ es, Reaches (System.step rb) Always s
        ⟨((write rb call).exec s.memory).2, s.writer, s.reader, s.history ++ es⟩ ∧
      okReturns es = okResult w call ((write rb call).exec s.memory).1 ∧ deliveries es = [] := by
  have hfirst := System.reaches_callWrite rb hidle call
  have hnone : Function.update s.writer w none = s.writer := by
    rw [← hidle, Function.update_eq_self]
  -- The call fails at once, or passes the length check.
  cases hlimit : maxPayloadSize rb with
  | error e =>
    have hexec : (write rb call).exec s.memory = (.error e, s.memory) := by
      simp [write, hlimit]
    rw [hexec]
    refine ⟨[.writeCalled w call, .writeReturned w call (.error e)], ?_, rfl, rfl⟩
    simpa [System.afterWrite, writeCall, hlimit, hnone] using hfirst
  | ok limit =>
    by_cases hl : call.data.length > limit
    · have hexec : (write rb call).exec s.memory = (.error (.err .dataTooLarge), s.memory) := by
        simp [write, hlimit, hl]
      rw [hexec]
      refine ⟨[.writeCalled w call, .writeReturned w call (.error (.err .dataTooLarge))], ?_, rfl,
        rfl⟩
      simpa [System.afterWrite, writeCall, hlimit, hl, hnone] using hfirst
    · obtain ⟨es, hoks, hdels, hrun⟩ := (WriteEnds.write (R := R) (w := w) hlimit hl
        s.memory).reaches_write (s.afterWrite w call (writeCall rb w call s.memory))
        (by simp [System.afterWrite, writeCall, hlimit, hl])
        (by simp [System.afterWrite, writeCall, hlimit, hl])
      refine ⟨.writeCalled w call :: es, ?_, hoks, hdels⟩
      have hall := hfirst.trans hrun
      simpa [System.afterWrite, writeCall, hlimit, hl, hnone] using hall

/-- A call of `read` by a thread that runs alone, whatever the other threads are in the middle of,
leaves the memory that the function leaves and returns what it returns. -/
theorem read_solo (rb : RingBuffer) {s : System W R} {r : R} (hidle : s.reader r = none) :
    ∃ es, Reaches (System.step rb) Always s
        ⟨((read rb).exec s.memory).2, s.writer, s.reader, s.history ++ es⟩ ∧
      okReturns es = [] ∧ readMessages es = readResult ((read rb).exec s.memory).1 := by
  have hfirst := System.reaches_callRead rb hidle
  have hnone : Function.update s.reader r none = s.reader := by
    rw [← hidle, Function.update_eq_self]
  obtain ⟨dels, halone, hmap⟩ := ReadEnds.read W rb r s.memory
  obtain ⟨es, hoks, hdels, hrun⟩ := halone.reaches_read
    (s.afterRead r ⟨s.memory, some .loadProducerIdx, [.readCalled r]⟩) rfl
    (Function.update_self _ _ _)
  refine ⟨.readCalled r :: es, ?_, hoks, ?_⟩
  · have hall := hfirst.trans hrun
    simpa [System.afterRead, hnone] using hall
  · rw [← hmap, ← hdels]
    rfl

/-- Every run keeps the slot size. -/
theorem slotSize_of_reaches {m : RingMemory} {s : System W R}
    (h : Reaches (System.step rb) Always (System.start m) s) :
    s.memory.header.slotSize = m.header.slotSize := by
  refine h.invariant (I := fun s => s.memory.header.slotSize = m.header.slotSize) rfl ?_
  intro t a t' ht _ hstep
  rcases System.step_cases hstep with ⟨w, call, -, -, rfl⟩ | ⟨w, spurious, call, pc, -, -, rfl⟩ |
    ⟨r, -, -, rfl⟩ | ⟨r, spurious, pc, -, -, rfl⟩
  · -- The start of a call changes no memory.
    refine Eq.trans ?_ ht
    simp only [System.afterWrite, writeCall]
    split
    · split <;> rfl
    · rfl
  · exact (writeStep_slotSize rb w call t.memory spurious pc).trans ht
  · exact ht
  · exact (readStep_slotSize rb r t.memory spurious pc).trans ht

end

/-- A run of a system with one thread that writes and one that reads has come to where the session
is: no call is in progress, the memory is the same, and so are the messages. -/
structure Follows (m : RingMemory) (rb : RingBuffer) (s : Session) (t : System Unit Unit) :
    Prop where
  /-- The run. -/
  run : Reaches (System.step rb) Always (System.start m) t
  /-- The memory is the same. -/
  memory : t.memory = s.memory
  /-- No `write` is in progress. -/
  writer : t.writer () = none
  /-- No `read` is in progress. -/
  reader : t.reader () = none
  /-- The writes have returned `Ok` for the same messages. -/
  accepted : okMessages t.history = accepted s.history
  /-- The reads have returned the same messages. -/
  delivered : readMessages t.history = delivered s.history

/-- The run goes on as the session does. -/
theorem Follows.step {m : RingMemory} {rb : RingBuffer} {s s' : Session} {t : System Unit Unit}
    {c : Call} (h : Follows m rb s t) (hh : Session.Handles rb s) (hstep : s.step c = some s') :
    ∃ t', Follows m rb s' t' := by
  rcases Session.step_cases hh hstep with ⟨options, rfl, -, hm, hhist⟩ |
    ⟨handle, call, rb', rfl, -, hslot, -, hm, hhist⟩ | ⟨handle, rb', rfl, -, hslot, -, hm, hhist⟩
  · -- `open` is no step of a thread.
    exact ⟨t, h.run, h.memory.trans hm.symm, h.writer, h.reader, by rw [hhist, h.accepted],
      by rw [hhist, h.delivered]⟩
  · -- The writing thread makes the call, alone.
    rw [write_congr hslot] at hm hhist
    obtain ⟨es, hrun, hoks, hdels⟩ := write_solo rb h.writer call
    rw [h.memory] at hrun hoks
    refine ⟨_, h.run.trans hrun, hm.symm, h.writer, h.reader, ?_, ?_⟩
    · show okMessages (t.history ++ es) = _
      rw [hhist, okMessages, okReturns_append, List.map_append, ← okMessages, h.accepted, hoks]
      cases ((write rb call).exec s.memory).1 <;> simp [okResult]
    · show readMessages (t.history ++ es) = _
      rw [hhist, readMessages, deliveries_append, hdels, List.append_nil, ← readMessages,
        h.delivered, delivered_wrote]
  · -- So does the reading thread.
    rw [read_congr hslot] at hm hhist
    obtain ⟨es, hrun, hoks, hdels⟩ := read_solo rb h.reader
    rw [h.memory] at hrun hdels
    refine ⟨_, h.run.trans hrun, hm.symm, h.writer, h.reader, ?_, ?_⟩
    · show okMessages (t.history ++ es) = _
      rw [hhist, okMessages, okReturns_append, hoks, List.append_nil, ← okMessages, h.accepted,
        accepted_read]
    · show readMessages (t.history ++ es) = _
      rw [hhist, readMessages, deliveries_append, List.map_append, ← readMessages, ← readMessages,
        h.delivered, hdels]
      rcases ((read rb).exec s.memory).1 with e | _ | msg <;> simp [readResult]

/-- Every session of a created ring is a run of a system with one thread that writes and one that
reads. -/
theorem session_reaches {options : RingBufferOptions} {m : RingMemory} {rb : RingBuffer}
    {s : Session} (hc : Created options m rb)
    (hrun : Reaches Session.step Always (Session.start m rb) s) :
    ∃ t : System Unit Unit, Follows m rb s t := by
  have hstart : Session.Handles rb (Session.start m rb) ∧
      ∃ t, Follows m rb (Session.start m rb) t :=
    ⟨.start hc.fresh.1, System.start m, Reaches.refl _, rfl, rfl, rfl, rfl, rfl⟩
  refine (hrun.invariant (I := fun s => Session.Handles rb s ∧ ∃ t, Follows m rb s t)
    hstart ?_).2
  rintro s c s' ⟨hh, t, ht⟩ - hstep
  obtain ⟨t', ht'⟩ := ht.step hh hstep
  refine ⟨?_, t', ht'⟩
  have hheader : s'.memory.header.slotSize = rb.slotSize := by
    rw [← ht'.memory, slotSize_of_reaches ht'.run]
    exact hstart.1.header
  rcases Session.step_cases hh hstep with ⟨-, -, hh', -, -⟩ | ⟨-, -, -, -, -, -, hhs, -, -⟩ |
    ⟨-, -, -, -, -, hhs, -, -⟩
  · exact hh'
  · exact ⟨hheader, by rw [hhs]; exact hh.handles⟩
  · exact ⟨hheader, by rw [hhs]; exact hh.handles⟩

end Elgate.Ring
