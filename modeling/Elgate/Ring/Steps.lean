import Elgate.Ring.Machine

/-!
# The steps of the threads

What a step of a thread can do, as far as the slots are concerned. A step of `write` takes the slot
that it has claimed, or it stores to the slot that it has taken, or it does neither and changes at
most the producer index (`writeStep_cases`). The stores that a call has left to do are always the
last ones of the code (`System.WellFormed`).
-/

namespace Elgate.Ring

open Transition

/-! ## The steps of `write` -/

/-- The slot that the call stores to. -/
def WritePc.slot : WritePc → Option ℕ
  | .storing idx _ _ => some idx
  | _ => none

/-- The slot that the step takes, if it is a check that finds the claimed slot available. -/
def WritePc.accepts (m : RingMemory) : WritePc → Option ℕ
  | .checkEmpty _ idx => if (m.slots idx).getStatus = .empty then some idx else none
  | .checkComplete _ idx => if (m.slots idx).getStatus = .complete then some idx else none
  | _ => none

/-- An exchange that expects the index of a slot claims that slot, or it fails with the index that
it finds. -/
theorem writeStep_compareExchange {W R : Type} {rb : RingBuffer} {m : RingMemory} {attempts : ℕ}
    {current : ℕ} (hfits : SlotsFit rb.slotSize m.header.slotCount)
    (hcurrent : current < m.header.slotCount) (w : W) (call : WriteCall) (spurious : Bool) :
    (writeStep rb w call m spurious (.compareExchange attempts current) : Effect W R WritePc) =
      if m.header.producerIdx = current ∧ spurious = false then
        ⟨m.setProducerIdx ((current + 1) % m.header.slotCount), some (.checkEmpty attempts current),
          [.claimed w call current]⟩
      else ⟨m, some (.compareExchange attempts m.header.producerIdx), []⟩ := by
  simp only [writeStep, hfits.nextIdx_eq rfl hcurrent, hfits.getSlot_eq rfl hcurrent]

/-- A slot that is taken is `Empty` or `Complete`. -/
theorem WritePc.getStatus_of_accepts {m : RingMemory} {idx : ℕ} {pc : WritePc}
    (h : pc.accepts m = some idx) :
    (m.slots idx).getStatus = .empty ∨ (m.slots idx).getStatus = .complete := by
  cases pc with
  | checkEmpty attempts i =>
    simp only [accepts, Option.ite_none_right_eq_some, Option.some.injEq] at h
    obtain ⟨hstatus, rfl⟩ := h
    exact Or.inl hstatus
  | checkComplete attempts i =>
    simp only [accepts, Option.ite_none_right_eq_some, Option.some.injEq] at h
    obtain ⟨hstatus, rfl⟩ := h
    exact Or.inr hstatus
  | loadProducerIdx | loadConsumerIdx | loadCurrent | compareExchange | storing => cases h

@[simp]
theorem WritePc.ofStores_eq_some {idx : ℕ} {stores : List Store} {pc : WritePc} :
    WritePc.ofStores idx stores = some pc ↔
      ∃ st rest, stores = st :: rest ∧ pc = .storing idx st rest := by
  cases stores with
  | nil => simp [WritePc.ofStores]
  | cons st rest => simp [WritePc.ofStores, eq_comm]

@[simp]
theorem ReadPc.ofStores_eq_some {idx : ℕ} {stores : List Store} {pc : ReadPc} :
    ReadPc.ofStores idx stores = some pc ↔
      ∃ st rest, stores = st :: rest ∧ pc = .resetting idx st rest := by
  cases stores with
  | nil => simp [ReadPc.ofStores]
  | cons st rest => simp [ReadPc.ofStores, eq_comm]

/-- What a step of `write` leaves when it is neither a store nor the check that takes the slot. -/
structure Effect.Private {W R : Type} (m : RingMemory) (e : Effect W R WritePc) : Prop where
  /-- The slots are the same. -/
  slots : e.memory.slots = m.slots
  /-- So is the number of slots. -/
  slotCount : e.memory.header.slotCount = m.header.slotCount
  /-- So is the consumer index. -/
  consumerIdx : e.memory.header.consumerIdx = m.header.consumerIdx
  /-- So is the number of completed operations. -/
  operationsCompleted : e.memory.header.operationsCompleted = m.header.operationsCompleted
  /-- The call does not store to a slot next. -/
  pc : ∀ pc ∈ e.pc, pc.slot = none
  /-- The step is no store, and no event of a read. -/
  events : ∀ ev ∈ e.events, (∃ w call, ev = .writeCalled w call) ∨
    (∃ w call idx, ev = .claimed w call idx) ∨ ∃ w call e, ev = .writeReturned w call (.error e)

/-- The end of an attempt. -/
theorem nextAttempt_private {W R : Type} (w : W) (call : WriteCall) (m : RingMemory)
    (attempts : ℕ) : (nextAttempt w call m attempts : Effect W R WritePc).Private m := by
  cases attempts with
  | zero => exact ⟨rfl, rfl, rfl, rfl, by simp [nextAttempt], by simp [nextAttempt]⟩
  | succ attempts =>
    exact ⟨rfl, rfl, rfl, rfl, by simp [nextAttempt, WritePc.slot], by simp [nextAttempt]⟩

/-- The start of a call. -/
theorem writeCall_private {W R : Type} (rb : RingBuffer) (w : W) (call : WriteCall)
    (m : RingMemory) : (writeCall rb w call m : Effect W R WritePc).Private m := by
  unfold writeCall
  split
  · split
    · exact ⟨rfl, rfl, rfl, rfl, by simp, by simp⟩
    · exact ⟨rfl, rfl, rfl, rfl, by simp [WritePc.slot], by simp⟩
  · exact ⟨rfl, rfl, rfl, rfl, by simp, by simp⟩

/-- The start of a call is recorded first. -/
theorem calls_writeCall {W R : Type} (rb : RingBuffer) (w : W) (call : WriteCall)
    (m : RingMemory) : calls (writeCall rb w call m : Effect W R WritePc).events = [(w, call)] := by
  unfold writeCall
  split
  · split <;> rfl
  · rfl

/-- A step of `write` is a store, the check that takes the slot, or private to the call but for the
producer index. -/
theorem writeStep_cases {W R : Type} (rb : RingBuffer) (w : W) (call : WriteCall)
    (m : RingMemory) (spurious : Bool) (pc : WritePc) :
    (∃ idx st rest, pc = .storing idx st rest) ∨
    (∃ idx, pc.accepts m = some idx ∧ (writeStep rb w call m spurious pc : Effect W R WritePc) =
      ⟨m, WritePc.ofStores idx call.program, []⟩) ∨
    (pc.slot = none ∧ (writeStep rb w call m spurious pc : Effect W R WritePc).Private m) := by
  cases pc with
  | loadProducerIdx attempts =>
    exact Or.inr (Or.inr ⟨rfl, rfl, rfl, rfl, rfl, by simp [writeStep, WritePc.slot],
      by simp [writeStep]⟩)
  | loadConsumerIdx attempts producerIdx =>
    -- A ring that seems full ends the attempt.
    refine Or.inr (Or.inr ⟨rfl, ?_⟩)
    simp only [writeStep]
    split
    · split
      · exact ⟨rfl, rfl, rfl, rfl, by simp [WritePc.slot], by simp⟩
      · exact nextAttempt_private w call m attempts
    · exact ⟨rfl, rfl, rfl, rfl, by simp, by simp⟩
  | loadCurrent attempts =>
    exact Or.inr (Or.inr ⟨rfl, rfl, rfl, rfl, rfl, by simp [writeStep, WritePc.slot],
      by simp [writeStep]⟩)
  | compareExchange attempts current =>
    refine Or.inr (Or.inr ⟨rfl, ?_⟩)
    simp only [writeStep]
    split
    · split
      · split
        · exact ⟨rfl, rfl, rfl, rfl, by simp [WritePc.slot], by simp⟩
        · exact ⟨rfl, rfl, rfl, rfl, by simp, by simp⟩
      · exact ⟨rfl, rfl, rfl, rfl, by simp [WritePc.slot], by simp⟩
    · exact ⟨rfl, rfl, rfl, rfl, by simp, by simp⟩
  | checkEmpty attempts idx =>
    by_cases hstatus : (m.slots idx).getStatus = .empty
    · exact Or.inr (Or.inl ⟨idx, by simp [WritePc.accepts, hstatus], by simp [writeStep, hstatus]⟩)
    · refine Or.inr (Or.inr ⟨rfl, ?_⟩)
      rw [writeStep, if_neg hstatus]
      exact ⟨rfl, rfl, rfl, rfl, by simp [WritePc.slot], by simp⟩
  | checkComplete attempts idx =>
    by_cases hstatus : (m.slots idx).getStatus = .complete
    · exact Or.inr (Or.inl ⟨idx, by simp [WritePc.accepts, hstatus], by simp [writeStep, hstatus]⟩)
    · refine Or.inr (Or.inr ⟨rfl, ?_⟩)
      rw [writeStep, if_neg hstatus]
      exact nextAttempt_private w call m attempts
  | storing idx st rest => exact Or.inl ⟨idx, st, rest, rfl⟩

namespace Effect.Private

variable {W R : Type} {m : RingMemory} {e : Effect W R WritePc}

/-- No `Ready` is stored. -/
theorem readyStores_eq (h : e.Private m) : readyStores e.events = [] := by
  refine List.filterMap_eq_nil_iff.mpr fun ev hev => ?_
  rcases h.events ev hev with ⟨w, call, rfl⟩ | ⟨w, call, idx, rfl⟩ | ⟨w, call, e, rfl⟩ <;> rfl

/-- No call returns `Ok`. -/
theorem okReturns_eq (h : e.Private m) : okReturns e.events = [] := by
  refine List.filterMap_eq_nil_iff.mpr fun ev hev => ?_
  rcases h.events ev hev with ⟨w, call, rfl⟩ | ⟨w, call, idx, rfl⟩ | ⟨w, call, e, rfl⟩ <;> rfl

/-- No event is that of a read. -/
theorem delivery_eq (h : e.Private m) : ∀ ev ∈ e.events, ev.delivery = none := by
  intro ev hev
  rcases h.events ev hev with ⟨w, call, rfl⟩ | ⟨w, call, idx, rfl⟩ | ⟨w, call, e, rfl⟩ <;> rfl

/-- Nothing is delivered. -/
theorem deliveries_eq (h : e.Private m) : deliveries e.events = [] :=
  List.filterMap_eq_nil_iff.mpr h.delivery_eq

end Effect.Private

/-- The events of a store by `write`: its `Ready` store, and its return. -/
theorem storeEvents_mem {W R : Type} {w : W} {call : WriteCall} {idx : ℕ} {st : Store}
    {rest : List Store} {ev : Event W R}
    (h : ev ∈ storeEvents w idx st ++ returnEvents w call idx rest) :
    ev = .readyStored w idx ∨ ev = .writeReturned w call (.ok idx) := by
  rcases List.mem_append.mp h with h | h
  · cases st with
    | status status => cases status <;> simp [storeEvents] at h; exact Or.inl h
    | operation | size | id | timestamp | payload => simp [storeEvents] at h
  · cases rest with
    | nil => exact Or.inr (List.mem_singleton.mp h)
    | cons st rest => simp [returnEvents] at h

/-- What is recorded of a store by `write`: the return of the call, if it is the last one. -/
theorem storeEvents_records {W R : Type} (w : W) (call : WriteCall) (idx : ℕ) (st : Store)
    (rest : List Store) :
    let es : List (Event W R) := storeEvents w idx st ++ returnEvents w call idx rest
    calls es = [] ∧ claims es = [] ∧ failures es = [] ∧ passes es = [] ∧ deliveries es = [] ∧
      okReturns es = if rest = [] then [(w, call, idx)] else [] := by
  have hrest : ∀ es : List (Event W R), es = [] ∨ es = [.readyStored w idx] →
      let es' := es ++ returnEvents w call idx rest
      calls es' = [] ∧ claims es' = [] ∧ failures es' = [] ∧ passes es' = [] ∧
        deliveries es' = [] ∧ okReturns es' = if rest = [] then [(w, call, idx)] else [] := by
    rintro es (rfl | rfl) <;> cases rest <;> exact ⟨rfl, rfl, rfl, rfl, rfl, rfl⟩
  refine hrest _ ?_
  cases st with
  | status status => cases status <;> first | exact Or.inl rfl | exact Or.inr rfl
  | operation | size | id | timestamp | payload => exact Or.inl rfl

/-- The status stores of `write`: `Empty`, then `Writing`, and at the end `Ready`. -/
theorem program_status {call : WriteCall} {status : SlotStatus} {rest : List Store}
    (h : .status status :: rest <:+ call.program) :
    (status = .empty ∧ .status .writing ∈ rest) ∨
    (status = .writing ∧ .status .writing ∉ rest ∧ rest ≠ []) ∨ (status = .ready ∧ rest = []) := by
  simp only [WriteCall.program, WriteCall.stores, Slot.resetStores, Slot.setId,
    Slot.writeDataStores, List.cons_append, List.nil_append, List.suffix_cons_iff, List.suffix_nil,
    List.cons.injEq, Store.status.injEq, reduceCtorEq, false_and, or_false, false_or] at h
  rcases h with ⟨rfl, rfl⟩ | ⟨rfl, rfl⟩ | ⟨rfl, rfl⟩ <;> simp

/-- One of the stores of `write` marks the slot. -/
theorem writing_mem_program (call : WriteCall) : .status .writing ∈ call.program := by
  simp [WriteCall.program, WriteCall.stores, Slot.writeDataStores]

/-- The last store of `write` is its only `Ready` store. -/
theorem ready_iff_last {call : WriteCall} {st : Store} {rest : List Store}
    (h : st :: rest <:+ call.program) : st = .status .ready ↔ rest = [] := by
  constructor
  · rintro rfl
    rcases program_status h with ⟨hstatus, -⟩ | ⟨hstatus, -⟩ | ⟨-, hrest⟩
    · cases hstatus
    · cases hstatus
    · exact hrest
  · rintro rfl
    simpa [WriteCall.program, WriteCall.stores, Slot.resetStores, Slot.setId,
      Slot.writeDataStores, List.suffix_cons_iff] using h

/-- The events of a `Ready` store and of the return that follows it. -/
theorem storeEvents_count {W R : Type} (w : W) {call : WriteCall} (idx : ℕ) {st : Store}
    {rest : List Store} (h : st :: rest <:+ call.program) :
    (readyStores (storeEvents w idx st ++ returnEvents w call idx rest :
      List (Event W R))).length =
    (okReturns (storeEvents w idx st ++ returnEvents w call idx rest :
      List (Event W R))).length := by
  by_cases hlast : rest = []
  · subst hlast
    obtain rfl := (ready_iff_last h).mpr rfl
    rfl
  · have hst : storeEvents w idx st = ([] : List (Event W R)) := by
      cases st with
      | status status =>
        cases status <;> first | rfl | exact absurd ((ready_iff_last h).mp rfl) hlast
      | operation | size | id | timestamp | payload => rfl
    obtain ⟨st', rest', rfl⟩ := List.exists_cons_of_ne_nil hlast
    rw [hst]
    rfl

/-! ## The steps of `read` -/

/-- The message that the step returns, and the slot that it has visited. -/
def ReadPc.delivery : ReadPc → Option (ℕ × Message)
  | .increment idx msg => some (idx, msg)
  | _ => none

/-- The step that returns a message. -/
theorem ReadPc.delivery_eq_some {pc : ReadPc} {delivery : ℕ × Message} :
    pc.delivery = some delivery ↔ pc = .increment delivery.1 delivery.2 := by
  cases pc <;> simp [ReadPc.delivery, Prod.ext_iff]

/-- A step of `read` returns a message when it counts the operation, and only then. -/
theorem readStep_events {W R : Type} (rb : RingBuffer) (r : R) (m : RingMemory)
    (spurious : Bool) (pc : ReadPc) :
    let e : Effect W R ReadPc := readStep rb r m spurious pc
    OfRead e.events ∧ deliveries e.events = pc.delivery.toList ∧
      e.memory.header.operationsCompleted =
        (match pc.delivery with
          | some _ => (m.header.operationsCompleted + 1) % 2^64
          | none => m.header.operationsCompleted) := by
  cases pc with
  | loadProducerIdx | loadCurrent | loadOperation | storeReading | copy | increment =>
    exact ⟨⟨rfl, rfl, rfl, rfl, rfl⟩, rfl, rfl⟩
  | loadConsumerIdx | checkReady | recheckReady | loadSize =>
    simp only [readStep]
    split <;> exact ⟨⟨rfl, rfl, rfl, rfl, rfl⟩, rfl, rfl⟩
  | compareExchange current =>
    simp only [readStep, ReadPc.delivery]
    repeat' split
    all_goals exact ⟨⟨rfl, rfl, rfl, rfl, rfl⟩, rfl, rfl⟩
  | storeComplete idx kind data => cases data <;> exact ⟨⟨rfl, rfl, rfl, rfl, rfl⟩, rfl, rfl⟩
  | resetting idx st rest => cases rest <;> exact ⟨⟨rfl, rfl, rfl, rfl, rfl⟩, rfl, rfl⟩

/-- An exchange that expects the index of a slot passes that slot, or it fails with the index that
it finds. -/
theorem readStep_compareExchange {W R : Type} {rb : RingBuffer} {m : RingMemory} {current : ℕ}
    (hfits : SlotsFit rb.slotSize m.header.slotCount) (hcurrent : current < m.header.slotCount)
    (r : R) (spurious : Bool) :
    (readStep rb r m spurious (.compareExchange current) : Effect W R ReadPc) =
      if m.header.consumerIdx = current ∧ spurious = false then
        ⟨m.setConsumerIdx ((current + 1) % m.header.slotCount), some (.checkReady current),
          [.passed r current]⟩
      else ⟨m, some (.compareExchange m.header.consumerIdx), []⟩ := by
  simp only [readStep, hfits.nextIdx_eq rfl hcurrent, hfits.getSlot_eq rfl hcurrent]

/-- The only status that `reset` stores. -/
theorem status_eq_empty_of_mem_resetStores {status : SlotStatus}
    (h : .status status ∈ Slot.resetStores) : status = .empty := by
  simpa [Slot.resetStores, Slot.setId] using h

/-- A store of `reset` leaves the status or makes it `Empty`. -/
theorem getStatus_store_of_mem_resetStores {st : Store} (h : st ∈ Slot.resetStores) (slot : Slot) :
    (slot.store st).getStatus = slot.getStatus ∨ (slot.store st).getStatus = .empty := by
  cases st with
  | status status =>
    rw [Slot.getStatus_store_status]
    exact Or.inr (status_eq_empty_of_mem_resetStores h)
  | operation | size | id | timestamp | payload => exact Or.inl rfl

/-- What the step stores, and to which slot. -/
def ReadPc.store : ReadPc → Option (ℕ × Store)
  | .storeReading idx _ => some (idx, .status .reading)
  | .storeComplete idx _ _ => some (idx, .status .complete)
  | .resetting idx st _ => some (idx, st)
  | _ => none

/-- The steps that store. -/
theorem ReadPc.store_eq_some {pc : ReadPc} {idx : ℕ} {st : Store} (h : pc.store = some (idx, st)) :
    (∃ kind, pc = .storeReading idx kind ∧ st = .status .reading) ∨
    (∃ kind data, pc = .storeComplete idx kind data ∧ st = .status .complete) ∨
    ∃ rest, pc = .resetting idx st rest := by
  cases pc with
  | storeReading i kind =>
    obtain ⟨rfl, rfl⟩ := Prod.mk.inj (Option.some.inj h)
    exact Or.inl ⟨kind, rfl, rfl⟩
  | storeComplete i kind data =>
    obtain ⟨rfl, rfl⟩ := Prod.mk.inj (Option.some.inj h)
    exact Or.inr (Or.inl ⟨kind, data, rfl, rfl⟩)
  | resetting i st' rest =>
    obtain ⟨rfl, rfl⟩ := Prod.mk.inj (Option.some.inj h)
    exact Or.inr (Or.inr ⟨rest, rfl⟩)
  | _ => cases h

/-- A step of `read` changes the slots by its store alone. -/
theorem readStep_slots {W R : Type} (rb : RingBuffer) (r : R) (m : RingMemory)
    (spurious : Bool) (pc : ReadPc) :
    (readStep rb r m spurious pc : Effect W R ReadPc).memory.slots =
      pc.store.elim m.slots fun p => Function.update m.slots p.1 ((m.slots p.1).store p.2) := by
  cases pc with
  | loadProducerIdx | loadCurrent | loadOperation | storeReading | copy | increment | resetting =>
    rfl
  | loadConsumerIdx | checkReady | recheckReady | loadSize =>
    simp only [readStep]
    split <;> rfl
  | compareExchange current =>
    simp only [readStep, ReadPc.store]
    repeat' split
    all_goals rfl
  | storeComplete idx kind data => cases data <;> rfl

/-- A step of `read` stores to a slot or leaves it. -/
theorem readStep_slot {W R : Type} (rb : RingBuffer) (r : R) (m : RingMemory) (spurious : Bool)
    (pc : ReadPc) (idx : ℕ) :
    (readStep rb r m spurious pc : Effect W R ReadPc).memory.slots idx = m.slots idx ∨
      ∃ st, pc.store = some (idx, st) ∧
        (readStep rb r m spurious pc : Effect W R ReadPc).memory.slots idx =
          (m.slots idx).store st := by
  rw [readStep_slots]
  cases hstore : pc.store with
  | none => exact Or.inl rfl
  | some p =>
    obtain ⟨i, st⟩ := p
    by_cases hi : idx = i
    · subst hi
      exact Or.inr ⟨st, rfl, Function.update_self _ _ _⟩
    · exact Or.inl (Function.update_of_ne hi _ _)

/-! ## The threads of a system -/

namespace System

variable {W R : Type} {s : System W R}

/-- The kinds of step. -/
theorem step_cases [DecidableEq W] [DecidableEq R] {rb : RingBuffer} {s' : System W R}
    {a : Action W R} (h : s.step rb a = some s') :
    (∃ w call, a = .callWrite w call ∧ s.writer w = none ∧
      s' = s.afterWrite w call (writeCall rb w call s.memory)) ∨
    (∃ w spurious call pc, a = .stepWrite w spurious ∧ s.writer w = some (call, pc) ∧
      s' = s.afterWrite w call (writeStep rb w call s.memory spurious pc)) ∨
    (∃ r, a = .callRead r ∧ s.reader r = none ∧
      s' = s.afterRead r ⟨s.memory, some .loadProducerIdx, [.readCalled r]⟩) ∨
    (∃ r spurious pc, a = .stepRead r spurious ∧ s.reader r = some pc ∧
      s' = s.afterRead r (readStep rb r s.memory spurious pc)) := by
  cases a with
  | callWrite w call =>
    simp only [step] at h
    split at h
    · rename_i hw
      exact Or.inl ⟨w, call, rfl, hw, (Option.some.inj h).symm⟩
    · cases h
  | stepWrite w spurious =>
    obtain ⟨⟨call, pc⟩, hw, rfl⟩ := Option.map_eq_some_iff.mp h
    exact Or.inr (Or.inl ⟨w, spurious, call, pc, rfl, hw, rfl⟩)
  | callRead r =>
    simp only [step] at h
    split at h
    · rename_i hr
      exact Or.inr (Or.inr (Or.inl ⟨r, rfl, hr, (Option.some.inj h).symm⟩))
    · cases h
  | stepRead r spurious =>
    obtain ⟨pc, hr, rfl⟩ := Option.map_eq_some_iff.mp h
    exact Or.inr (Or.inr (Or.inr ⟨r, spurious, pc, rfl, hr, rfl⟩))

section
variable [DecidableEq W] [DecidableEq R] {rb : RingBuffer}

/-- A thread calls `write`. -/
theorem reaches_callWrite (rb : RingBuffer) {w : W} (hidle : s.writer w = none) (call : WriteCall) :
    Reaches (System.step rb) Always s (s.afterWrite w call (writeCall rb w call s.memory)) := by
  refine (Reaches.refl s).next (a := .callWrite w call) trivial ?_
  simp only [System.step, hidle]

/-- It takes the step `e` of its call. -/
theorem reaches_stepWrite {w : W} {call : WriteCall} {pc : WritePc} {e : Effect W R WritePc}
    (hw : s.writer w = some (call, pc)) (he : writeStep rb w call s.memory false pc = e) :
    Reaches (System.step rb) Always s (s.afterWrite w call e) := by
  refine (Reaches.refl s).next (a := .stepWrite w false) trivial ?_
  simp only [System.step, hw, Option.map_some, he]

/-- A thread calls `read`. -/
theorem reaches_callRead (rb : RingBuffer) {r : R} (hidle : s.reader r = none) :
    Reaches (System.step rb) Always s
      (s.afterRead r ⟨s.memory, some .loadProducerIdx, [.readCalled r]⟩) := by
  refine (Reaches.refl s).next (a := .callRead r) trivial ?_
  simp only [System.step, hidle]

/-- It takes the step `e` of its call. -/
theorem reaches_stepRead {r : R} {pc : ReadPc} {e : Effect W R ReadPc}
    (hr : s.reader r = some pc) (he : readStep rb r s.memory false pc = e) :
    Reaches (System.step rb) Always s (s.afterRead r e) := by
  refine (Reaches.refl s).next (a := .stepRead r false) trivial ?_
  simp only [System.step, hr, Option.map_some, he]

end

/-- The calls of `write` after a step of one of them. -/
theorem afterWrite_writer [DecidableEq W] {w w' : W} {call call' : WriteCall}
    {e : Effect W R WritePc} {pc' : WritePc} :
    (s.afterWrite w call e).writer w' = some (call', pc') ↔
      (w' = w ∧ call' = call ∧ e.pc = some pc') ∨ (w' ≠ w ∧ s.writer w' = some (call', pc')) := by
  by_cases hw : w' = w
  · subst hw
    simp [afterWrite, and_comm, eq_comm]
  · simp [afterWrite, hw]

/-- The calls of `read` after a step of one of them. -/
theorem afterRead_reader [DecidableEq R] {r r' : R} {e : Effect W R ReadPc} {pc' : ReadPc} :
    (s.afterRead r e).reader r' = some pc' ↔
      (r' = r ∧ e.pc = some pc') ∨ (r' ≠ r ∧ s.reader r' = some pc') := by
  by_cases hr : r' = r
  · subst hr
    simp [afterRead]
  · simp [afterRead, hr]

/-- The calls that store to a slot after a step that is private to its call. -/
theorem storing_of_private [DecidableEq W] {w w' : W} {call call' : WriteCall} {m : RingMemory}
    {e : Effect W R WritePc} {idx : ℕ} {st : Store} {rest : List Store} (he : e.Private m)
    (h : (s.afterWrite w call e).writer w' = some (call', .storing idx st rest)) :
    w' ≠ w ∧ s.writer w' = some (call', .storing idx st rest) := by
  rcases afterWrite_writer.mp h with ⟨-, -, hpc⟩ | hold
  · exact absurd (he.pc _ hpc) (by simp [WritePc.slot])
  · exact hold

/-- The calls that store to a slot after a step of one whose stores `stores` to `idx` are next. -/
theorem storing_of_ofStores [DecidableEq W] {w w' : W} {call call' : WriteCall} {m : RingMemory}
    {events : List (Event W R)} {idx idx' : ℕ} {stores : List Store} {st : Store}
    {rest : List Store}
    (h : (s.afterWrite w call ⟨m, WritePc.ofStores idx stores, events⟩).writer w' =
      some (call', .storing idx' st rest)) :
    (w' = w ∧ call' = call ∧ idx' = idx ∧ stores = st :: rest) ∨
      (w' ≠ w ∧ s.writer w' = some (call', .storing idx' st rest)) := by
  rcases afterWrite_writer.mp h with ⟨rfl, rfl, hpc⟩ | hold
  · obtain ⟨st', rest', hrest, heq⟩ := WritePc.ofStores_eq_some.mp hpc
    cases heq
    exact Or.inl ⟨rfl, rfl, rfl, hrest⟩
  · exact Or.inr hold

/-- A slot is taken by one call. -/
def TakenOnce (s : System W R) : Prop :=
  ∀ w w' call call' idx st st' rest rest', s.writer w = some (call, .storing idx st rest) →
    s.writer w' = some (call', .storing idx st' rest') → w = w'

/-- Two calls that store are in different slots. -/
theorem TakenOnce.idx_ne (h : s.TakenOnce) {w w' : W} {call call' : WriteCall} {idx idx' : ℕ}
    {st st' : Store} {rest rest' : List Store}
    (hw : s.writer w = some (call, .storing idx st rest))
    (hw' : s.writer w' = some (call', .storing idx' st' rest')) (hne : w' ≠ w) : idx' ≠ idx := by
  rintro rfl
  exact hne (h _ _ _ _ _ _ _ _ _ hw' hw)

/-- A store of one of them leaves the slot of the other. -/
theorem TakenOnce.slots_update (h : s.TakenOnce) {w w' : W} {call call' : WriteCall} {idx idx' : ℕ}
    {st st' : Store} {rest rest' : List Store}
    (hw : s.writer w = some (call, .storing idx st rest)) (hne : w' ≠ w)
    (hw' : s.writer w' = some (call', .storing idx' st' rest')) (slot : Slot) :
    Function.update s.memory.slots idx slot idx' = s.memory.slots idx' :=
  Function.update_of_ne (h.idx_ne hw hw' hne) _ _

/-- A slot is still taken by one call after a step that is private to its call. -/
theorem TakenOnce.of_private [DecidableEq W] (h : s.TakenOnce) {w : W} {call : WriteCall}
    {m : RingMemory} {e : Effect W R WritePc} (he : e.Private m) :
    (s.afterWrite w call e).TakenOnce := by
  intro w' w'' call' call'' idx st st' rest rest' hw' hw''
  exact h _ _ _ _ _ _ _ _ _ (storing_of_private he hw').2 (storing_of_private he hw'').2

/-- A slot is still taken by one call after a step of one whose stores to `idx` are next, when no
other call stores to `idx`. -/
theorem TakenOnce.ofStores [DecidableEq W] (h : s.TakenOnce) {w : W} {call : WriteCall}
    {m : RingMemory} {events : List (Event W R)} {idx : ℕ} {stores : List Store}
    (hfree : ∀ w' call' st rest, w' ≠ w → s.writer w' ≠ some (call', .storing idx st rest)) :
    (s.afterWrite w call ⟨m, WritePc.ofStores idx stores, events⟩).TakenOnce := by
  intro w' w'' call' call'' idx' st st' rest rest' hw' hw''
  rcases storing_of_ofStores hw' with ⟨rfl, rfl, rfl, -⟩ | ⟨hne, hold⟩ <;>
    rcases storing_of_ofStores hw'' with ⟨rfl, rfl, heq, -⟩ | ⟨hne', hold'⟩
  · rfl
  · exact absurd hold' (hfree _ _ _ _ hne')
  · subst heq
    exact absurd hold (hfree _ _ _ _ hne)
  · exact h _ _ _ _ _ _ _ _ _ hold hold'

/-- The stores that a thread still has to do to a slot that it has taken. -/
def remaining (s : System W R) (w : W) (idx : ℕ) : Option (List Store) :=
  match s.writer w with
  | some (_, .storing i st rest) => if i = idx then some (st :: rest) else none
  | _ => none

/-- A call that stores to a slot has stores left. -/
theorem remaining_eq {w : W} {call : WriteCall} {idx : ℕ} {st : Store} {rest : List Store}
    (hw : s.writer w = some (call, .storing idx st rest)) :
    s.remaining w idx = some (st :: rest) := by
  simp [remaining, hw]

/-- The stores that a call has left are the last ones of `write` and of `reset`. -/
structure WellFormed (s : System W R) : Prop where
  /-- Those of a call of `write`. -/
  writing : ∀ w call idx st rest, s.writer w = some (call, .storing idx st rest) →
    st :: rest <:+ call.program
  /-- Those of a call of `read`. -/
  resetting : ∀ r idx st rest, s.reader r = some (.resetting idx st rest) →
    st :: rest <:+ Slot.resetStores

/-- No call is in progress at the start. -/
theorem WellFormed.start (m : RingMemory) : WellFormed (start m : System W R) :=
  ⟨fun _ _ _ _ _ h => by simp [System.start] at h, fun _ _ _ _ h => by simp [System.start] at h⟩

/-- A step of `write` keeps the order of the stores. -/
theorem WellFormed.afterWrite [DecidableEq W] (h : WellFormed s) {rb : RingBuffer} {w : W}
    {call : WriteCall} {spurious : Bool} {pc : WritePc} (hw : s.writer w = some (call, pc)) :
    WellFormed (s.afterWrite w call (writeStep rb w call s.memory spurious pc)) where
  writing w' call' idx st rest hw' := by
    rcases writeStep_cases (R := R) rb w call s.memory spurious pc with
      ⟨idx', st', rest', rfl⟩ | ⟨idx', -, he⟩ | ⟨-, hpriv⟩
    · rcases storing_of_ofStores hw' with ⟨rfl, rfl, rfl, rfl⟩ | ⟨-, hold⟩
      · exact (List.suffix_cons st' _).trans (h.writing _ _ _ _ _ hw)
      · exact h.writing _ _ _ _ _ hold
    · rw [he] at hw'
      rcases storing_of_ofStores hw' with ⟨rfl, rfl, rfl, hrest⟩ | ⟨-, hold⟩
      · exact hrest ▸ List.suffix_rfl
      · exact h.writing _ _ _ _ _ hold
    · exact h.writing _ _ _ _ _ (storing_of_private hpriv hw').2
  resetting := h.resetting

/-- A step of `read` keeps the order of the stores. -/
theorem WellFormed.afterRead [DecidableEq R] (h : WellFormed s) {rb : RingBuffer} {r : R}
    {spurious : Bool} {pc : ReadPc} (hr : s.reader r = some pc) :
    WellFormed (s.afterRead r (readStep rb r s.memory spurious pc)) where
  writing := h.writing
  resetting r' idx st rest hr' := by
    rcases afterRead_reader.mp hr' with ⟨rfl, hpc⟩ | ⟨-, hold⟩
    · cases pc with
      | loadProducerIdx | loadCurrent | loadOperation | storeReading | copy | increment =>
        simp [readStep] at hpc
      | loadConsumerIdx | compareExchange | loadSize =>
        simp only [readStep] at hpc
        repeat' split at hpc
        all_goals simp at hpc
      | checkReady | recheckReady =>
        simp only [readStep] at hpc
        split at hpc
        · simp at hpc
        · simp only [ReadPc.ofStores_eq_some] at hpc
          obtain ⟨st', rest', hrest, heq⟩ := hpc
          cases heq
          exact hrest ▸ List.suffix_rfl
      | storeComplete idx' kind data =>
        cases data with
        | some data => simp [readStep] at hpc
        | none =>
          simp only [readStep, ReadPc.ofStores_eq_some] at hpc
          obtain ⟨st', rest', hrest, heq⟩ := hpc
          cases heq
          exact hrest ▸ List.suffix_rfl
      | resetting idx' st' rest' =>
        simp only [readStep, ReadPc.ofStores_eq_some] at hpc
        obtain ⟨st'', rest'', hrest, heq⟩ := hpc
        cases heq
        exact hrest ▸ (List.suffix_cons st' rest').trans (h.resetting _ _ _ _ hr)
    · exact h.resetting _ _ _ _ hold

/-- Every step keeps the order of the stores. -/
theorem WellFormed.step [DecidableEq W] [DecidableEq R] (h : WellFormed s) {rb : RingBuffer}
    {a : Action W R} {s' : System W R} (hstep : s.step rb a = some s') : WellFormed s' := by
  rcases step_cases hstep with ⟨w, call, rfl, -, rfl⟩ | ⟨w, spurious, call, pc, rfl, hw, rfl⟩ |
    ⟨r, rfl, -, rfl⟩ | ⟨r, spurious, pc, rfl, hr, rfl⟩
  · refine ⟨fun w' call' idx st rest hw' => ?_, h.resetting⟩
    exact h.writing _ _ _ _ _ (storing_of_private (writeCall_private rb w call s.memory) hw').2
  · exact h.afterWrite hw
  · refine ⟨h.writing, fun r' idx st rest hr' => ?_⟩
    rcases afterRead_reader.mp hr' with ⟨rfl, hpc⟩ | ⟨-, hold⟩
    · simp at hpc
    · exact h.resetting _ _ _ _ hold
  · exact h.afterRead hr

end System

end Elgate.Ring
