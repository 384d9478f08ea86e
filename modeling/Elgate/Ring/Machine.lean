import Elgate.Foundation.Transition
import Elgate.Ring.Spec

/-!
# Threads on one ring

`write` and `read` as sequences of indivisible steps, each an atomic load or store, a
compare-exchange, or the copy of a payload, in the order of the source. `WritePc` and `ReadPc` are
the places between two steps of a call, with the values that the call has loaded. A `System` is a
ring with any number of threads that call `write` (named by `W`) and `read` (named by `R`), and a
run of it takes the steps of the threads in any order. Compare-exchanges may fail spuriously.

The slot count never changes, so a load of it belongs to the step that uses it. Waiting between two
attempts is no step. All handles on a ring have the slot size of its header, so one handle serves
all threads. `history` records what the threads do; no step depends on it.
-/

namespace Elgate.Ring

/-- The next step of a call of `write`. `attempts` are the attempts of `wait_for_slot` that are left
after the present one. -/
inductive WritePc
  /-- `wait_for_slot` loads the producer index. -/
  | loadProducerIdx (attempts : ℕ)
  /-- `wait_for_slot` loads the consumer index. -/
  | loadConsumerIdx (attempts producerIdx : ℕ)
  /-- `next_producer_idx` loads the producer index. -/
  | loadCurrent (attempts : ℕ)
  /-- `next_producer_idx` exchanges the producer index. -/
  | compareExchange (attempts current : ℕ)
  /-- `wait_for_slot` compares the status of the claimed slot with `Empty`. -/
  | checkEmpty (attempts idx : ℕ)
  /-- `wait_for_slot` compares it with `Complete`. -/
  | checkComplete (attempts idx : ℕ)
  /-- The next store to the slot, of `reset` or later of `write`, and the stores after it. -/
  | storing (idx : ℕ) (st : Store) (rest : List Store)

/-- The next step of a call of `read`. -/
inductive ReadPc
  /-- `read` loads the producer index. -/
  | loadProducerIdx
  /-- `read` loads the consumer index. -/
  | loadConsumerIdx (producerIdx : ℕ)
  /-- `next_consumer_idx` loads the consumer index. -/
  | loadCurrent
  /-- `next_consumer_idx` exchanges the consumer index. -/
  | compareExchange (current : ℕ)
  /-- `read` compares the status of the slot with `Ready`. -/
  | checkReady (idx : ℕ)
  /-- `read` loads the kind. -/
  | loadOperation (idx : ℕ)
  /-- `read_data` compares the status with `Ready` again. -/
  | recheckReady (idx : ℕ) (kind : OperationKind)
  /-- `read_data` stores `Reading`. -/
  | storeReading (idx : ℕ) (kind : OperationKind)
  /-- `read_data` loads the size. -/
  | loadSize (idx : ℕ) (kind : OperationKind)
  /-- `read_data` copies the payload. -/
  | copy (idx : ℕ) (kind : OperationKind) (size : ℕ)
  /-- `read_data` stores `Complete`, with the payload that it returns. -/
  | storeComplete (idx : ℕ) (kind : OperationKind) (data : Option (List UInt8))
  /-- `read` counts the operation. -/
  | increment (idx : ℕ) (msg : Message)
  /-- The next store of `reset`, and the stores after it. -/
  | resetting (idx : ℕ) (st : Store) (rest : List Store)

/-- What a thread has done. -/
inductive Event (W R : Type)
  /-- A call of `write` has started. -/
  | writeCalled (w : W) (call : WriteCall)
  /-- `next_producer_idx` has returned a slot to the call. -/
  | claimed (w : W) (call : WriteCall) (idx : ℕ)
  /-- The call has stored `Ready`. -/
  | readyStored (w : W) (idx : ℕ)
  /-- The call has returned. -/
  | writeReturned (w : W) (call : WriteCall) (result : Except Fault ℕ)
  /-- A call of `read` has started. -/
  | readCalled (r : R)
  /-- `next_consumer_idx` has returned a slot to the call. -/
  | passed (r : R) (idx : ℕ)
  /-- The call has returned. `idx` is the slot that it visited. -/
  | readReturned (r : R) (idx : Option ℕ) (result : Except Fault (Option Message))

/-- What a step of a call does. -/
structure Effect (W R Pc : Type) where
  /-- The memory after the step. -/
  memory : RingMemory
  /-- The next step of the call, unless it has returned. -/
  pc : Option Pc
  /-- What is recorded. -/
  events : List (Event W R)

/-- The stores of a call of `write` to the slot that it takes: `reset` by `wait_for_slot`, and its
own. -/
def WriteCall.program (call : WriteCall) : List Store := Slot.resetStores ++ call.stores

/-- The first of the stores is next. -/
def WritePc.ofStores (idx : ℕ) : List Store → Option WritePc
  | [] => none
  | st :: rest => some (.storing idx st rest)

/-- The first of the stores is next. -/
def ReadPc.ofStores (idx : ℕ) : List Store → Option ReadPc
  | [] => none
  | st :: rest => some (.resetting idx st rest)

section
variable {W R : Type}

/-- `write` up to its first load. -/
def writeCall (rb : RingBuffer) (w : W) (call : WriteCall) (m : RingMemory) :
    Effect W R WritePc :=
  match maxPayloadSize rb with
  | .ok limit =>
    if call.data.length > limit then
      ⟨m, none, [.writeCalled w call, .writeReturned w call (.error (.err .dataTooLarge))]⟩
    else ⟨m, some (.loadProducerIdx maxAttempts), [.writeCalled w call]⟩
  | .error e => ⟨m, none, [.writeCalled w call, .writeReturned w call (.error e)]⟩

/-- The end of an attempt that has found no slot. -/
def nextAttempt (w : W) (call : WriteCall) (m : RingMemory) : ℕ → Effect W R WritePc
  | 0 => ⟨m, none, [.writeReturned w call (.error (.err (.ringBufferFull maxAttempts)))]⟩
  | attempts + 1 => ⟨m, some (.loadProducerIdx attempts), []⟩

/-- The events of a store. -/
def storeEvents (w : W) (idx : ℕ) : Store → List (Event W R)
  | .status .ready => [.readyStored w idx]
  | _ => []

/-- The events of the step after which the stores `rest` are left. -/
def returnEvents (w : W) (call : WriteCall) (idx : ℕ) : List Store → List (Event W R)
  | [] => [.writeReturned w call (.ok idx)]
  | _ :: _ => []

/-- A step of `write`. The length check of `write_data` is the one that the call has passed. -/
def writeStep (rb : RingBuffer) (w : W) (call : WriteCall) (m : RingMemory) (spurious : Bool) :
    WritePc → Effect W R WritePc
  | .loadProducerIdx attempts => ⟨m, some (.loadConsumerIdx attempts m.header.producerIdx), []⟩
  | .loadConsumerIdx attempts producerIdx =>
    match availableSlots m.header.slotCount producerIdx m.header.consumerIdx with
    | .ok available =>
      if available > 0 then ⟨m, some (.loadCurrent attempts), []⟩
      else nextAttempt w call m attempts
    | .error e => ⟨m, none, [.writeReturned w call (.error e)]⟩
  | .loadCurrent attempts => ⟨m, some (.compareExchange attempts m.header.producerIdx), []⟩
  | .compareExchange attempts current =>
    match nextIdx current m.header.slotCount with
    | .ok next =>
      if m.header.producerIdx = current ∧ spurious = false then
        match getSlot m.header current rb.slotSize with
        | .ok slot =>
          ⟨m.setProducerIdx next, some (.checkEmpty attempts slot.idx), [.claimed w call current]⟩
        | .error e =>
          ⟨m.setProducerIdx next, none,
            [.claimed w call current, .writeReturned w call (.error e)]⟩
      else ⟨m, some (.compareExchange attempts m.header.producerIdx), []⟩
    | .error e => ⟨m, none, [.writeReturned w call (.error e)]⟩
  | .checkEmpty attempts idx =>
    if (m.slots idx).getStatus = .empty then ⟨m, WritePc.ofStores idx call.program, []⟩
    else ⟨m, some (.checkComplete attempts idx), []⟩
  | .checkComplete attempts idx =>
    if (m.slots idx).getStatus = .complete then ⟨m, WritePc.ofStores idx call.program, []⟩
    else nextAttempt w call m attempts
  | .storing idx st rest =>
    ⟨m.setSlot idx ((m.slots idx).store st), WritePc.ofStores idx rest,
      storeEvents w idx st ++ returnEvents w call idx rest⟩

/-- A step of `read`. -/
def readStep (rb : RingBuffer) (r : R) (m : RingMemory) (spurious : Bool) :
    ReadPc → Effect W R ReadPc
  | .loadProducerIdx => ⟨m, some (.loadConsumerIdx m.header.producerIdx), []⟩
  | .loadConsumerIdx producerIdx =>
    if producerIdx = m.header.consumerIdx then ⟨m, none, [.readReturned r none (.ok none)]⟩
    else ⟨m, some .loadCurrent, []⟩
  | .loadCurrent => ⟨m, some (.compareExchange m.header.consumerIdx), []⟩
  | .compareExchange current =>
    match nextIdx current m.header.slotCount with
    | .ok next =>
      if m.header.consumerIdx = current ∧ spurious = false then
        match getSlot m.header current rb.slotSize with
        | .ok slot => ⟨m.setConsumerIdx next, some (.checkReady slot.idx), [.passed r current]⟩
        | .error e =>
          ⟨m.setConsumerIdx next, none, [.passed r current, .readReturned r none (.error e)]⟩
      else ⟨m, some (.compareExchange m.header.consumerIdx), []⟩
    | .error e => ⟨m, none, [.readReturned r none (.error e)]⟩
  | .checkReady idx =>
    if (m.slots idx).getStatus = .ready then ⟨m, some (.loadOperation idx), []⟩
    else ⟨m, ReadPc.ofStores idx Slot.resetStores, []⟩
  | .loadOperation idx => ⟨m, some (.recheckReady idx (m.slots idx).getOperation), []⟩
  | .recheckReady idx kind =>
    if (m.slots idx).getStatus = .ready then ⟨m, some (.storeReading idx kind), []⟩
    else ⟨m, ReadPc.ofStores idx Slot.resetStores, []⟩
  | .storeReading idx kind =>
    ⟨m.setSlot idx ((m.slots idx).store (.status .reading)), some (.loadSize idx kind), []⟩
  | .loadSize idx kind =>
    if (m.slots idx).size > rb.payloadSize then ⟨m, some (.storeComplete idx kind none), []⟩
    else ⟨m, some (.copy idx kind (m.slots idx).size), []⟩
  | .copy idx kind size =>
    ⟨m, some (.storeComplete idx kind (some ((m.slots idx).data.take size))), []⟩
  | .storeComplete idx kind data =>
    let m' := m.setSlot idx ((m.slots idx).store (.status .complete))
    match data with
    | some data => ⟨m', some (.increment idx ⟨kind, data⟩), []⟩
    | none => ⟨m', ReadPc.ofStores idx Slot.resetStores, []⟩
  | .increment idx msg =>
    ⟨m.incrementCompleted, none, [.readReturned r (some idx) (.ok (some msg))]⟩
  | .resetting idx st rest =>
    ⟨m.setSlot idx ((m.slots idx).store st), ReadPc.ofStores idx rest,
      match rest with
      | [] => [.readReturned r (some idx) (.ok none)]
      | _ :: _ => []⟩

end

/-- A ring and the threads that use it. -/
structure System (W R : Type) where
  /-- The mapped file. -/
  memory : RingMemory
  /-- The call of `write` that a thread is in. -/
  writer : W → Option (WriteCall × WritePc)
  /-- The call of `read` that a thread is in. -/
  reader : R → Option ReadPc
  /-- What the threads have done, the first event first. -/
  history : List (Event W R)

/-- A step of a thread. -/
inductive Action (W R : Type)
  | callWrite (w : W) (call : WriteCall)
  | stepWrite (w : W) (spurious : Bool)
  | callRead (r : R)
  | stepRead (r : R) (spurious : Bool)

namespace System

variable {W R : Type}

/-- No call is in progress. -/
def start (m : RingMemory) : System W R := ⟨m, fun _ => none, fun _ => none, []⟩

variable [DecidableEq W] [DecidableEq R]

/-- The system after a step of a call of `write`. -/
def afterWrite (s : System W R) (w : W) (call : WriteCall) (e : Effect W R WritePc) :
    System W R where
  memory := e.memory
  writer := Function.update s.writer w (e.pc.map fun pc => (call, pc))
  reader := s.reader
  history := s.history ++ e.events

/-- The system after a step of a call of `read`. -/
def afterRead (s : System W R) (r : R) (e : Effect W R ReadPc) : System W R where
  memory := e.memory
  writer := s.writer
  reader := Function.update s.reader r e.pc
  history := s.history ++ e.events

/-- A step of the system: a thread in no call may start one, and a thread in a call takes its next
step. -/
def step (rb : RingBuffer) (s : System W R) : Action W R → Option (System W R)
  | .callWrite w call =>
    match s.writer w with
    | none => some (s.afterWrite w call (writeCall rb w call s.memory))
    | some _ => none
  | .stepWrite w spurious =>
    (s.writer w).map fun (call, pc) =>
      s.afterWrite w call (writeStep rb w call s.memory spurious pc)
  | .callRead r =>
    match s.reader r with
    | none => some (s.afterRead r ⟨s.memory, some .loadProducerIdx, [.readCalled r]⟩)
    | some _ => none
  | .stepRead r spurious =>
    (s.reader r).map fun pc => s.afterRead r (readStep rb r s.memory spurious pc)

end System

/-! ## What a history says -/

section
variable {W R : Type}

/-- A call of `write` that starts. -/
def Event.call : Event W R → Option (W × WriteCall)
  | .writeCalled w call => some (w, call)
  | _ => none

/-- A slot that a call claims. -/
def Event.claim : Event W R → Option (W × WriteCall × ℕ)
  | .claimed w call idx => some (w, call, idx)
  | _ => none

/-- A call of `write` that returns `Ok`, and the slot. -/
def Event.okReturn : Event W R → Option (W × WriteCall × ℕ)
  | .writeReturned w call (.ok idx) => some (w, call, idx)
  | _ => none

/-- A call of `write` that fails. -/
def Event.failure : Event W R → Option (W × WriteCall × Fault)
  | .writeReturned w call (.error e) => some (w, call, e)
  | _ => none

/-- The slot of a `Ready` store. -/
def Event.readyStore : Event W R → Option ℕ
  | .readyStored _ idx => some idx
  | _ => none

/-- The slot that a `read` passes. -/
def Event.pass : Event W R → Option ℕ
  | .passed _ idx => some idx
  | _ => none

/-- A `read` that returns a message, and the slot that it visited. -/
def Event.delivery : Event W R → Option (ℕ × Message)
  | .readReturned _ (some idx) (.ok (some msg)) => some (idx, msg)
  | _ => none

variable (h : List (Event W R))

/-- The calls of `write`, in the order in which they started. -/
def calls : List (W × WriteCall) := h.filterMap Event.call

/-- The claimed slots, in the order of the successful compare-exchanges. -/
def claims : List (W × WriteCall × ℕ) := h.filterMap Event.claim

/-- The calls of `write` that have returned `Ok`, in the order in which they returned. -/
def okReturns : List (W × WriteCall × ℕ) := h.filterMap Event.okReturn

/-- The calls of `write` that have failed. -/
def failures : List (W × WriteCall × Fault) := h.filterMap Event.failure

/-- The slots of the `Ready` stores. -/
def readyStores : List ℕ := h.filterMap Event.readyStore

/-- The slots that reads have passed. -/
def passes : List ℕ := h.filterMap Event.pass

/-- The messages that reads have returned, each with the slot that was visited. -/
def deliveries : List (ℕ × Message) := h.filterMap Event.delivery

/-- The messages of the claims, in the order of the claims. -/
def claimedMessages : List Message := (claims h).map fun claim => claim.2.1.message

/-- The messages of the calls of `write` that have returned `Ok`, in the order of the returns. -/
def okMessages : List Message := (okReturns h).map fun return' => return'.2.1.message

/-- The messages that reads have returned. -/
def readMessages : List Message := (deliveries h).map Prod.snd

variable (h' : List (Event W R))

@[simp] theorem calls_append : calls (h ++ h') = calls h ++ calls h' := List.filterMap_append
@[simp] theorem claims_append : claims (h ++ h') = claims h ++ claims h' := List.filterMap_append
@[simp] theorem okReturns_append : okReturns (h ++ h') = okReturns h ++ okReturns h' :=
  List.filterMap_append
@[simp] theorem failures_append : failures (h ++ h') = failures h ++ failures h' :=
  List.filterMap_append
@[simp] theorem readyStores_append : readyStores (h ++ h') = readyStores h ++ readyStores h' :=
  List.filterMap_append
@[simp] theorem passes_append : passes (h ++ h') = passes h ++ passes h' := List.filterMap_append
@[simp] theorem deliveries_append : deliveries (h ++ h') = deliveries h ++ deliveries h' :=
  List.filterMap_append

/-- The events are those of a call of `read`. -/
structure OfRead : Prop where
  /-- No call of `write` starts. -/
  calls : calls h = []
  /-- No slot is claimed. -/
  claims : claims h = []
  /-- No call of `write` returns `Ok`. -/
  okReturns : okReturns h = []
  /-- No call of `write` fails. -/
  failures : failures h = []
  /-- No `Ready` is stored. -/
  readyStores : readyStores h = []

variable (r : R)

@[simp] theorem passes_readCalled : passes [(.readCalled r : Event W R)] = [] := rfl
@[simp] theorem deliveries_readCalled : deliveries [(.readCalled r : Event W R)] = [] := rfl
@[simp] theorem okReturns_readCalled : okReturns [(.readCalled r : Event W R)] = [] := rfl
@[simp] theorem readyStores_readCalled : readyStores [(.readCalled r : Event W R)] = [] := rfl

/-- The start of a call of `read`. -/
theorem ofRead_readCalled : OfRead [(.readCalled r : Event W R)] := ⟨rfl, rfl, rfl, rfl, rfl⟩

end

end Elgate.Ring
