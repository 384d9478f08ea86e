import Elgate.Ring.Slot

/-!
# The shared memory of the ring buffer

`src/ring/header.rs`, with the memory that the header and the slots share. `RingMemory` is the
mapped file: the header's words and the slots, each at its index.

A function of the source is a computation in `RingM`: it reads and changes the memory, and it
returns, fails with an error of its `Result`, or panics. Like the source, a failed computation
leaves the memory as it was when it failed. `usize` values are natural numbers. Overflow checks are
on: a sum or a product from 2^64 on, a subtraction below zero, and a remainder by zero panic.
-/

namespace Elgate.Ring

/-- The errors that the ring buffer's functions return. -/
inductive RingError
  | dataTooLarge
  | ringBufferFull (maxAttempts : ℕ)
  | invalidHeader
  deriving DecidableEq, Repr

/-- The text of an error. -/
def RingError.message : RingError → String
  | dataTooLarge => "Data too large for slot"
  | ringBufferFull maxAttempts => s!"Ring buffer full after {maxAttempts} attempts"
  | invalidHeader => "Invalid ring buffer header"

/-- The panics that the ring buffer's functions can raise. -/
inductive Panic
  | addOverflow
  | subtractOverflow
  | multiplyOverflow
  | divideByZero
  | remainderByZero
  | shiftLeftOverflow
  | slotIndexOutOfBounds
  deriving DecidableEq, Repr

/-- The text of a panic. -/
def Panic.message : Panic → String
  | addOverflow => "attempt to add with overflow"
  | subtractOverflow => "attempt to subtract with overflow"
  | multiplyOverflow => "attempt to multiply with overflow"
  | divideByZero => "attempt to divide by zero"
  | remainderByZero => "attempt to calculate the remainder with a divisor of zero"
  | shiftLeftOverflow => "attempt to shift left with overflow"
  | slotIndexOutOfBounds => "Slot index out of bounds"

/-- How a computation ends when it does not return. -/
inductive Fault
  /-- It returns `Err`. -/
  | err (error : RingError)
  /-- It panics. -/
  | panic (panic : Panic)
  deriving DecidableEq, Repr

/-- A step that succeeds passes its value on. -/
@[simp]
theorem ok_bind {α β : Type} (a : α) (f : α → Except Fault β) : (.ok a >>= f) = f a := rfl

/-- What a computation returns. -/
theorem pure_eq_ok {α : Type} {a b : α} (h : (pure a : Except Fault α) = .ok b) : a = b :=
  Except.ok.inj h

/-- A failed computation returns nothing. -/
theorem throw_ne_ok {α : Type} {e : Fault} {b : α} : (throw e : Except Fault α) ≠ .ok b := by
  intro h
  cases h

/-- A sequence succeeds when both its parts do. -/
theorem bind_eq_ok {α β : Type} {x : Except Fault α} {f : α → Except Fault β} {b : β}
    (h : (x >>= f) = .ok b) : ∃ a, x = .ok a ∧ f a = .ok b := by
  cases x with
  | error e => cases h
  | ok a => exact ⟨a, rfl, h⟩

/-- Addition of `usize` values. -/
def addUsize (a b : ℕ) : Except Fault ℕ :=
  if a + b < 2^64 then .ok (a + b) else .error (.panic .addOverflow)

/-- Multiplication of `usize` values. -/
def mulUsize (a b : ℕ) : Except Fault ℕ :=
  if a * b < 2^64 then .ok (a * b) else .error (.panic .multiplyOverflow)

/-- A sum below 2^64. -/
theorem addUsize_eq {a b : ℕ} (h : a + b < 2^64) : addUsize a b = .ok (a + b) := if_pos h

/-- A product below 2^64. -/
theorem mulUsize_eq {a b : ℕ} (h : a * b < 2^64) : mulUsize a b = .ok (a * b) := if_pos h

/-- An addition that succeeds stays below 2^64. -/
theorem addUsize_eq_ok {a b c : ℕ} (h : addUsize a b = .ok c) : a + b < 2^64 ∧ c = a + b := by
  unfold addUsize at h
  split at h
  · rename_i hlt
    exact ⟨hlt, (Except.ok.inj h).symm⟩
  · cases h

/-- So does a multiplication. -/
theorem mulUsize_eq_ok {a b c : ℕ} (h : mulUsize a b = .ok c) : a * b < 2^64 ∧ c = a * b := by
  unfold mulUsize at h
  split at h
  · rename_i hlt
    exact ⟨hlt, (Except.ok.inj h).symm⟩
  · cases h

/-- Subtraction of `usize` values. -/
def subUsize (a b : ℕ) : Except Fault ℕ :=
  if b ≤ a then .ok (a - b) else .error (.panic .subtractOverflow)

/-- A subtraction that succeeds does not go below zero. -/
theorem subUsize_eq_ok {a b c : ℕ} (h : subUsize a b = .ok c) : b ≤ a ∧ c = a - b := by
  unfold subUsize at h
  split at h
  · rename_i hle
    exact ⟨hle, (Except.ok.inj h).symm⟩
  · cases h

/-- The words of the header. -/
structure RingHeader where
  /-- Magic value to identify a valid ring buffer. -/
  magic : ℕ
  /-- Version of the ring buffer format. -/
  version : ℕ
  /-- Size of the entire ring buffer in bytes. -/
  size : ℕ
  /-- Size of each slot in bytes. -/
  slotSize : ℕ
  /-- Number of slots in the ring buffer. -/
  slotCount : ℕ
  /-- Producer index (next slot to be written). -/
  producerIdx : ℕ
  /-- Consumer index (next slot to be read). -/
  consumerIdx : ℕ
  /-- Count of active producers. -/
  activeProducers : ℕ
  /-- Count of operations completed. -/
  operationsCompleted : ℕ
  /-- Creation timestamp (seconds since epoch). -/
  createdAt : ℕ
  /-- NUMA node where this ring buffer is preferentially allocated. -/
  numaNode : ℕ
  deriving DecidableEq, Repr

/-- `size_of::<RingHeader>()`: 148 bytes of fields and padding, aligned to 64. -/
def sizeOfRingHeader : ℕ := 192

namespace RingHeader

/-- Magic value to identify a valid ring buffer. -/
def MAGIC : ℕ := 0x454C474154455242

/-- Current version of the ring buffer format. -/
def VERSION : ℕ := 1

/-- `RingHeader::new`. `now` is what the system clock gave. -/
def new (size slotSize now : ℕ) : Except Fault RingHeader := do
  let room ← subUsize size sizeOfRingHeader
  if slotSize = 0 then throw (.panic .divideByZero)
  else return {
    magic := MAGIC
    version := VERSION
    size := size
    slotSize := slotSize
    slotCount := room / slotSize
    producerIdx := 0
    consumerIdx := 0
    activeProducers := 0
    operationsCompleted := 0
    createdAt := now
    numaNode := 0 }

/-- `RingHeader::validate`. -/
def validate (header : RingHeader) : Bool :=
  header.magic == MAGIC && header.version == VERSION && header.size > sizeOfRingHeader &&
    header.slotSize > 0 && header.slotCount > 0

/-- `RingHeader::register_producer`. The counter wraps, as `fetch_add` does. -/
def registerProducer (header : RingHeader) : RingHeader :=
  { header with activeProducers := (header.activeProducers + 1) % 2^64 }

/-- `RingHeader::unregister_producer`. The counter wraps, as `fetch_sub` does. -/
def unregisterProducer (header : RingHeader) : RingHeader :=
  { header with activeProducers := (header.activeProducers + (2^64 - 1)) % 2^64 }

end RingHeader

/-- The mapped file. -/
structure RingMemory where
  /-- The header at its start. -/
  header : RingHeader
  /-- The slots after the header, by index. Those from `slotCount` on are outside the ring. -/
  slots : ℕ → Slot

namespace RingMemory

/-- The memory with a new producer index. -/
def setProducerIdx (m : RingMemory) (idx : ℕ) : RingMemory :=
  { m with header := { m.header with producerIdx := idx } }

/-- The memory with a new consumer index. -/
def setConsumerIdx (m : RingMemory) (idx : ℕ) : RingMemory :=
  { m with header := { m.header with consumerIdx := idx } }

/-- The memory with one slot replaced. -/
def setSlot (m : RingMemory) (idx : ℕ) (slot : Slot) : RingMemory :=
  { m with slots := Function.update m.slots idx slot }

/-- `RingHeader::increment_completed`. The counter wraps, as `fetch_add` does. -/
def incrementCompleted (m : RingMemory) : RingMemory :=
  { m with header :=
    { m.header with operationsCompleted := (m.header.operationsCompleted + 1) % 2^64 } }

/-- Two states of one file: the fields that `create` writes once are the same. -/
structure SameGeometry (m' m : RingMemory) : Prop where
  /-- The same slot size. -/
  slotSize : m'.header.slotSize = m.header.slotSize
  /-- The same number of slots. -/
  slotCount : m'.header.slotCount = m.header.slotCount

section
variable (m : RingMemory) (idx : ℕ) (slot : Slot)

@[simp] theorem setProducerIdx_slots : (m.setProducerIdx idx).slots = m.slots := rfl
@[simp] theorem setProducerIdx_setProducerIdx (idx' : ℕ) :
    (m.setProducerIdx idx).setProducerIdx idx' = m.setProducerIdx idx' := rfl
@[simp] theorem setProducerIdx_producerIdx : (m.setProducerIdx idx).header.producerIdx = idx := rfl
@[simp] theorem setProducerIdx_consumerIdx :
    (m.setProducerIdx idx).header.consumerIdx = m.header.consumerIdx := rfl
@[simp] theorem setProducerIdx_slotCount :
    (m.setProducerIdx idx).header.slotCount = m.header.slotCount := rfl
@[simp] theorem setProducerIdx_operationsCompleted :
    (m.setProducerIdx idx).header.operationsCompleted = m.header.operationsCompleted := rfl
@[simp] theorem setConsumerIdx_slots : (m.setConsumerIdx idx).slots = m.slots := rfl
@[simp] theorem setConsumerIdx_consumerIdx : (m.setConsumerIdx idx).header.consumerIdx = idx := rfl
@[simp] theorem setConsumerIdx_producerIdx :
    (m.setConsumerIdx idx).header.producerIdx = m.header.producerIdx := rfl
@[simp] theorem setConsumerIdx_slotCount :
    (m.setConsumerIdx idx).header.slotCount = m.header.slotCount := rfl
@[simp] theorem setConsumerIdx_operationsCompleted :
    (m.setConsumerIdx idx).header.operationsCompleted = m.header.operationsCompleted := rfl
@[simp] theorem setSlot_slots : (m.setSlot idx slot).slots = Function.update m.slots idx slot := rfl
@[simp] theorem setSlot_setSlot (slot' : Slot) :
    (m.setSlot idx slot).setSlot idx slot' = m.setSlot idx slot' := by
  simp [setSlot]
@[simp] theorem setSlot_header : (m.setSlot idx slot).header = m.header := rfl
@[simp] theorem incrementCompleted_slots : m.incrementCompleted.slots = m.slots := rfl
@[simp] theorem incrementCompleted_producerIdx :
    m.incrementCompleted.header.producerIdx = m.header.producerIdx := rfl
@[simp] theorem incrementCompleted_consumerIdx :
    m.incrementCompleted.header.consumerIdx = m.header.consumerIdx := rfl
@[simp] theorem incrementCompleted_slotCount :
    m.incrementCompleted.header.slotCount = m.header.slotCount := rfl
@[simp] theorem incrementCompleted_operationsCompleted :
    m.incrementCompleted.header.operationsCompleted = (m.header.operationsCompleted + 1) % 2^64 :=
  rfl

end

end RingMemory

/-- Computations on the mapped file. -/
abbrev RingM := ExceptT Fault (StateM RingMemory)

/-- A computation that does not touch the memory. -/
def RingM.liftExcept {α : Type} (x : Except Fault α) : RingM α :=
  match x with
  | .ok a => pure a
  | .error e => throw e

/-- The result of a computation, and the memory that it leaves. -/
def RingM.exec {α : Type} (x : RingM α) (m : RingMemory) : Except Fault α × RingMemory :=
  StateT.run (ExceptT.run x) m

namespace RingM

variable {α β : Type} (m : RingMemory)

@[simp]
theorem exec_pure (a : α) : exec (pure a) m = (.ok a, m) := rfl

@[simp]
theorem exec_throw (e : Fault) : exec (throw e : RingM α) m = (.error e, m) := rfl

@[simp]
theorem exec_get : exec get m = (.ok m, m) := rfl

@[simp]
theorem exec_set (m' : RingMemory) : exec (set m') m = (.ok ⟨⟩, m') := rfl

@[simp]
theorem exec_modify (f : RingMemory → RingMemory) : exec (modify f) m = (.ok ⟨⟩, f m) := rfl

@[simp]
theorem exec_liftExcept (x : Except Fault α) : exec (liftExcept x) m = (x, m) := by
  cases x <;> rfl

/-- A sequence of two computations stops at the first that fails. -/
@[simp]
theorem exec_bind (x : RingM α) (f : α → RingM β) :
    exec (x >>= f) m = match exec x m with
      | (.ok a, m') => exec (f a) m'
      | (.error e, m') => (.error e, m') := by
  simp only [exec, ExceptT.run_bind, StateT.run_bind]
  rcases StateT.run (ExceptT.run x) m with ⟨_ | _, _⟩ <;> rfl

@[simp]
theorem exec_map (f : α → β) (x : RingM α) :
    exec (f <$> x) m = match exec x m with
      | (.ok a, m') => (.ok (f a), m')
      | (.error e, m') => (.error e, m') := by
  rw [map_eq_pure_bind, exec_bind]
  rfl

@[simp]
theorem exec_ite (c : Prop) [Decidable c] (x y : RingM α) :
    exec (if c then x else y) m = if c then exec x m else exec y m := by
  split <;> rfl

end RingM

/-- The index after `current`, as `next_producer_idx` and `next_consumer_idx` compute it. -/
def nextIdx (current slotCount : ℕ) : Except Fault ℕ := do
  let next ← addUsize current 1
  if slotCount = 0 then throw (.panic .remainderByZero)
  return next % slotCount

/-- The next index, when the addition does not overflow and there is a slot. -/
theorem nextIdx_eq {current slotCount : ℕ} (h : current + 1 < 2^64) (hN : 0 < slotCount) :
    nextIdx current slotCount = .ok ((current + 1) % slotCount) := by
  unfold nextIdx
  rw [addUsize_eq h, ok_bind, if_neg (Nat.ne_of_gt hN)]
  rfl

/-- No index comes after the last `usize`. -/
theorem nextIdx_overflow {current slotCount : ℕ} (h : 2^64 ≤ current + 1) :
    nextIdx current slotCount = .error (.panic .addOverflow) := by
  unfold nextIdx addUsize
  rw [if_neg (Nat.not_lt_of_le h)]
  rfl

/-- There is a next index, or the computation panics. -/
theorem nextIdx_cases (current slotCount : ℕ) :
    (current + 1 < 2^64 ∧ 0 < slotCount ∧
      nextIdx current slotCount = .ok ((current + 1) % slotCount)) ∨
    (current + 1 < 2^64 ∧ slotCount = 0 ∧
      nextIdx current slotCount = .error (.panic .remainderByZero)) ∨
    (2^64 ≤ current + 1 ∧ nextIdx current slotCount = .error (.panic .addOverflow)) := by
  by_cases h : current + 1 < 2^64
  · rcases Nat.eq_zero_or_pos slotCount with hN | hN
    · refine Or.inr (Or.inl ⟨h, hN, ?_⟩)
      unfold nextIdx
      rw [addUsize_eq h, ok_bind, if_pos hN]
      rfl
    · exact Or.inl ⟨h, hN, nextIdx_eq h hN⟩
  · exact Or.inr (Or.inr ⟨Nat.le_of_not_lt h, nextIdx_overflow (Nat.le_of_not_lt h)⟩)

/-- `RingHeader::next_producer_idx` without interference: the first compare-exchange that does not
fail spuriously succeeds. -/
def nextProducerIdx : RingM ℕ := do
  let current := (← get).header.producerIdx
  let next ← RingM.liftExcept (nextIdx current (← get).header.slotCount)
  modify fun m => m.setProducerIdx next
  return current

/-- `RingHeader::next_consumer_idx` without interference. -/
def nextConsumerIdx : RingM ℕ := do
  let current := (← get).header.consumerIdx
  let next ← RingM.liftExcept (nextIdx current (← get).header.slotCount)
  modify fun m => m.setConsumerIdx next
  return current

/-- `next_producer_idx` hands out the producer index and advances it. -/
theorem nextProducerIdx_exec (m : RingMemory) {next : ℕ}
    (h : nextIdx m.header.producerIdx m.header.slotCount = .ok next) :
    nextProducerIdx.exec m = (.ok m.header.producerIdx, m.setProducerIdx next) := by
  simp [nextProducerIdx, h]

/-- `next_consumer_idx` hands out the consumer index and advances it. -/
theorem nextConsumerIdx_exec (m : RingMemory) {next : ℕ}
    (h : nextIdx m.header.consumerIdx m.header.slotCount = .ok next) :
    nextConsumerIdx.exec m = (.ok m.header.consumerIdx, m.setConsumerIdx next) := by
  simp [nextConsumerIdx, h]

end Elgate.Ring
