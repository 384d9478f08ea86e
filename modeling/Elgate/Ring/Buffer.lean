import Elgate.Arch.CpuInfo
import Elgate.Ring.Header

/-!
# The ring buffer

`src/ring/buffer.rs`: creating and opening a ring, and its operations `write` and `read` as they
run without interference. Operations on the file itself are assumed to succeed, and waiting
between two attempts has no effect on the memory. What the environment supplies, a fresh UUID and
the time, is an argument.
-/

namespace Elgate.Ring

/-- Options for creating or opening a ring buffer. Its path names the one file of the model. -/
structure RingBufferOptions where
  /-- Total size of the ring buffer in bytes. -/
  size : ℕ
  /-- Size of each slot in bytes. -/
  slotSize : ℕ
  deriving DecidableEq, Repr

/-- A handle on a mapped ring buffer. -/
structure RingBuffer where
  /-- Size of the ring buffer in bytes. -/
  size : ℕ
  /-- Size of each slot in bytes. -/
  slotSize : ℕ
  /-- Whether this instance is a producer. -/
  isProducer : Bool
  deriving DecidableEq, Repr

/-- The pointers of a `Slot` value: where its metadata starts, and how long its payload area is. -/
structure SlotRef where
  /-- The index of the slot. -/
  idx : ℕ
  /-- The byte offset of its metadata in the file. -/
  offset : ℕ
  /-- Size of the payload area in bytes. -/
  dataSize : ℕ
  deriving DecidableEq, Repr

/-- `RingBuffer::get_slot`, with `Slot::from_ptr`. -/
def getSlot (header : RingHeader) (idx slotSize : ℕ) : Except Fault SlotRef := do
  if idx < header.slotCount then
    let offset ← addUsize sizeOfRingHeader (← mulUsize idx slotSize)
    let dataSize ← subUsize slotSize sizeOfSlotMetadata
    return { idx := idx, offset := offset, dataSize := dataSize }
  else throw (.panic .slotIndexOutOfBounds)

/-- The slot that `get_slot` returns. -/
theorem getSlot_ok {header : RingHeader} {idx slotSize : ℕ} {slot : SlotRef}
    (h : getSlot header idx slotSize = .ok slot) :
    slot = ⟨idx, sizeOfRingHeader + idx * slotSize, slotSize - sizeOfSlotMetadata⟩ ∧
      idx < header.slotCount ∧ sizeOfSlotMetadata ≤ slotSize ∧
      sizeOfRingHeader + idx * slotSize < 2^64 := by
  unfold getSlot at h
  split at h
  · rename_i hidx
    obtain ⟨product, hproduct, h⟩ := bind_eq_ok h
    obtain ⟨offset, hoffset, h⟩ := bind_eq_ok h
    obtain ⟨dataSize, hsize, h⟩ := bind_eq_ok h
    obtain ⟨-, rfl⟩ := mulUsize_eq_ok hproduct
    obtain ⟨hlt, rfl⟩ := addUsize_eq_ok hoffset
    obtain ⟨h64, rfl⟩ := subUsize_eq_ok hsize
    obtain rfl := pure_eq_ok h
    exact ⟨rfl, hidx, h64, hlt⟩
  · exact absurd h throw_ne_ok

/-- The index after that of a slot that `get_slot` returns. -/
theorem nextIdx_of_getSlot {header : RingHeader} {idx slotSize : ℕ} {slot : SlotRef}
    (h : getSlot header idx slotSize = .ok slot) :
    nextIdx idx header.slotCount = .ok ((idx + 1) % header.slotCount) := by
  obtain ⟨-, hidx, h64, hoffset⟩ := getSlot_ok h
  have hmul : idx * 64 ≤ idx * slotSize := Nat.mul_le_mul_left idx h64
  unfold sizeOfRingHeader at hoffset
  exact nextIdx_eq (by omega) (Nat.zero_lt_of_lt hidx)

/-- The slots have room for their metadata, and `get_slot` computes their offsets without
overflow. -/
structure SlotsFit (slotSize slotCount : ℕ) : Prop where
  /-- A slot has room for its metadata. -/
  slotSize_ge : sizeOfSlotMetadata ≤ slotSize
  /-- Its offset is a `usize`. -/
  offset_lt : ∀ idx < slotCount, sizeOfRingHeader + idx * slotSize < 2^64

instance (slotSize slotCount : ℕ) : Decidable (SlotsFit slotSize slotCount) :=
  decidable_of_iff (sizeOfSlotMetadata ≤ slotSize ∧
    ∀ idx < slotCount, sizeOfRingHeader + idx * slotSize < 2^64)
    ⟨fun h => ⟨h.1, h.2⟩, fun h => ⟨h.1, h.2⟩⟩

namespace SlotsFit

variable {slotSize slotCount idx : ℕ}

/-- `get_slot` at an index below the slot count. -/
theorem getSlot_eq (h : SlotsFit slotSize slotCount) {header : RingHeader}
    (hcount : header.slotCount = slotCount) (hidx : idx < slotCount) :
    getSlot header idx slotSize =
      .ok ⟨idx, sizeOfRingHeader + idx * slotSize, slotSize - sizeOfSlotMetadata⟩ := by
  have hoffset := h.offset_lt idx hidx
  have hmul : idx * slotSize < 2^64 := by omega
  unfold getSlot
  rw [if_pos (by rwa [hcount]), mulUsize_eq hmul, ok_bind, addUsize_eq hoffset, ok_bind, subUsize,
    if_pos h.slotSize_ge]
  rfl

/-- The index after that of a slot. -/
theorem nextIdx_eq (h : SlotsFit slotSize slotCount) {header : RingHeader}
    (hcount : header.slotCount = slotCount) (hidx : idx < slotCount) :
    nextIdx idx header.slotCount = .ok ((idx + 1) % header.slotCount) :=
  nextIdx_of_getSlot (h.getSlot_eq hcount hidx)

end SlotsFit

/-- The loop of `create` that resets every slot. -/
def resetSlots (slotSize : ℕ) (m : RingMemory) : Except Fault RingMemory :=
  (List.range m.header.slotCount).foldlM (fun m i => do
    let slot ← getSlot m.header i slotSize
    return m.setSlot slot.idx (m.slots slot.idx).reset) m

/-- The initialization of a fresh file, all zeros, by `create` and `create_numa_aware`. They differ
in what they add to the header before the producer is registered. -/
def initFile (options : RingBufferOptions) (now : ℕ) (extend : RingHeader → RingHeader) :
    Except Fault (RingMemory × RingBuffer) := do
  let header ← RingHeader.new options.size options.slotSize now
  let m ← resetSlots options.slotSize {
    header := (extend header).registerProducer
    slots := fun _ => Slot.zeroed (options.slotSize - sizeOfSlotMetadata) }
  return (m, { size := options.size, slotSize := options.slotSize, isProducer := true })

/-- `RingBuffer::create`. -/
def create (options : RingBufferOptions) (now : ℕ) : Except Fault (RingMemory × RingBuffer) :=
  initFile options now id

/-- The arguments of the `mbind` system call. -/
structure Mbind where
  /-- The length of the region. -/
  len : ℕ
  /-- The memory policy. -/
  mode : ℕ
  /-- The mask of nodes. -/
  mask : ℕ
  /-- The number of bits of the mask. -/
  maxNode : ℕ
  /-- The flags. -/
  flags : ℕ
  deriving DecidableEq, Repr

/-- `RingBuffer::create_numa_aware` on a machine with the topology `cpuInfo`, with the memory-policy
call that it makes. The result of that call is only logged. -/
def createNumaAware (cpuInfo : Arch.CpuInfo) (options : RingBufferOptions) (numaNode now : ℕ) :
    Except Fault ((RingMemory × RingBuffer) × Option Mbind) := do
  if ¬ cpuInfo.numaAvailable ∨ numaNode ≥ cpuInfo.numaNodes.length then
    return (← create options now, none)
  else if numaNode ≥ 64 then throw (.panic .shiftLeftOverflow)
  else
    let mbind : Mbind :=
      { len := options.size, mode := 2, mask := 2^numaNode, maxNode := 64, flags := 1 }
    return (← initFile options now fun header => { header with numaNode := numaNode % 2^32 },
      some mbind)

/-- `RingBuffer::open`. A mismatch with the options is only reported. -/
def openRing (header : RingHeader) (_options : RingBufferOptions) : Except Fault RingBuffer := do
  if header.validate then
    return { size := header.size, slotSize := header.slotSize, isProducer := false }
  else throw (.err .invalidHeader)

/-- `RingBuffer::max_payload_size`. -/
def maxPayloadSize (rb : RingBuffer) : Except Fault ℕ := subUsize rb.slotSize sizeOfSlotMetadata

/-- `max_attempts` of `wait_for_slot`. -/
def maxAttempts : ℕ := 10

/-- `available_slots` of `wait_for_slot`. -/
def availableSlots (slotCount producerIdx consumerIdx : ℕ) : Except Fault ℕ := do
  if producerIdx ≥ consumerIdx then
    subUsize slotCount (← subUsize producerIdx consumerIdx)
  else
    subUsize consumerIdx producerIdx

/-- One attempt of the loop of `wait_for_slot`: the slot that it claimed and reset, if it claimed an
available one. -/
def tryClaim (rb : RingBuffer) : RingM (Option ℕ) := do
  let m ← get
  let available ← RingM.liftExcept
    (availableSlots m.header.slotCount m.header.producerIdx m.header.consumerIdx)
  if available > 0 then
    let slotIdx ← nextProducerIdx
    let m ← get
    let slot ← RingM.liftExcept (getSlot m.header slotIdx rb.slotSize)
    if (m.slots slot.idx).available then
      modify fun m => m.setSlot slot.idx (m.slots slot.idx).reset
      return some slotIdx
    else return none
  else return none

/-- The loop of `wait_for_slot`, with the number of attempts that are left after the next one. -/
def waitForSlotLoop (rb : RingBuffer) : ℕ → RingM ℕ
  | 0 => do
    match ← tryClaim rb with
    | some slotIdx => return slotIdx
    | none => throw (.err (.ringBufferFull maxAttempts))
  | attempts + 1 => do
    match ← tryClaim rb with
    | some slotIdx => return slotIdx
    | none => waitForSlotLoop rb attempts

/-- `RingBuffer::wait_for_slot`. -/
def waitForSlot (rb : RingBuffer) : RingM ℕ := waitForSlotLoop rb maxAttempts

/-- A call of `write`: its arguments, and what the environment supplies to it. -/
structure WriteCall where
  /-- The kind of the operation. -/
  kind : OperationKind
  /-- The payload. -/
  data : List UInt8
  /-- What `Uuid::new_v4` gives. -/
  id : Uuid
  /-- What the system clock gives. -/
  now : UInt64
  deriving DecidableEq

/-- The message that a call writes. -/
def WriteCall.message (call : WriteCall) : Message := ⟨call.kind, call.data⟩

/-- The stores of a call of `write` to its slot, from `wait_for_slot`'s return on, once the length
check of `write_data` has passed. -/
def WriteCall.stores (call : WriteCall) : List Store :=
  .operation call.kind :: Slot.setId call.id ++ Slot.writeDataStores call.data call.now

/-- `Slot::write_data` on a slot whose payload area has `dataSize` bytes. -/
def Slot.writeData (dataSize : ℕ) (call : WriteCall) (slot : Slot) : Except Fault Slot :=
  if call.data.length > dataSize then .error (.err .dataTooLarge)
  else .ok (slot.storeAll (writeDataStores call.data call.now))

/-- `RingBuffer::write`. -/
def write (rb : RingBuffer) (call : WriteCall) : RingM ℕ := do
  if call.data.length > (← RingM.liftExcept (maxPayloadSize rb)) then
    throw (.err .dataTooLarge)
  let slotIdx ← waitForSlot rb
  let m ← get
  let slot ← RingM.liftExcept (getSlot m.header slotIdx rb.slotSize)
  let contents := (m.slots slot.idx).storeAll (.operation call.kind :: Slot.setId call.id)
  set (m.setSlot slot.idx contents)
  let written ← RingM.liftExcept (contents.writeData slot.dataSize call)
  modify fun m => m.setSlot slot.idx written
  return slotIdx

/-- `RingBuffer::read`. -/
def read (rb : RingBuffer) : RingM (Option Message) := do
  let m ← get
  if m.header.producerIdx = m.header.consumerIdx then return none
  let slotIdx ← nextConsumerIdx
  let m ← get
  let slot ← RingM.liftExcept (getSlot m.header slotIdx rb.slotSize)
  if (m.slots slot.idx).getStatus = .ready then
    let kind := (m.slots slot.idx).getOperation
    let (data, contents) := (m.slots slot.idx).readData slot.dataSize
    set (m.setSlot slot.idx contents)
    if let some data := data then
      modify RingMemory.incrementCompleted
      return some ⟨kind, data⟩
  modify fun m => m.setSlot slot.idx (m.slots slot.idx).reset
  return none

end Elgate.Ring
