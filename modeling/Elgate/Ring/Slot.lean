import Mathlib.Algebra.Group.Nat.Defs
import Mathlib.Data.List.Basic
import Mathlib.Logic.Function.Basic

/-!
# Slots of the ring buffer

`src/ring/slot.rs`. A `Slot` is what a slot's memory contains: the raw words of its `SlotMetadata`
and the bytes of its payload area. Any process can write the file, so the words are not decoded:
`getStatus` and `getOperation` decode them as the accessors `status()` and `operation()` do.

A method that only stores is the list of its stores in program order, one `Store` for each atomic
store and one for the copy of the payload. Without interference the method runs them all
(`Slot.storeAll`); a thread that other threads interrupt runs them one at a time.
-/

namespace Elgate.Ring

/-- Status of a slot in the ring buffer. -/
inductive SlotStatus
  | empty
  | writing
  | ready
  | reading
  | complete
  deriving DecidableEq, Repr

/-- The discriminant that `set_status` stores. -/
def SlotStatus.toWord : SlotStatus → UInt32
  | empty => 0
  | writing => 1
  | ready => 2
  | reading => 3
  | complete => 4

/-- The decoder of `Slot::status`: an unknown word reads as `Empty`. -/
def SlotStatus.ofWord (status : UInt32) : SlotStatus :=
  if status = 0 then empty
  else if status = 1 then writing
  else if status = 2 then ready
  else if status = 3 then reading
  else if status = 4 then complete
  else empty

/-- A stored status decodes to itself. -/
@[simp]
theorem SlotStatus.ofWord_toWord (status : SlotStatus) : ofWord status.toWord = status := by
  cases status <;> rfl

/-- Kind of operation stored in a slot. -/
inductive OperationKind
  | none
  | diskWrite
  | diskRead
  | networkSend
  | networkReceive
  | networkClose
  | custom
  deriving DecidableEq, Repr

/-- The discriminant that `set_operation` stores. -/
def OperationKind.toWord : OperationKind → UInt32
  | none => 0
  | diskWrite => 1
  | diskRead => 2
  | networkSend => 3
  | networkReceive => 4
  | networkClose => 5
  | custom => 100

/-- The decoder of `Slot::operation`: an unknown word reads as `None`. -/
def OperationKind.ofWord (operation : UInt32) : OperationKind :=
  if operation = 0 then none
  else if operation = 1 then diskWrite
  else if operation = 2 then diskRead
  else if operation = 3 then networkSend
  else if operation = 4 then networkReceive
  else if operation = 5 then networkClose
  else if operation = 100 then custom
  else none

/-- A stored kind decodes to itself. -/
@[simp]
theorem OperationKind.ofWord_toWord (kind : OperationKind) : ofWord kind.toWord = kind := by
  cases kind <;> rfl

/-- A UUID, as its 16 bytes. -/
structure Uuid where
  /-- The bytes, most significant first. -/
  bytes : Vector UInt8 16
  deriving DecidableEq

/-- `Uuid::nil`. -/
def Uuid.nil : Uuid := ⟨Vector.replicate 16 0⟩

/-- `u32::from_be_bytes`. -/
def fromBeBytes (b0 b1 b2 b3 : UInt8) : UInt32 :=
  UInt32.ofNat (b0.toNat * 2^24 + b1.toNat * 2^16 + b2.toNat * 2^8 + b3.toNat)

/-- What a reader receives and a writer hands over: the kind of the operation and its payload. -/
structure Message where
  /-- The kind of the operation. -/
  kind : OperationKind
  /-- The payload. -/
  data : List UInt8
  deriving DecidableEq, Repr

/-- Metadata of a slot, as the words in memory. The reserved words are never accessed. -/
structure SlotMetadata where
  /-- Status of the slot. -/
  status : UInt32
  /-- Kind of operation. -/
  operation : UInt32
  /-- Size of the payload in bytes. -/
  size : ℕ
  /-- Operation ID, as four big-endian words. -/
  id : Fin 4 → UInt32
  /-- Timestamp when the operation was created. -/
  timestamp : UInt64

/-- The memory of a slot: its metadata and its payload area. -/
structure Slot extends SlotMetadata where
  /-- The bytes of the payload area. -/
  data : List UInt8

/-- `size_of::<SlotMetadata>()`: 48 bytes of fields, aligned to 64. -/
def sizeOfSlotMetadata : ℕ := 64

namespace Slot

/-- `Slot::status`. -/
def getStatus (slot : Slot) : SlotStatus := SlotStatus.ofWord slot.status

/-- `Slot::operation`. -/
def getOperation (slot : Slot) : OperationKind := OperationKind.ofWord slot.operation

/-- The slot of a file that `set_len` has just extended. -/
def zeroed (dataSize : ℕ) : Slot where
  status := 0
  operation := 0
  size := 0
  id := fun _ => 0
  timestamp := 0
  data := List.replicate dataSize 0

end Slot

/-- One indivisible store to a slot. -/
inductive Store
  /-- `set_status`. -/
  | status (status : SlotStatus)
  /-- `set_operation`. -/
  | operation (operation : OperationKind)
  /-- `set_size`. -/
  | size (size : ℕ)
  /-- One of the four stores of `set_id`. -/
  | id (word : Fin 4) (value : UInt32)
  /-- `set_timestamp`. -/
  | timestamp (timestamp : UInt64)
  /-- `copy_nonoverlapping` of a whole payload into the payload area. -/
  | payload (data : List UInt8)
  deriving DecidableEq

/-- The store is to the kind or to the size of the payload, and the later one is to the same. -/
def Store.OverwrittenBy : Store → Store → Prop
  | .operation _, .operation _ => True
  | .size _, .size _ => True
  | _, _ => False

instance (st later : Store) : Decidable (st.OverwrittenBy later) := by
  unfold Store.OverwrittenBy
  split <;> infer_instance

/-- The store is to the kind or to the size of the payload. -/
def Store.Erases (st : Store) : Prop := st.OverwrittenBy st

instance (st : Store) : Decidable st.Erases := inferInstanceAs (Decidable (st.OverwrittenBy st))

namespace Slot

/-- The slot after a store. -/
def store (slot : Slot) : Store → Slot
  | .status status => { slot with status := status.toWord }
  | .operation operation => { slot with operation := operation.toWord }
  | .size size => { slot with size := size }
  | .id word value => { slot with id := Function.update slot.id word value }
  | .timestamp timestamp => { slot with timestamp := timestamp }
  | .payload data => { slot with data := data ++ slot.data.drop data.length }

/-- The slot after stores in program order. -/
def storeAll (slot : Slot) (stores : List Store) : Slot := stores.foldl store slot

@[simp]
theorem storeAll_nil (slot : Slot) : slot.storeAll [] = slot := rfl

@[simp]
theorem storeAll_cons (slot : Slot) (st : Store) (rest : List Store) :
    slot.storeAll (st :: rest) = (slot.store st).storeAll rest := rfl

theorem storeAll_append (slot : Slot) (l l' : List Store) :
    slot.storeAll (l ++ l') = (slot.storeAll l).storeAll l' := List.foldl_append

/-- The stores of `Slot::set_id`. -/
def setId (id : Uuid) : List Store :=
  [.id 0 (fromBeBytes id.bytes[0] id.bytes[1] id.bytes[2] id.bytes[3]),
    .id 1 (fromBeBytes id.bytes[4] id.bytes[5] id.bytes[6] id.bytes[7]),
    .id 2 (fromBeBytes id.bytes[8] id.bytes[9] id.bytes[10] id.bytes[11]),
    .id 3 (fromBeBytes id.bytes[12] id.bytes[13] id.bytes[14] id.bytes[15])]

/-- The stores of `Slot::reset`. -/
def resetStores : List Store :=
  [.status .empty, .operation .none, .size 0] ++ setId Uuid.nil ++ [.timestamp 0]

/-- The stores of `Slot::write_data`, once its length check has passed. `now` is what the system
clock gave. -/
def writeDataStores (data : List UInt8) (now : UInt64) : List Store :=
  [.status .writing, .size data.length, .timestamp now, .payload data, .status .ready]

/-- `Slot::reset`. -/
def reset (slot : Slot) : Slot := slot.storeAll resetStores

/-- `Slot::read_data` on a slot whose payload area has `dataSize` bytes: the payload, and the slot
afterwards. -/
def readData (dataSize : ℕ) (slot : Slot) : Option (List UInt8) × Slot :=
  if slot.getStatus ≠ .ready then (none, slot)
  else
    let slot := slot.store (.status .reading)
    let size := slot.size
    if size > dataSize then (none, slot.store (.status .complete))
    else (some (slot.data.take size), slot.store (.status .complete))

/-- `wait_for_slot` takes a slot that reads as `Empty` or `Complete`. -/
def available (slot : Slot) : Bool := slot.getStatus == .empty || slot.getStatus == .complete

/-- The slot's kind, size, and payload are those of the message. -/
structure Contains (slot : Slot) (msg : Message) : Prop where
  /-- The kind decodes to the message's. -/
  operation : slot.getOperation = msg.kind
  /-- The size is the length of the payload. -/
  size : slot.size = msg.data.length
  /-- The payload area starts with the payload. -/
  data : slot.data.take msg.data.length = msg.data

/-- The slot is ready to be read and contains the message. -/
structure Holds (slot : Slot) (msg : Message) : Prop extends Contains slot msg where
  /-- The slot is ready to be read. -/
  ready : slot.getStatus = .ready

/-! ## What a store changes -/

@[simp]
theorem getStatus_store_status (slot : Slot) (status : SlotStatus) :
    (slot.store (.status status)).getStatus = status := by
  simp [store, getStatus]

/-- A status store leaves the message. -/
theorem contains_store_status {slot : Slot} {msg : Message} (h : slot.Contains msg)
    (status : SlotStatus) : (slot.store (.status status)).Contains msg :=
  ⟨h.operation, h.size, h.data⟩

/-- A slot whose payload has been taken is available. -/
theorem available_store_complete (slot : Slot) :
    (slot.store (.status .complete)).available = true := by
  rfl

/-- A slot that is ready is not available. -/
theorem Holds.not_available {slot : Slot} {msg : Message} (h : slot.Holds msg) :
    slot.available = false := by
  simp [available, h.ready]

/-- `reset` leaves an empty slot. -/
@[simp]
theorem getStatus_reset (slot : Slot) : slot.reset.getStatus = .empty := by
  rfl

/-- `reset` overwrites the status, so it does not depend on the one before. -/
theorem reset_store_status (slot : Slot) (status : SlotStatus) :
    (slot.store (.status status)).reset = slot.reset := rfl

/-- `reset` clears the metadata and leaves the payload area. -/
theorem reset_eq (slot : Slot) : slot.reset = { zeroed 0 with data := slot.data } := by
  simp only [reset, resetStores, setId, zeroed, storeAll, store, List.cons_append, List.nil_append,
    List.foldl_cons, List.foldl_nil]
  congr 2
  funext i
  match i with
  | 0 | 1 | 2 | 3 => rfl

/-- Resetting a slot of a fresh file changes nothing. -/
theorem reset_zeroed (dataSize : ℕ) : (zeroed dataSize).reset = zeroed dataSize :=
  reset_eq (zeroed dataSize)

/-! ## What stores leave of a message -/

section
variable {α : Type} (field : Slot → α)

/-- The field after stores depends on no other field of the slot before them. -/
theorem storeAll_congr
    (hfield : ∀ st slot slot', field slot = field slot' → field (store slot st) =
      field (store slot' st)) (stores : List Store) {slot slot' : Slot}
    (h : field slot = field slot') :
    field (slot.storeAll stores) = field (slot'.storeAll stores) := by
  induction stores generalizing slot slot' with
  | nil => exact h
  | cons st rest ih => exact ih (hfield st slot slot' h)

/-- The field after stores does not depend on the slot before them, when one of them overwrites
it. -/
theorem storeAll_of_mem
    (hfield : ∀ st slot slot', field slot = field slot' → field (store slot st) =
      field (store slot' st)) {stores : List Store} {st : Store} (hst : st ∈ stores)
    (hover : ∀ slot slot', field (store slot st) = field (store slot' st)) (slot slot' : Slot) :
    field (slot.storeAll stores) = field (slot'.storeAll stores) := by
  obtain ⟨l, l', rfl⟩ := List.append_of_mem hst
  rw [storeAll_append, storeAll_append]
  exact storeAll_congr field hfield l' (hover _ _)

end

/-- Any store treats equal kinds alike. -/
theorem operation_store (st : Store) (slot slot' : Slot) (h : slot.operation = slot'.operation) :
    (slot.store st).operation = (slot'.store st).operation := by
  cases st <;> first | exact h | rfl

/-- Any store treats equal sizes alike. -/
theorem size_store (st : Store) (slot slot' : Slot) (h : slot.size = slot'.size) :
    (slot.store st).size = (slot'.store st).size := by
  cases st <;> first | exact h | rfl

/-- Any store treats equal payload areas alike. -/
theorem data_store (st : Store) (slot slot' : Slot) (h : slot.data = slot'.data) :
    (slot.store st).data = (slot'.store st).data := by
  cases st with
  | payload data => simp only [store, h]
  | status | operation | size | id | timestamp => exact h

/-- What a slot contains depends on its kind, its size, and its payload area. -/
theorem Contains.congr {slot slot' : Slot} {msg : Message} (h : slot.Contains msg)
    (hop : slot'.operation = slot.operation) (hsize : slot'.size = slot.size)
    (hdata : slot'.data = slot.data) : slot'.Contains msg where
  operation := by rw [getOperation, hop]; exact h.operation
  size := by rw [hsize, h.size]
  data := by rw [hdata, h.data]

/-- A store of `reset` before the stores of a message does not change what they leave, when it is
not to the kind or the size or is overwritten by one of them. -/
theorem contains_storeAll_store {slot : Slot} {stores : List Store} {msg : Message} {st : Store}
    (h : (slot.storeAll stores).Contains msg) (hreset : st ∈ resetStores)
    (hover : st.Erases → ∃ later ∈ stores, st.OverwrittenBy later) :
    ((slot.store st).storeAll stores).Contains msg := by
  have hop : ∀ {slot' : Slot}, slot'.operation = slot.operation →
      (slot'.storeAll stores).operation = (slot.storeAll stores).operation :=
    storeAll_congr (fun slot => slot.operation) operation_store stores
  have hsize : ∀ {slot' : Slot}, slot'.size = slot.size →
      (slot'.storeAll stores).size = (slot.storeAll stores).size :=
    storeAll_congr (fun slot => slot.size) size_store stores
  have hdata : ∀ {slot' : Slot}, slot'.data = slot.data →
      (slot'.storeAll stores).data = (slot.storeAll stores).data :=
    storeAll_congr (fun slot => slot.data) data_store stores
  cases st with
  | operation kind =>
    obtain ⟨later, hmem, hlater⟩ := hover trivial
    cases later with
    | operation kind' =>
      exact h.congr (storeAll_of_mem (fun slot => slot.operation) operation_store hmem
        (fun _ _ => rfl) _ _) (hsize rfl) (hdata rfl)
    | _ => exact hlater.elim
  | size size =>
    obtain ⟨later, hmem, hlater⟩ := hover trivial
    cases later with
    | size size' =>
      exact h.congr (hop rfl) (storeAll_of_mem (fun slot => slot.size) size_store hmem
        (fun _ _ => rfl) _ _) (hdata rfl)
    | _ => exact hlater.elim
  | status | id | timestamp => exact h.congr (hop rfl) (hsize rfl) (hdata rfl)
  | payload data => simp [resetStores, setId] at hreset

end Slot

end Elgate.Ring
