import Elgate.Ring.Mapping

/-!
# The header as bytes of the mapped file

The words of `RingHeader`, at the offsets that `repr(C)` gives them. `RingHeader.ofBytes` decodes
the bytes at the start of the file, and `RingHeader.toBytes` is what `create` writes there. They are
inverse to each other (`RingHeader.ofBytes_toBytes`), and a store to one word changes that word only
(`RingHeader.ofBytes_splice`).
-/

namespace Elgate.Ring

open Bytes Region

/-- A word of the header. -/
inductive HeaderField
  | magic
  | version
  | size
  | slotSize
  | slotCount
  | producerIdx
  | consumerIdx
  | activeProducers
  | operationsCompleted
  | createdAt
  | numaNode
  deriving DecidableEq, Repr

/-- The offset of the word. -/
def HeaderField.offset : HeaderField → ℕ
  | magic => 0
  | version => 8
  | size => 16
  | slotSize => 24
  | slotCount => 32
  | producerIdx => 40
  | consumerIdx => 48
  | activeProducers => 56
  | operationsCompleted => 64
  | createdAt => 72
  | numaNode => 80

/-- The number of its bytes. -/
def HeaderField.width : HeaderField → ℕ
  | numaNode => 4
  | _ => 8

/-- The bytes of the word. -/
def HeaderField.region (field : HeaderField) : Region := ⟨field.offset, field.width⟩

/-- `HEADER_PADDING_SIZE`. -/
def headerPaddingSize : ℕ := 64

namespace RingHeader

/-- A word of the header. -/
def word (header : RingHeader) : HeaderField → ℕ
  | .magic => header.magic
  | .version => header.version
  | .size => header.size
  | .slotSize => header.slotSize
  | .slotCount => header.slotCount
  | .producerIdx => header.producerIdx
  | .consumerIdx => header.consumerIdx
  | .activeProducers => header.activeProducers
  | .operationsCompleted => header.operationsCompleted
  | .createdAt => header.createdAt
  | .numaNode => header.numaNode

/-- The header with these words. -/
def ofWords (word : HeaderField → ℕ) : RingHeader where
  magic := word .magic
  version := word .version
  size := word .size
  slotSize := word .slotSize
  slotCount := word .slotCount
  producerIdx := word .producerIdx
  consumerIdx := word .consumerIdx
  activeProducers := word .activeProducers
  operationsCompleted := word .operationsCompleted
  createdAt := word .createdAt
  numaNode := word .numaNode

/-- What the bytes at the start of a file say. -/
def ofBytes (order : ByteOrder) (bytes : List UInt8) : RingHeader :=
  ofWords fun field => order.decode (slice bytes field.offset field.width)

/-- The header in memory. The bytes that align its size to 64 may be any (`tail`). -/
def toBytes (order : ByteOrder) (header : RingHeader) (tail : Vector UInt8 44) : List UInt8 :=
  order.encode 8 header.magic ++ order.encode 8 header.version ++ order.encode 8 header.size ++
    order.encode 8 header.slotSize ++ order.encode 8 header.slotCount ++
    order.encode 8 header.producerIdx ++ order.encode 8 header.consumerIdx ++
    order.encode 8 header.activeProducers ++ order.encode 8 header.operationsCompleted ++
    order.encode 8 header.createdAt ++ order.encode 4 header.numaNode ++
    List.replicate headerPaddingSize 0 ++ tail.toList

/-- The words fit in their fields. -/
def Fits (header : RingHeader) : Prop := ∀ field, header.word field < 256 ^ field.width

variable {order : ByteOrder} {header : RingHeader} {bytes : List UInt8}

@[simp]
theorem word_ofWords (word : HeaderField → ℕ) (field : HeaderField) :
    (ofWords word).word field = word field := by
  cases field <;> rfl

@[simp]
theorem ofWords_word (header : RingHeader) : ofWords header.word = header := rfl

/-- The header has 192 bytes. -/
@[simp]
theorem length_toBytes (order : ByteOrder) (header : RingHeader) (tail : Vector UInt8 44) :
    (toBytes order header tail).length = sizeOfRingHeader := by
  simp [toBytes, headerPaddingSize, sizeOfRingHeader]

/-- Each word is at its offset. -/
theorem slice_toBytes (order : ByteOrder) (header : RingHeader) (tail : Vector UInt8 44)
    (field : HeaderField) :
    slice (toBytes order header tail) field.offset field.width =
      order.encode field.width (header.word field) := by
  cases field <;>
    simp [slice, toBytes, HeaderField.offset, HeaderField.width, word, List.drop_append,
      List.drop_eq_nil_of_le]

/-- The header reads back. -/
theorem ofBytes_toBytes (hfits : header.Fits) (tail : Vector UInt8 44) (rest : List UInt8) :
    ofBytes order (toBytes order header tail ++ rest) = header := by
  have hword : ∀ field : HeaderField,
      order.decode (slice (toBytes order header tail ++ rest) field.offset field.width) =
        header.word field := by
    intro field
    have hin : field.offset + field.width ≤ (toBytes order header tail).length := by
      rw [length_toBytes]
      cases field <;> decide
    have hslice : slice (toBytes order header tail ++ rest) field.offset field.width =
        slice (toBytes order header tail) field.offset field.width := by
      refine slice_congr fun i hi => List.getElem?_append_left ?_
      omega
    rw [hslice, slice_toBytes, order.decode_encode (hfits field)]
  calc ofBytes order (toBytes order header tail ++ rest) = ofWords header.word :=
        congrArg ofWords (funext hword)
    _ = header := ofWords_word header

end RingHeader

/-- Different words have no byte in common. -/
theorem HeaderField.disjoint {field field' : HeaderField} (h : field' ≠ field) :
    field'.offset + field'.width ≤ field.offset ∨ field.offset + field.width ≤ field'.offset := by
  cases field <;> cases field' <;> first | exact absurd rfl h | decide

/-- Every word is in the header. -/
theorem HeaderField.inside (field : HeaderField) : field.offset + field.width ≤ 84 := by
  cases field <;> decide

/-- The header with one word replaced. -/
def RingHeader.setWord (header : RingHeader) (field : HeaderField) (x : ℕ) : RingHeader :=
  ofWords (Function.update header.word field x)

/-- A store to a word changes that word only. -/
theorem RingHeader.ofBytes_splice {order : ByteOrder} {bytes : List UInt8} {field : HeaderField}
    {x : ℕ} (h : sizeOfRingHeader ≤ bytes.length) (hx : x < 256 ^ field.width) :
    ofBytes order (splice bytes field.offset (order.encode field.width x)) =
      (ofBytes order bytes).setWord field x := by
  have hin : field.offset ≤ bytes.length := by
    have hfield := field.inside
    unfold sizeOfRingHeader at h
    omega
  unfold setWord ofBytes
  congr 1
  funext field'
  rw [show (ofWords fun field => order.decode (slice bytes field.offset field.width)).word =
    fun field => order.decode (slice bytes field.offset field.width) from
      funext fun field => word_ofWords _ field]
  by_cases heq : field' = field
  · subst heq
    rw [Function.update_self, decode_splice hin hx]
  · rw [Function.update_of_ne heq, decode_splice_of_disjoint hin (HeaderField.disjoint heq)]

/-! ## Loads and stores -/

namespace Mapping

/-- Bytes loaded from an offset, when they lie within the mapping: elsewhere a load is undefined. -/
def get (m : Mapping) (off len : ℕ) : Option (List UInt8) :=
  if off + len ≤ m.bytes.length then some (slice m.bytes off len) else none

variable (order : ByteOrder)

/-- What the bytes say of the header. -/
def header (m : Mapping) : RingHeader := RingHeader.ofBytes order m.bytes

/-- `load` of a word of the header. -/
def load (m : Mapping) (field : HeaderField) : Option ℕ :=
  (m.get field.offset field.width).map order.decode

/-- A store to a word of the header. -/
def storeWord (m : Mapping) (field : HeaderField) (x : ℕ) : Option Mapping :=
  m.put field.offset (order.encode field.width x)

/-- `compare_exchange_weak` on a word of the header: `Ok` with the old value when it was `current`
and the exchange has not failed spuriously, and `Err` with it otherwise. -/
def compareExchangeWeak (m : Mapping) (field : HeaderField) (current next : ℕ) (spurious : Bool) :
    Option (Except ℕ ℕ × Mapping) := do
  let actual ← m.load order field
  if actual = current ∧ spurious = false then
    let m ← m.storeWord order field next
    some (.ok actual, m)
  else some (.error actual, m)

/-- `fetch_add` on a word of the header of 64 bits. -/
def fetchAdd (m : Mapping) (field : HeaderField) (n : ℕ) : Option Mapping := do
  let x ← m.load order field
  m.storeWord order field ((x + n) % 2^64)

/-- `Slot::status`. -/
def loadStatus (m : Mapping) (ref : SlotRef) : Option SlotStatus :=
  (m.get ref.offset 4).map fun bytes => .ofWord (.ofNat (order.decode bytes))

/-- `Slot::operation`. -/
def loadOperation (m : Mapping) (ref : SlotRef) : Option OperationKind :=
  (m.get (ref.offset + 4) 4).map fun bytes => .ofWord (.ofNat (order.decode bytes))

/-- `Slot::size`. -/
def loadSize (m : Mapping) (ref : SlotRef) : Option ℕ :=
  (m.get (ref.offset + 8) 8).map order.decode

/-- The copy of a payload. -/
def loadPayload (m : Mapping) (ref : SlotRef) (size : ℕ) : Option (List UInt8) :=
  m.get (ref.offset + sizeOfSlotMetadata) size

variable {order} {m m' : Mapping} {field : HeaderField} {ref : SlotRef} {x : ℕ}

/-- A load of a word of the header. -/
theorem load_eq (order : ByteOrder) (h : sizeOfRingHeader ≤ m.bytes.length) (field : HeaderField) :
    m.load order field = some ((m.header order).word field) := by
  have hin : field.offset + field.width ≤ m.bytes.length := by
    have hfield := field.inside
    unfold sizeOfRingHeader at h
    omega
  unfold load get header RingHeader.ofBytes
  rw [if_pos hin, RingHeader.word_ofWords]
  rfl

/-- The words that the bytes spell fit in their fields. -/
theorem fits_header (order : ByteOrder) (h : sizeOfRingHeader ≤ m.bytes.length) :
    (m.header order).Fits := by
  intro field
  have hin : field.offset + field.width ≤ m.bytes.length := by
    have hfield := field.inside
    unfold sizeOfRingHeader at h
    omega
  have hlt := order.decode_lt (slice m.bytes field.offset field.width)
  rw [length_slice hin] at hlt
  unfold Mapping.header RingHeader.ofBytes
  rwa [RingHeader.word_ofWords]

/-- A store to a word of the header changes the word. -/
theorem storeWord_eq (order : ByteOrder) (h : sizeOfRingHeader ≤ m.bytes.length)
    (hx : x < 256 ^ field.width) :
    ∃ m', m.storeWord order field x = some m' ∧ SameOutside field.region m m' ∧
      m'.header order = (m.header order).setWord field x := by
  have hin : field.offset + (order.encode field.width x).length ≤ m.bytes.length := by
    have hfield := field.inside
    unfold sizeOfRingHeader at h
    rw [ByteOrder.length_encode]
    omega
  refine ⟨_, dif_pos hin, ⟨length_splice hin, fun k hk => ?_⟩, RingHeader.ofBytes_splice h hx⟩
  unfold HeaderField.region at hk
  rw [mem_iff] at hk
  dsimp only at hk ⊢
  rw [getElem?_splice (by omega), ByteOrder.length_encode, if_neg hk]

/-- A change outside the words of the header leaves the header. -/
theorem SameOutside.header {r : Region} (h : SameOutside r m m') (hdisj : 84 ≤ r.start)
    (order : ByteOrder) :
    m'.header order = m.header order := by
  unfold Mapping.header RingHeader.ofBytes
  congr 1
  funext field
  have hfield := field.inside
  congr 1
  refine slice_congr fun i hi => h.bytes _ fun hmem => ?_
  rw [mem_iff] at hmem
  omega

/-- A part of a slot within the mapping. -/
theorem get_slot (hin : ref.region.Inside m.bytes.length) {off len : ℕ}
    (hle : off + len ≤ ref.region.len) :
    m.get (ref.offset + off) len =
      some (slice (slice m.bytes ref.region.start ref.region.len) off len) := by
  have hend : ref.offset + ref.region.len ≤ m.bytes.length := hin
  unfold get
  rw [if_pos (by omega)]
  congr 1
  unfold slice SlotRef.region
  dsimp only
  rw [List.drop_take, List.take_take, List.drop_drop, Nat.min_eq_left]
  exact Nat.le_sub_of_add_le (by rw [Nat.add_comm]; exact hle)

/-- The loads of a slot within the mapping are those of what its bytes contain. -/
theorem loads_slot (order : ByteOrder) (hin : ref.region.Inside m.bytes.length) :
    m.loadStatus order ref = some (m.slot order ref).getStatus ∧
      m.loadOperation order ref = some (m.slot order ref).getOperation ∧
      m.loadSize order ref = some (m.slot order ref).size := by
  have hlen : ref.region.len = sizeOfSlotMetadata + ref.dataSize := rfl
  unfold sizeOfSlotMetadata at hlen
  have hstatus := get_slot hin (show 0 + 4 ≤ ref.region.len by omega)
  have hoperation := get_slot hin (show 4 + 4 ≤ ref.region.len by omega)
  have hsize := get_slot hin (show 8 + 8 ≤ ref.region.len by omega)
  unfold loadStatus loadOperation loadSize
  rw [Nat.add_zero] at hstatus
  rw [hstatus, hoperation, hsize]
  exact ⟨rfl, rfl, rfl⟩

/-- So is the copy of a payload that fits. -/
theorem loadPayload_slot (order : ByteOrder) (hin : ref.region.Inside m.bytes.length) {size : ℕ}
    (hsize : size ≤ ref.dataSize) :
    m.loadPayload ref size = some ((m.slot order ref).data.take size) := by
  have hend : ref.offset + (sizeOfSlotMetadata + ref.dataSize) ≤ m.bytes.length := hin
  have hle : ref.offset + sizeOfSlotMetadata + size ≤ m.bytes.length := by omega
  unfold loadPayload get
  rw [if_pos hle, take_data m order hsize]

end Mapping

end Elgate.Ring
