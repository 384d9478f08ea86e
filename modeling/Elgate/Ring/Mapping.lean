import Elgate.Foundation.Bytes
import Elgate.Ring.Geometry
import Elgate.Ring.Machine

/-!
# Slots as bytes of the mapped file

The other modules take a slot's memory as a record of its words. Here the mapping is a list of
bytes, and each store of `src/ring/slot.rs` writes the bytes of its word at the field's offset, in
the byte order of the machine. Decoding the bytes of a slot after a store gives the record after the
store (`Mapping.store_slot`), and no byte outside the slot changes. `slot_codec` puts this together
with the offsets of `get_slot`.
-/

namespace Elgate.Ring

open Bytes Region

/-! ## The words of an operation ID -/

/-- `u32::to_be_bytes`. -/
def toBeBytes (word : UInt32) : List UInt8 := ByteOrder.big.encode 4 word.toNat

/-- `Uuid::from_slice`. -/
def Uuid.fromSlice (bytes : List UInt8) : Option Uuid :=
  if h : bytes.length = 16 then some ⟨⟨bytes.toArray, h⟩⟩ else none

/-- `Slot::id`. -/
def Slot.getId (slot : Slot) : Uuid :=
  (Uuid.fromSlice ((List.finRange 4).flatMap fun k => toBeBytes (slot.id k))).getD Uuid.nil

/-- The bytes of a big-endian word. -/
theorem toBeBytes_fromBeBytes (b0 b1 b2 b3 : UInt8) :
    toBeBytes (fromBeBytes b0 b1 b2 b3) = [b0, b1, b2, b3] := by
  have hword : (fromBeBytes b0 b1 b2 b3).toNat = ByteOrder.big.decode [b0, b1, b2, b3] := by
    have h0 := b0.toNat_lt
    have h1 := b1.toNat_lt
    have h2 := b2.toNat_lt
    have h3 := b3.toNat_lt
    rw [fromBeBytes, UInt32.toNat_ofNat']
    simp only [ByteOrder.decode, ofLeBytes, List.reverse_cons, List.reverse_nil, List.nil_append,
      List.cons_append]
    omega
  rw [toBeBytes, hword]
  exact ByteOrder.encode_decode .big [b0, b1, b2, b3]

/-- After `set_id`, `id` returns the UUID. -/
theorem Slot.getId_setId (slot : Slot) (id : Uuid) : (slot.storeAll (setId id)).getId = id := by
  have h0 : (slot.storeAll (setId id)).id 0 =
    fromBeBytes id.bytes[0] id.bytes[1] id.bytes[2] id.bytes[3] := rfl
  have h1 : (slot.storeAll (setId id)).id 1 =
    fromBeBytes id.bytes[4] id.bytes[5] id.bytes[6] id.bytes[7] := rfl
  have h2 : (slot.storeAll (setId id)).id 2 =
    fromBeBytes id.bytes[8] id.bytes[9] id.bytes[10] id.bytes[11] := rfl
  have h3 : (slot.storeAll (setId id)).id 3 =
    fromBeBytes id.bytes[12] id.bytes[13] id.bytes[14] id.bytes[15] := rfl
  have hwords : List.finRange 4 = [0, 1, 2, 3] := rfl
  have hbytes : (List.finRange 4).flatMap (fun k => toBeBytes ((slot.storeAll (setId id)).id k)) =
      id.bytes.toList := by
    rw [hwords]
    simp only [List.flatMap_cons, List.flatMap_nil, h0, h1, h2, h3, toBeBytes_fromBeBytes]
    calc _ = List.ofFn fun k : Fin 16 => id.bytes[k] := by
          simp only [List.ofFn_succ, List.ofFn_zero]
          rfl
      _ = id.bytes.toList := by
          rw [← Vector.toList_ofFn]
          exact congrArg Vector.toList Vector.ofFn_getElem
  rw [getId, hbytes, Uuid.fromSlice, dif_pos Vector.length_toList]
  rfl

/-! ## The mapping -/

/-- The bytes of a mapped file. Its length is a `usize`. -/
structure Mapping where
  /-- The bytes, from offset 0 on. -/
  bytes : List UInt8
  /-- The length is a `usize`. -/
  length_lt : bytes.length < 2^64

/-- Bytes stored at an offset, when they lie within the mapping: elsewhere a store is undefined. -/
def Mapping.put (m : Mapping) (off : ℕ) (new : List UInt8) : Option Mapping :=
  if h : off + new.length ≤ m.bytes.length then
    some ⟨splice m.bytes off new, by rw [length_splice h]; exact m.length_lt⟩
  else none

/-- The offset in a slot of what a store writes. -/
def Store.offset : Store → ℕ
  | .status _ => 0
  | .operation _ => 4
  | .size _ => 8
  | .id word _ => 16 + 4 * word
  | .timestamp _ => 32
  | .payload _ => sizeOfSlotMetadata

/-- The bytes that a store writes. -/
def Store.bytes (order : ByteOrder) : Store → List UInt8
  | .status s => order.encode 4 s.toWord.toNat
  | .operation kind => order.encode 4 kind.toWord.toNat
  | .size n => order.encode 8 n
  | .id _ value => order.encode 4 value.toNat
  | .timestamp now => order.encode 8 now.toNat
  | .payload data => data

/-- The bytes of the slot that the pointers of a `Slot` are for. -/
def SlotRef.region (slot : SlotRef) : Region := ⟨slot.offset, sizeOfSlotMetadata + slot.dataSize⟩

/-- What the bytes of a slot contain. -/
def Slot.ofBytes (order : ByteOrder) (bytes : List UInt8) : Slot where
  status := .ofNat (order.decode (slice bytes 0 4))
  operation := .ofNat (order.decode (slice bytes 4 4))
  size := order.decode (slice bytes 8 8)
  id := fun word => .ofNat (order.decode (slice bytes (16 + 4 * word) 4))
  timestamp := .ofNat (order.decode (slice bytes 32 8))
  data := bytes.drop sizeOfSlotMetadata

namespace Mapping

variable (order : ByteOrder)

/-- What a slot of the mapping contains. -/
def slot (m : Mapping) (slot : SlotRef) : Slot :=
  Slot.ofBytes order (slice m.bytes slot.region.start slot.region.len)

/-- One store to a slot. -/
def store (m : Mapping) (slot : SlotRef) (st : Store) : Option Mapping :=
  m.put (slot.offset + st.offset) (st.bytes order)

/-- Stores to a slot, in program order. -/
def storeAll (m : Mapping) (slot : SlotRef) (stores : List Store) : Option Mapping :=
  stores.foldlM (fun m st => m.store order slot st) m

/-- `Slot::write_data`. -/
def writeData (m : Mapping) (slot : SlotRef) (data : List UInt8) (now : UInt64) :
    Option (Except Fault Unit × Mapping) :=
  if data.length > slot.dataSize then some (.error (.err .dataTooLarge), m)
  else do
    let m ← m.storeAll order slot (Slot.writeDataStores data now)
    some (.ok (), m)

/-- `Slot::read_data`. -/
def readData (m : Mapping) (slot : SlotRef) : Option (Option (List UInt8) × Mapping) :=
  if (m.slot order slot).getStatus ≠ .ready then some (none, m)
  else do
    let m ← m.store order slot (.status .reading)
    let size := (m.slot order slot).size
    if size > slot.dataSize then
      let m ← m.store order slot (.status .complete)
      some (none, m)
    else
      let buffer := slice m.bytes (slot.offset + sizeOfSlotMetadata) size
      let m ← m.store order slot (.status .complete)
      some (some buffer, m)

/-- `reset`, `set_operation`, `set_id`, and `write_data` on a slot, with the arguments of a call of
`write`. -/
def fill (m : Mapping) (slot : SlotRef) (call : WriteCall) :
    Option (Except Fault Unit × Mapping) := do
  let m ← m.storeAll order slot Slot.resetStores
  let m ← m.store order slot (.operation call.kind)
  let m ← m.storeAll order slot (Slot.setId call.id)
  m.writeData order slot call.data call.now

end Mapping

/-! ## What a store does to the bytes of its slot -/

/-- The bytes of the store fit in their field. -/
def Store.Fits (dataSize : ℕ) : Store → Prop
  | .size n => n < 2^64
  | .payload data => data.length ≤ dataSize
  | _ => True

/-- What a store writes lies in its slot. -/
theorem Store.Fits.inside {dataSize : ℕ} {st : Store} (h : st.Fits dataSize) (order : ByteOrder) :
    st.offset + (st.bytes order).length ≤ sizeOfSlotMetadata + dataSize := by
  cases st with
  | payload data => exact Nat.add_le_add_left h sizeOfSlotMetadata
  | id word value =>
    have hword := word.isLt
    simp only [Store.bytes, Store.offset, ByteOrder.length_encode, sizeOfSlotMetadata]
    omega
  | status | operation | size | timestamp =>
    simp only [Store.bytes, Store.offset, ByteOrder.length_encode, sizeOfSlotMetadata]
    omega

section
variable {order : ByteOrder} {bytes : List UInt8} {off off' n len x : ℕ}

/-- The word that a store writes. -/
theorem decode_splice (h : off ≤ bytes.length) (hx : x < 256 ^ n) :
    order.decode (slice (splice bytes off (order.encode n x)) off n) = x := by
  have hslice : slice _ off (order.encode n x).length = order.encode n x := slice_splice h
  rw [ByteOrder.length_encode] at hslice
  rw [hslice, order.decode_encode hx]

/-- The words that it leaves alone. -/
theorem decode_splice_of_disjoint (h : off ≤ bytes.length)
    (hdisj : off' + len ≤ off ∨ off + n ≤ off') :
    order.decode (slice (splice bytes off (order.encode n x)) off' len) =
      order.decode (slice bytes off' len) := by
  rw [slice_splice_of_disjoint h (by rwa [ByteOrder.length_encode])]

/-- Nor does it write to the payload area. -/
theorem drop_splice_encode (h : off ≤ bytes.length) (hn : off + n ≤ 64) :
    (splice bytes off (order.encode n x)).drop 64 = bytes.drop 64 :=
  drop_splice_of_le h (by rwa [ByteOrder.length_encode])

end

/-- Decoding after a store gives the slot after the store. -/
theorem Slot.ofBytes_splice {order : ByteOrder} {bytes : List UInt8} {dataSize : ℕ} {st : Store}
    (h64 : sizeOfSlotMetadata ≤ bytes.length) (hfits : st.Fits dataSize) :
    ofBytes order (splice bytes st.offset (st.bytes order)) = (ofBytes order bytes).store st := by
  unfold sizeOfSlotMetadata at h64
  unfold ofBytes Store.offset Store.bytes sizeOfSlotMetadata
  cases st with
  | status s =>
    have hs := s.toWord.toNat_lt
    simp (disch := omega) only [Slot.store, decode_splice, decode_splice_of_disjoint,
      drop_splice_encode]
    rw [UInt32.ofNat_toNat]
  | operation kind =>
    have hkind := kind.toWord.toNat_lt
    simp (disch := omega) only [Slot.store, decode_splice, decode_splice_of_disjoint,
      drop_splice_encode]
    rw [UInt32.ofNat_toNat]
  | size size =>
    have hsize : size < 2^64 := hfits
    simp (disch := omega) only [Slot.store, decode_splice, decode_splice_of_disjoint,
      drop_splice_encode]
  | id word value =>
    have hvalue := value.toNat_lt
    have hword := word.isLt
    simp (disch := omega) only [Slot.store, decode_splice_of_disjoint,
      drop_splice_encode]
    congr 2
    funext word'
    by_cases heq : word' = word
    · rw [heq, Function.update_self, decode_splice (by omega) (by omega), UInt32.ofNat_toNat]
    · have hne : (word' : ℕ) ≠ word := fun h => heq (Fin.ext h)
      rw [Function.update_of_ne heq, decode_splice_of_disjoint (by omega) (by omega)]
  | timestamp now =>
    have hnow := now.toNat_lt
    simp (disch := omega) only [Slot.store, decode_splice, decode_splice_of_disjoint,
      drop_splice_encode]
    rw [UInt64.ofNat_toNat]
  | payload data =>
    simp (disch := omega) only [Slot.store, slice_splice_of_disjoint, drop_splice]

/-! ## What stores do to the mapping -/

namespace Mapping

/-- The second mapping is as long as the first, and differs from it in the region only. -/
structure SameOutside (r : Region) (m m' : Mapping) : Prop where
  /-- It is as long. -/
  length : m'.bytes.length = m.bytes.length
  /-- Bytes elsewhere are the same. -/
  bytes : ∀ k ∉ r, m'.bytes[k]? = m.bytes[k]?

variable {m m' m'' : Mapping} {r : Region} {ref : SlotRef}

theorem SameOutside.refl (r : Region) (m : Mapping) : SameOutside r m m := ⟨rfl, fun _ _ => rfl⟩

theorem SameOutside.trans (h : SameOutside r m m') (h' : SameOutside r m' m'') :
    SameOutside r m m'' :=
  ⟨h'.length.trans h.length, fun k hk => (h'.bytes k hk).trans (h.bytes k hk)⟩

/-- A slot that has no byte in the region decodes to the same contents. -/
theorem SameOutside.slot (h : SameOutside r m m') (hdisj : ref.region.Disjoint r)
    (order : ByteOrder) :
    m'.slot order ref = m.slot order ref := by
  unfold Mapping.slot
  congr 1
  apply slice_congr
  intro i hi
  exact h.bytes _ (hdisj _ ⟨Nat.le_add_right _ _, Nat.add_lt_add_left hi _⟩)

/-- A store to a slot within the mapping stores to the slot, and changes no other byte. -/
theorem store_slot (order : ByteOrder) (hin : ref.region.Inside m.bytes.length) {st : Store}
    (hfits : st.Fits ref.dataSize) :
    ∃ m', m.store order ref st = some m' ∧ SameOutside ref.region m m' ∧
      m'.slot order ref = (m.slot order ref).store st := by
  have hinside := hfits.inside order
  have hend : ref.offset + (sizeOfSlotMetadata + ref.dataSize) ≤ m.bytes.length := hin
  have hput : ref.offset + st.offset + (st.bytes order).length ≤ m.bytes.length := by omega
  refine ⟨_, dif_pos hput, ⟨length_splice hput, ?_⟩, ?_⟩
  · intro k hk
    unfold SlotRef.region at hk
    rw [mem_iff] at hk
    dsimp only at hk ⊢
    rw [getElem?_splice (by omega), if_neg (by omega)]
  · unfold Mapping.slot SlotRef.region
    dsimp only
    rw [slice_splice_within hput hinside]
    refine Slot.ofBytes_splice ?_ hfits
    rw [length_slice hend]
    exact Nat.le_add_right _ _

/-- So do stores in program order. -/
theorem storeAll_slot (order : ByteOrder) (hin : ref.region.Inside m.bytes.length)
    {stores : List Store} (hfits : ∀ st ∈ stores, st.Fits ref.dataSize) :
    ∃ m', m.storeAll order ref stores = some m' ∧ SameOutside ref.region m m' ∧
      m'.slot order ref = (m.slot order ref).storeAll stores := by
  induction stores generalizing m with
  | nil => exact ⟨m, rfl, SameOutside.refl _ m, rfl⟩
  | cons st stores ih =>
    obtain ⟨m1, hstore, hsame, hslot⟩ := store_slot order hin (hfits st List.mem_cons_self)
    rw [← hsame.length] at hin
    obtain ⟨m2, hrest, hsame', hslot'⟩ := ih hin fun st' h => hfits st' (List.mem_cons_of_mem _ h)
    refine ⟨m2, ?_, hsame.trans hsame', ?_⟩
    · unfold storeAll
      rw [List.foldlM_cons, hstore]
      exact hrest
    · rw [hslot', hslot, Slot.storeAll_cons]

/-- The payload area of a slot. -/
theorem take_data (m : Mapping) (order : ByteOrder) {n : ℕ} (hn : n ≤ ref.dataSize) :
    (m.slot order ref).data.take n = slice m.bytes (ref.offset + sizeOfSlotMetadata) n := by
  unfold Mapping.slot Slot.ofBytes SlotRef.region slice
  dsimp only
  rw [List.drop_take, List.drop_drop, List.take_take, Nat.add_sub_cancel_left, Nat.min_eq_left hn]

/-- `read_data` on the bytes is `read_data` on what they contain. -/
theorem readData_slot (order : ByteOrder) (hin : ref.region.Inside m.bytes.length) :
    ∃ m', m.readData order ref =
        some ((Slot.readData ref.dataSize (m.slot order ref)).1, m') ∧
      SameOutside ref.region m m' ∧
      m'.slot order ref = (Slot.readData ref.dataSize (m.slot order ref)).2 := by
  unfold Mapping.readData Slot.readData
  by_cases hready : (m.slot order ref).getStatus ≠ .ready
  · rw [if_pos hready, if_pos hready]
    exact ⟨m, rfl, SameOutside.refl _ m, rfl⟩
  · rw [if_neg hready, if_neg hready]
    obtain ⟨m1, hreading, hsame1, hslot1⟩ :=
      store_slot order hin (show (Store.status .reading).Fits ref.dataSize from trivial)
    rw [← hsame1.length] at hin
    obtain ⟨m2, hcomplete, hsame2, hslot2⟩ :=
      store_slot order hin (show (Store.status .complete).Fits ref.dataSize from trivial)
    rw [hslot1] at hslot2
    simp only [hreading, Option.bind_eq_bind, Option.bind_some, hslot1, hcomplete]
    by_cases hsize : ((m.slot order ref).store (.status .reading)).size > ref.dataSize
    · rw [if_pos hsize, if_pos hsize]
      exact ⟨m2, rfl, hsame1.trans hsame2, hslot2⟩
    · have hle : (m1.slot order ref).size ≤ ref.dataSize := by
        rw [hslot1]
        exact Nat.le_of_not_lt hsize
      have hbuffer := take_data m1 order hle
      rw [hslot1] at hbuffer
      rw [if_neg hsize, if_neg hsize, hbuffer]
      exact ⟨m2, rfl, hsame1.trans hsame2, hslot2⟩

/-- The stores of a call fit in their fields when the payload does. -/
theorem fits_program {call : WriteCall} {dataSize : ℕ} (hdata : call.data.length ≤ dataSize)
    (hlt : call.data.length < 2^64) : ∀ st ∈ call.program, st.Fits dataSize := by
  have hreset : ∀ st ∈ Slot.resetStores, st.Fits dataSize := by
    simp [Slot.resetStores, Slot.setId, Store.Fits]
  have hid : ∀ st ∈ Slot.setId call.id, st.Fits dataSize := by
    simp [Slot.setId, Store.Fits]
  have hwrite : ∀ st ∈ Slot.writeDataStores call.data call.now, st.Fits dataSize := by
    intro st hst
    unfold Slot.writeDataStores at hst
    simp only [List.mem_cons, List.not_mem_nil, or_false] at hst
    rcases hst with rfl | rfl | rfl | rfl | rfl
    · trivial
    · exact hlt
    · trivial
    · exact hdata
    · trivial
  unfold WriteCall.program WriteCall.stores
  simp only [List.mem_append, List.cons_append, List.mem_cons]
  rintro st (hst | rfl | hst | hst)
  · exact hreset st hst
  · trivial
  · exact hid st hst
  · exact hwrite st hst

/-- A fill runs the stores of the call, when the payload passes the length check of `write_data`. -/
theorem fill_eq (order : ByteOrder) {call : WriteCall} (hdata : call.data.length ≤ ref.dataSize) :
    m.fill order ref call =
      (m.storeAll order ref call.program).bind fun m' => some (.ok (), m') := by
  unfold fill writeData WriteCall.program WriteCall.stores storeAll
  simp only [List.foldlM_append, List.cons_append, List.foldlM_cons, Option.bind_eq_bind,
    Option.bind_assoc, Nat.not_lt.mpr hdata, if_false]

/-- Filling a slot within the mapping with a payload that fits stores to the slot, and changes no
other byte. -/
theorem fill_slot (order : ByteOrder) (hin : ref.region.Inside m.bytes.length) {call : WriteCall}
    (hdata : call.data.length ≤ ref.dataSize) :
    ∃ m', m.fill order ref call = some (.ok (), m') ∧ SameOutside ref.region m m' ∧
      m'.slot order ref = (m.slot order ref).storeAll call.program := by
  have hend : ref.offset + (sizeOfSlotMetadata + ref.dataSize) ≤ m.bytes.length := hin
  have hlt : call.data.length < 2^64 := by
    have hlength := m.length_lt
    omega
  obtain ⟨m', hall, hsame, hslot⟩ := storeAll_slot order hin (fits_program hdata hlt)
  refine ⟨m', ?_, hsame, hslot⟩
  rw [fill_eq order hdata, hall, Option.bind_some]

end Mapping

/-! ## A slot of a ring -/

/-- A slot that a call has filled has the ID and the timestamp of the call. -/
theorem Slot.getId_program (slot : Slot) (call : WriteCall) :
    (slot.storeAll call.program).getId = call.id ∧
      (slot.storeAll call.program).timestamp = call.now :=
  ⟨getId_setId ((slot.storeAll resetStores).store (.operation call.kind)) call.id, rfl⟩

/-- `read_data` returns the payload of a slot that holds a message. -/
theorem Slot.Holds.readData {slot : Slot} {msg : Message} (h : slot.Holds msg) {dataSize : ℕ}
    (hfits : msg.data.length ≤ dataSize) : (slot.readData dataSize).1 = some msg.data := by
  have hready : ¬ slot.getStatus ≠ .ready := not_not.mpr h.ready
  have hsize : (slot.store (.status .reading)).size = msg.data.length := h.size
  unfold Slot.readData
  rw [if_neg hready]
  dsimp only
  rw [hsize, if_neg (Nat.not_lt.mpr hfits)]
  exact congrArg some h.data

/-- A slot that `get_slot` returns is that of its index. -/
theorem getSlot_ref {header : RingHeader} {slotSize i : ℕ} {ref : SlotRef}
    (hget : getSlot header i slotSize = .ok ref) : ref.region = slotRegion slotSize i :=
  (getSlot_region hget).symm

/-- A slot of the ring is filled with an operation and read back, and nothing else in the mapping
changes. -/
theorem slot_codec (order : ByteOrder) {rb : RingBuffer} {header : RingHeader} {m : Mapping}
    {size limit i : ℕ} (hsize : sizeOfRingHeader < size) (h64 : sizeOfSlotMetadata ≤ rb.slotSize)
    (hcount : header.slotCount = (size - sizeOfRingHeader) / rb.slotSize)
    (hm : m.bytes.length = size) (hlimit : maxPayloadSize rb = .ok limit)
    (hi : i < header.slotCount) (kind : OperationKind) (id : Uuid) {data : List UInt8}
    (hdata : data.length ≤ limit) (now : UInt64) :
    ∃ ref m' m'', getSlot header i rb.slotSize = .ok ref ∧
      m.fill order ref ⟨kind, data, id, now⟩ = some (.ok (), m') ∧
      (m'.slot order ref).getOperation = kind ∧ (m'.slot order ref).getId = id ∧
      (m'.slot order ref).size = data.length ∧ m'.readData order ref = some (some data, m'') ∧
      (∀ k ∉ slotRegion rb.slotSize i, m'.bytes[k]? = m.bytes[k]? ∧ m''.bytes[k]? = m.bytes[k]?) ∧
      ∀ j ref', j ≠ i → getSlot header j rb.slotSize = .ok ref' →
        m'.slot order ref' = m.slot order ref' ∧ m''.slot order ref' = m.slot order ref' := by
  -- The slot lies within the mapping, and the payload fits in it.
  have hinside : ∀ j < header.slotCount, (slotRegion rb.slotSize j).Inside m.bytes.length := by
    intro j hj
    rw [hcount] at hj
    rw [hm]
    exact cells_inside_of_div (Nat.le_of_lt hsize) hj
  have hget := (SlotsFit.of_inside h64 m.length_lt hinside).getSlot_eq rfl hi
  set ref : SlotRef := ⟨i, sizeOfRingHeader + i * rb.slotSize, rb.slotSize - sizeOfSlotMetadata⟩
  have hregion := getSlot_ref hget
  have hin : ref.region.Inside m.bytes.length := by
    rw [hregion]
    exact hinside i hi
  have hfits : data.length ≤ ref.dataSize := by
    rw [(subUsize_eq_ok hlimit).2] at hdata
    exact hdata
  obtain ⟨m', hfill, hsame, hslot⟩ :=
    Mapping.fill_slot order hin
      (show (⟨kind, data, id, now⟩ : WriteCall).data.length ≤ _ from hfits)
  rw [← hsame.length] at hin
  obtain ⟨m'', hread, hsame', -⟩ := Mapping.readData_slot order hin
  have hholds := holds_stores ((m.slot order ref).storeAll Slot.resetStores) ⟨kind, data, id, now⟩
  have hid := (Slot.getId_program (m.slot order ref) ⟨kind, data, id, now⟩).1
  rw [← Slot.storeAll_append] at hholds
  rw [WriteCall.program] at hslot hid
  rw [← hslot] at hholds hid
  rw [hholds.readData hfits] at hread
  refine ⟨ref, m', m'', hget, hfill, hholds.operation, hid, hholds.size, hread, ?_, ?_⟩
  · intro k hk
    rw [← hregion] at hk
    exact ⟨hsame.bytes k hk, (hsame.trans hsame').bytes k hk⟩
  · intro j ref' hj hget'
    have hdisj : ref'.region.Disjoint ref.region := by
      rw [getSlot_ref hget', hregion]
      exact cell_disjoint hj
    exact ⟨hsame.slot hdisj order, (hsame.trans hsame').slot hdisj order⟩

/-- The last slot of a fresh ring of two slots, with the longest payload. -/
theorem slot_codec_lastSlot : ∃ (header : RingHeader) (m m' m'' : Mapping) (ref : SlotRef),
    header.slotCount = 2 ∧ m.bytes.length = 448 ∧ getSlot header 1 128 = .ok ref ∧
      m.fill .little ref ⟨.diskWrite, List.replicate 64 7, Uuid.nil, 0⟩ = some (.ok (), m') ∧
      m'.readData .little ref = some (some (List.replicate 64 7), m'') := by
  obtain ⟨header, hheader⟩ : ∃ header, RingHeader.new 448 128 0 = .ok header := ⟨_, rfl⟩
  have hcount : header.slotCount = 2 := (RingHeader.new_ok hheader).2.1
  have hlt : (List.replicate 448 (0 : UInt8)).length < 2^64 := by
    rw [List.length_replicate]
    decide
  have hdata : (List.replicate 64 (7 : UInt8)).length ≤ 128 - sizeOfSlotMetadata := by
    rw [List.length_replicate]
    decide
  have hlimit : maxPayloadSize ⟨448, 128, false⟩ = .ok (128 - sizeOfSlotMetadata) := rfl
  have hm : (Mapping.mk _ hlt).bytes.length = 448 := List.length_replicate
  have hlast : 1 < header.slotCount := by
    rw [hcount]
    decide
  obtain ⟨ref, m', m'', hget, hfill, -, -, -, hread, -⟩ :=
    slot_codec .little (by decide) (by decide) hcount hm hlimit hlast .diskWrite Uuid.nil hdata 0
  exact ⟨header, _, m', m'', ref, hcount, hm, hget, hfill, hread⟩

end Elgate.Ring
