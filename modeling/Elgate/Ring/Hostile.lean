import Elgate.Foundation.Cyclic
import Elgate.Ring.Mapping

/-!
# Reading slots of arbitrary contents

`read` on the bytes of the mapped file, whatever they are in the slots: any process can have written
them. `MappedRing.read` is `RingBuffer::read` in terms of the loads and stores of `src/ring/slot.rs`
at their offsets, and refines `read` on the slots that the bytes contain
(`MappedRing.read_memory`). It depends on the header and on the bytes of the slot at the consumer
index only (`Slot.visit`), and changes the header and the metadata of that slot only. Every read
moves the consumer index on by one, so that reads come to the producer index (`read_robust`).
-/

namespace Elgate.Ring

open Bytes Region

/-! ## The slot that a read visits -/

/-- What `read` makes of the slot that it visits: the message that it returns, if it returns one,
and the slot afterwards. -/
def Slot.visit (dataSize : ℕ) (slot : Slot) : Option Message × Slot :=
  if slot.getStatus = .ready ∧ slot.size ≤ dataSize then
    (some ⟨slot.getOperation, slot.data.take slot.size⟩, slot.store (.status .complete))
  else (none, slot.reset)

/-- The header after a read that has passed a slot. -/
def RingHeader.pass (header : RingHeader) (counted : Bool) : RingHeader :=
  { header with
    consumerIdx := (header.consumerIdx + 1) % header.slotCount
    operationsCompleted :=
      if counted then (header.operationsCompleted + 1) % 2^64 else header.operationsCompleted }

/-- The payload area stays as it was. -/
theorem Slot.data_visit (dataSize : ℕ) (slot : Slot) :
    (slot.visit dataSize).2.data = slot.data := by
  unfold visit
  split
  · rfl
  · rw [reset_eq]

/-- A message is returned from a slot that has room for it, and the slot is `Complete`. -/
theorem Slot.visit_some {dataSize : ℕ} {slot : Slot} {msg : Message}
    (h : (slot.visit dataSize).1 = some msg) :
    slot.size ≤ dataSize ∧ msg.kind = slot.getOperation ∧ msg.data = slot.data.take slot.size ∧
      (slot.visit dataSize).2 = slot.store (.status .complete) := by
  unfold visit at h ⊢
  split
  · rename_i hready
    rw [if_pos hready] at h
    obtain rfl := Option.some.inj h
    exact ⟨hready.2, rfl, rfl, rfl⟩
  · rename_i hskip
    rw [if_neg hskip] at h
    cases h

/-- Otherwise its metadata is cleared. -/
theorem Slot.visit_none {dataSize : ℕ} {slot : Slot} (h : (slot.visit dataSize).1 = none) :
    (slot.visit dataSize).2 = { Slot.zeroed 0 with data := slot.data } := by
  unfold visit at h ⊢
  split
  · rename_i hready
    rw [if_pos hready] at h
    cases h
  · exact reset_eq slot

/-- A message is returned from a slot that is `Ready`, with a size in bounds, and from no other. -/
theorem Slot.visit_isSome_iff {dataSize : ℕ} {slot : Slot} :
    (slot.visit dataSize).1.isSome = true ↔ slot.getStatus = .ready ∧ slot.size ≤ dataSize := by
  unfold visit
  split
  · rename_i hready
    exact iff_of_true rfl hready
  · rename_i hskip
    exact iff_of_false Bool.false_ne_true hskip

/-- `read` passes the slot at the consumer index, and does nothing else. -/
theorem read_visit {rb : RingBuffer} {m : RingMemory}
    (hfits : SlotsFit rb.slotSize m.header.slotCount)
    (hlt : m.header.consumerIdx < m.header.slotCount)
    (hne : m.header.producerIdx ≠ m.header.consumerIdx) :
    (read rb).exec m =
      (.ok ((m.slots m.header.consumerIdx).visit rb.payloadSize).1,
        { header := m.header.pass ((m.slots m.header.consumerIdx).visit rb.payloadSize).1.isSome
          slots := Function.update m.slots m.header.consumerIdx
            ((m.slots m.header.consumerIdx).visit rb.payloadSize).2 }) := by
  by_cases hready : (m.slots m.header.consumerIdx).getStatus = .ready ∧
      (m.slots m.header.consumerIdx).size ≤ rb.payloadSize
  · rw [read_ready (hfits.getSlot_eq rfl hlt) hne hready.1 hready.2, Slot.visit, if_pos hready]
    rfl
  · have hskip : (m.slots m.header.consumerIdx).getStatus ≠ .ready ∨
        rb.payloadSize < (m.slots m.header.consumerIdx).size := by
      by_contra hno
      rw [not_or, not_not, Nat.not_lt] at hno
      exact hready hno
    rw [read_skip (hfits.getSlot_eq rfl hlt) hne hskip, Slot.visit, if_neg hready]
    rfl

/-! ## `read` on the bytes -/

/-- The mapped file of a ring, with the words of its header decoded. -/
structure MappedRing where
  /-- The header. -/
  header : RingHeader
  /-- The bytes of the file. -/
  mapping : Mapping

/-- The pointers that `get_slot` gives for an index (`SlotsFit.getSlot_eq`). -/
def RingBuffer.slotRef (rb : RingBuffer) (idx : ℕ) : SlotRef :=
  ⟨idx, sizeOfRingHeader + idx * rb.slotSize, rb.payloadSize⟩

/-- The bytes of the metadata of a slot. -/
def metadataRegion (slotSize idx : ℕ) : Region :=
  ⟨sizeOfRingHeader + idx * slotSize, sizeOfSlotMetadata⟩

namespace MappedRing

variable (order : ByteOrder) (rb : RingBuffer)

/-- `RingBuffer::read`. It has no result where a store would be outside the mapping. -/
def read (f : MappedRing) : Option (Except Fault (Option Message) × MappedRing) :=
  if f.header.producerIdx = f.header.consumerIdx then some (.ok none, f)
  else
    match nextIdx f.header.consumerIdx f.header.slotCount with
    | .error e => some (.error e, f)
    | .ok next =>
      let header := { f.header with consumerIdx := next }
      match getSlot header f.header.consumerIdx rb.slotSize with
      | .error e => some (.error e, ⟨header, f.mapping⟩)
      | .ok slot =>
        if (f.mapping.slot order slot).getStatus = .ready then
          let kind := (f.mapping.slot order slot).getOperation
          (f.mapping.readData order slot).bind fun
            | (some data, mapping) =>
              some (.ok (some ⟨kind, data⟩), ⟨{ header with
                operationsCompleted := (header.operationsCompleted + 1) % 2^64 }, mapping⟩)
            | (none, mapping) =>
              (mapping.storeAll order slot Slot.resetStores).map fun mapping =>
                (.ok none, ⟨header, mapping⟩)
        else
          (f.mapping.storeAll order slot Slot.resetStores).map fun mapping =>
            (.ok none, ⟨header, mapping⟩)

/-- The memory of the ring, with the slots that the bytes contain. -/
def memory (f : MappedRing) : RingMemory :=
  ⟨f.header, fun idx => f.mapping.slot order (rb.slotRef idx)⟩

/-- The slots have room for their metadata and lie within the file, and both indices are those of
slots. -/
structure Valid (f : MappedRing) : Prop where
  /-- A slot has room for its metadata. -/
  slotSize_ge : sizeOfSlotMetadata ≤ rb.slotSize
  /-- It lies within the file. -/
  inside : ∀ i < f.header.slotCount, (slotRegion rb.slotSize i).Inside f.mapping.bytes.length
  /-- The producer index is that of a slot. -/
  producerIdx_lt : f.header.producerIdx < f.header.slotCount
  /-- The consumer index is that of a slot. -/
  consumerIdx_lt : f.header.consumerIdx < f.header.slotCount

/-- The slot at the consumer index. -/
def current (f : MappedRing) : Slot := f.mapping.slot order (rb.slotRef f.header.consumerIdx)

/-- Reads one after another. It has no result where one of them does not return `Ok`. -/
def readTimes (f : MappedRing) : ℕ → Option MappedRing
  | 0 => some f
  | k + 1 =>
    match f.read order rb with
    | some (.ok _, f) => f.readTimes k
    | _ => none

/-- What a read makes of a ring whose indices differ. -/
structure Passes (f f' : MappedRing) (result : Option Message) : Prop where
  /-- The consumer index is one further on, and a message has been counted. -/
  header : f'.header = f.header.pass result.isSome
  /-- The metadata of the slot is all that has changed: no payload, and no other slot. -/
  bytes : Mapping.SameOutside (metadataRegion rb.slotSize f.header.consumerIdx) f.mapping f'.mapping
  /-- A message is returned when the slot is `Ready` and its size within its payload area. -/
  isSome_iff : result.isSome = true ↔ (f.current order rb).getStatus = .ready ∧
    (f.current order rb).size ≤ rb.slotSize - sizeOfSlotMetadata
  /-- It is what the fields of the slot say of its payload area. -/
  message : ∀ msg, result = some msg →
    (f.current order rb).size ≤ rb.slotSize - sizeOfSlotMetadata ∧
      msg.kind = (f.current order rb).getOperation ∧
      msg.data.length = (f.current order rb).size ∧
      msg.data = slice f.mapping.bytes
        (sizeOfRingHeader + f.header.consumerIdx * rb.slotSize + sizeOfSlotMetadata)
        (f.current order rb).size
  /-- Its slot is `Complete`, and otherwise as it was. -/
  complete : ∀ msg, result = some msg → f'.mapping.slot order (rb.slotRef f.header.consumerIdx) =
    (f.current order rb).store (.status .complete)
  /-- A slot without a message is reset. -/
  reset : result = none → f'.mapping.slot order (rb.slotRef f.header.consumerIdx) =
    { Slot.zeroed 0 with data := (f.current order rb).data }

end MappedRing

section
variable (order : ByteOrder) {rb : RingBuffer} {f : MappedRing}

/-- The bytes that the pointers of a slot are for. -/
theorem slotRef_region (h64 : sizeOfSlotMetadata ≤ rb.slotSize) (idx : ℕ) :
    (rb.slotRef idx).region = slotRegion rb.slotSize idx := by
  unfold RingBuffer.slotRef SlotRef.region slotRegion cell RingBuffer.payloadSize
  rw [Nat.add_sub_cancel' h64]

/-- The file of a created ring is valid. -/
theorem MappedRing.Valid.of_created {options : RingBufferOptions} {m : RingMemory}
    (hc : Created options m rb) (hN : 0 < m.header.slotCount) (hheader : f.header = m.header)
    (hlength : f.mapping.bytes.length = options.size) : f.Valid rb := by
  have hfresh := hc.fresh.1
  have hcount := hfresh.slotCount
  have hsize : sizeOfRingHeader ≤ options.size := by
    by_contra hlt
    rw [Nat.sub_eq_zero_of_le (Nat.le_of_not_le hlt), Nat.zero_div] at hcount
    omega
  exact {
    slotSize_ge := hc.slotSize_ge hN
    inside := by
      intro i hi
      rw [hheader, hcount] at hi
      rw [hlength, hfresh.slotSize]
      exact cells_inside_of_div hsize hi
    producerIdx_lt := by rwa [hheader, hfresh.producerIdx]
    consumerIdx_lt := by rwa [hheader, hfresh.consumerIdx] }

/-- The stores of `reset` fit in their fields. -/
theorem fits_resetStores (dataSize : ℕ) : ∀ st ∈ Slot.resetStores, st.Fits dataSize := by
  simp [Slot.resetStores, Slot.setId, Store.Fits]

/-- `read_data` on a slot that is ready. -/
theorem Slot.readData_ready {dataSize : ℕ} {slot : Slot} (h : slot.getStatus = .ready) :
    slot.readData dataSize =
      (if slot.size ≤ dataSize then some (slot.data.take slot.size) else none,
        slot.store (.status .complete)) := by
  have hready : ¬ slot.getStatus ≠ .ready := not_not.mpr h
  have hfield : (slot.store (.status .reading)).size = slot.size := rfl
  unfold Slot.readData
  rw [if_neg hready]
  dsimp only
  rw [hfield]
  by_cases hsize : slot.size ≤ dataSize
  · rw [if_neg (Nat.not_lt_of_le hsize), if_pos hsize]
    rfl
  · rw [if_pos (Nat.lt_of_not_le hsize), if_neg hsize]
    rfl

/-- A byte of the payload area of a slot. -/
theorem Mapping.getElem?_data (m : Mapping) (order : ByteOrder) {ref : SlotRef} {i : ℕ}
    (hi : i < ref.dataSize) :
    (m.slot order ref).data[i]? = m.bytes[ref.offset + sizeOfSlotMetadata + i]? := by
  unfold Mapping.slot Slot.ofBytes SlotRef.region
  dsimp only
  rw [List.getElem?_drop, getElem?_slice, if_pos (by omega), Nat.add_assoc]

/-- Only the metadata of a slot has changed, when nothing else has but the slot, and not its payload
area. -/
theorem Mapping.SameOutside.metadata {m m' : Mapping} {ref : SlotRef}
    (h : SameOutside ref.region m m')
    (hdata : (m'.slot order ref).data = (m.slot order ref).data) :
    SameOutside ⟨ref.offset, sizeOfSlotMetadata⟩ m m' where
  length := h.length
  bytes k hk := by
    -- A byte of the slot that is not of its metadata is of its payload area.
    by_cases hin : k ∈ ref.region
    · unfold SlotRef.region at hin
      rw [mem_iff] at hin hk
      dsimp only at hin hk
      obtain ⟨i, rfl⟩ : ∃ i, k = ref.offset + sizeOfSlotMetadata + i :=
        Nat.exists_eq_add_of_le (by omega)
      have hi : i < ref.dataSize := by omega
      rw [← m'.getElem?_data order hi, ← m.getElem?_data order hi, hdata]
    · exact h.bytes k hin

namespace MappedRing

/-- The slots fit. -/
theorem Valid.fits (h : f.Valid rb) : SlotsFit rb.slotSize f.header.slotCount :=
  .of_inside h.slotSize_ge f.mapping.length_lt h.inside

/-- `read` on the bytes passes the slot at the consumer index, and changes no byte outside it. -/
theorem Valid.read_visit (h : f.Valid rb) (hne : f.header.producerIdx ≠ f.header.consumerIdx) :
    ∃ m', f.read order rb = some (.ok ((f.current order rb).visit rb.payloadSize).1,
        ⟨f.header.pass ((f.current order rb).visit rb.payloadSize).1.isSome, m'⟩) ∧
      Mapping.SameOutside (slotRegion rb.slotSize f.header.consumerIdx) f.mapping m' ∧
      m'.slot order (rb.slotRef f.header.consumerIdx) =
        ((f.current order rb).visit rb.payloadSize).2 := by
  set ref := rb.slotRef f.header.consumerIdx with href
  have hget : getSlot { f.header with
      consumerIdx := (f.header.consumerIdx + 1) % f.header.slotCount } f.header.consumerIdx
        rb.slotSize = .ok ref := h.fits.getSlot_eq rfl h.consumerIdx_lt
  have hregion := slotRef_region h.slotSize_ge f.header.consumerIdx
  have hin : ref.region.Inside f.mapping.bytes.length := by
    rw [hregion]
    exact h.inside _ h.consumerIdx_lt
  rw [← hregion]
  unfold read
  rw [if_neg hne, h.fits.nextIdx_eq rfl h.consumerIdx_lt]
  simp only [hget]
  by_cases hready : (f.mapping.slot order ref).getStatus = .ready
  · obtain ⟨m1, hdata, hsame1, hslot1⟩ := Mapping.readData_slot order hin
    rw [Slot.readData_ready hready] at hdata hslot1
    rw [if_pos hready, hdata]
    by_cases hsize : (f.mapping.slot order ref).size ≤ ref.dataSize
    · -- The message is returned.
      have hvisit : (f.current order rb).visit rb.payloadSize = _ := if_pos ⟨hready, hsize⟩
      rw [if_pos hsize, hvisit]
      exact ⟨m1, rfl, hsame1, hslot1⟩
    · -- `read_data` refuses the size, and the slot is reset.
      have hvisit : (f.current order rb).visit rb.payloadSize = _ :=
        if_neg fun h => hsize h.2
      rw [← hsame1.length] at hin
      obtain ⟨m2, hreset, hsame2, hslot2⟩ :=
        Mapping.storeAll_slot order hin (fits_resetStores ref.dataSize)
      rw [hslot1] at hslot2
      rw [if_neg hsize, hvisit]
      refine ⟨m2, ?_, hsame1.trans hsame2, hslot2.trans (Slot.reset_store_status _ _)⟩
      dsimp only [Option.bind_some]
      rw [hreset]
      rfl
  · -- The slot is reset without a look at its size.
    have hvisit : (f.current order rb).visit rb.payloadSize = _ := if_neg fun h => hready h.1
    obtain ⟨m1, hreset, hsame, hslot⟩ :=
      Mapping.storeAll_slot order hin (fits_resetStores ref.dataSize)
    rw [if_neg hready, hreset, hvisit]
    exact ⟨m1, rfl, hsame, hslot⟩

/-- Equal indices: `read` takes the ring to be empty. -/
theorem read_empty (heq : f.header.producerIdx = f.header.consumerIdx) :
    f.read order rb = some (.ok none, f) := if_pos heq

/-- `read` on the bytes is `read` on what they contain. -/
theorem read_memory (h : f.Valid rb) :
    ∃ f', f.read order rb = some (((Ring.read rb).exec (f.memory order rb)).1, f') ∧
      f'.memory order rb = ((Ring.read rb).exec (f.memory order rb)).2 := by
  by_cases heq : f.header.producerIdx = f.header.consumerIdx
  · rw [Ring.read_empty (show (f.memory order rb).header.producerIdx = _ from heq)]
    exact ⟨f, read_empty order heq, rfl⟩
  · obtain ⟨m', hread, hsame, hslot⟩ := h.read_visit order heq
    rw [Ring.read_visit h.fits h.consumerIdx_lt heq]
    refine ⟨_, hread, ?_⟩
    unfold memory
    congr 1
    funext idx
    by_cases hidx : idx = f.header.consumerIdx
    · rw [hidx, Function.update_self]
      exact hslot
    · -- The bytes of another slot are outside those that have changed.
      rw [Function.update_of_ne hidx]
      refine hsame.slot ?_ order
      rw [slotRef_region h.slotSize_ge]
      exact cell_disjoint hidx

/-- A read of a ring whose indices differ passes the slot at the consumer index. -/
theorem Valid.read_passes (h : f.Valid rb) (hne : f.header.producerIdx ≠ f.header.consumerIdx) :
    ∃ result f', f.read order rb = some (.ok result, f') ∧ f.Passes order rb f' result := by
  obtain ⟨m', hread, hsame, hslot⟩ := h.read_visit order hne
  refine ⟨_, _, hread, {
    header := rfl
    bytes := ?_
    isSome_iff := Slot.visit_isSome_iff
    message := ?_
    complete := ?_
    reset := ?_ }⟩
  · rw [← slotRef_region h.slotSize_ge] at hsame
    exact hsame.metadata order (by rw [hslot, Slot.data_visit]; rfl)
  · intro msg hmsg
    obtain ⟨hsize, hkind, hdata, -⟩ := Slot.visit_some hmsg
    have hin : sizeOfRingHeader + f.header.consumerIdx * rb.slotSize + rb.slotSize ≤
      f.mapping.bytes.length := h.inside _ h.consumerIdx_lt
    -- The payload is that of the bytes, and no longer than the slot has room for.
    have htake : msg.data = slice f.mapping.bytes _ _ :=
      hdata.trans (f.mapping.take_data order (show _ ≤ (rb.slotRef _).dataSize from hsize))
    have h64 := h.slotSize_ge
    refine ⟨hsize, hkind, ?_, htake⟩
    rw [htake, length_slice]
    unfold RingBuffer.slotRef
    unfold RingBuffer.payloadSize at hsize
    dsimp only
    omega
  · intro msg hmsg
    rw [hslot]
    exact (Slot.visit_some hmsg).2.2.2
  · intro hnone
    rw [hslot]
    exact Slot.visit_none hnone

/-- What a read leaves is valid. -/
theorem Passes.valid {order : ByteOrder} {f' : MappedRing} {result : Option Message}
    (h : f.Passes order rb f' result) (hf : f.Valid rb) : f'.Valid rb where
  slotSize_ge := hf.slotSize_ge
  inside i hi := by
    rw [h.header] at hi
    rw [h.bytes.length]
    exact hf.inside i hi
  producerIdx_lt := by
    rw [h.header]
    exact hf.producerIdx_lt
  consumerIdx_lt := by
    rw [h.header]
    exact Nat.mod_lt _ (Nat.zero_lt_of_lt hf.consumerIdx_lt)

/-- When the producer index is `d` slots ahead, `d` reads come to it. -/
theorem readTimes_ahead (d : ℕ) (h : f.Valid rb) (hd : d < f.header.slotCount)
    (hahead : f.header.producerIdx = (f.header.consumerIdx + d) % f.header.slotCount) :
    ∃ f', f.readTimes order rb d = some f' ∧ f'.header.producerIdx = f'.header.consumerIdx := by
  induction d generalizing f with
  | zero =>
    rw [Nat.add_zero, Nat.mod_eq_of_lt h.consumerIdx_lt] at hahead
    exact ⟨f, rfl, hahead⟩
  | succ d ih =>
    -- Less than a lap ahead, the indices differ, so that the read passes a slot.
    have hne : f.header.producerIdx ≠ f.header.consumerIdx := by
      intro heq
      have hzero : f.header.consumerIdx % f.header.slotCount =
          (f.header.consumerIdx + (d + 1)) % f.header.slotCount := by
        rw [Nat.mod_eq_of_lt h.consumerIdx_lt, ← hahead, heq]
      have hinj := Cyclic.mod_inj f.header.consumerIdx (by omega) (by omega) (by omega) (by omega)
        hzero
      omega
    obtain ⟨result, f1, hread, hpasses⟩ := h.read_passes order hne
    have hahead' : f1.header.producerIdx = (f1.header.consumerIdx + d) % f1.header.slotCount := by
      rw [hpasses.header]
      unfold RingHeader.pass
      dsimp only
      rw [Nat.mod_add_mod, hahead]
      congr 1
      omega
    have hd' : d < f1.header.slotCount := by
      rw [hpasses.header]
      exact Nat.lt_of_succ_lt hd
    obtain ⟨f', hrest, hequal⟩ := ih (hpasses.valid h) hd' hahead'
    refine ⟨f', ?_, hequal⟩
    rw [readTimes, hread]
    exact hrest

/-- The bytes of other slots have no part in what a read returns. -/
theorem Valid.read_congr {g : MappedRing} (h : f.Valid rb) (hg : g.Valid rb)
    (hheader : g.header = f.header)
    (hbytes : ∀ k ∈ slotRegion rb.slotSize f.header.consumerIdx,
      g.mapping.bytes[k]? = f.mapping.bytes[k]?) :
    (g.read order rb).map Prod.fst = (f.read order rb).map Prod.fst := by
  by_cases heq : f.header.producerIdx = f.header.consumerIdx
  · have heq' : g.header.producerIdx = g.header.consumerIdx := by rwa [hheader]
    rw [read_empty order heq, read_empty order heq']
    rfl
  · have hcurrent : g.current order rb = f.current order rb := by
      unfold current Mapping.slot
      rw [hheader, slotRef_region h.slotSize_ge]
      congr 1
      apply slice_congr
      intro i hi
      exact hbytes _ ⟨Nat.le_add_right _ _, Nat.add_lt_add_left hi _⟩
    have hne : g.header.producerIdx ≠ g.header.consumerIdx := by rwa [hheader]
    obtain ⟨m, hread, -⟩ := h.read_visit order heq
    obtain ⟨m', hread', -⟩ := hg.read_visit order hne
    rw [hread, hread', hcurrent]
    rfl

/-- The producer index is less than a lap ahead. -/
theorem Valid.exists_ahead (h : f.Valid rb) : ∃ d < f.header.slotCount,
    f.header.producerIdx = (f.header.consumerIdx + d) % f.header.slotCount := by
  have hp := h.producerIdx_lt
  have hc := h.consumerIdx_lt
  refine ⟨(f.header.producerIdx + f.header.slotCount - f.header.consumerIdx) % f.header.slotCount,
    Nat.mod_lt _ (Nat.zero_lt_of_lt hc), ?_⟩
  rw [Nat.add_mod_mod, Nat.add_sub_cancel' (by omega), Nat.add_mod_right, Nat.mod_eq_of_lt hp]

end MappedRing

/-- `read` returns, whatever the slots contain. It changes nothing when the indices are equal, and
otherwise passes one slot; no byte of another slot has a part in its result. Reads come to the
producer index before they have gone all the way round. -/
theorem read_robust (h : f.Valid rb) :
    (f.header.producerIdx = f.header.consumerIdx → f.read order rb = some (.ok none, f)) ∧
    (f.header.producerIdx ≠ f.header.consumerIdx →
      ∃ result f', f.read order rb = some (.ok result, f') ∧ f.Passes order rb f' result) ∧
    (∀ g : MappedRing, g.Valid rb → g.header = f.header →
      (∀ k ∈ slotRegion rb.slotSize f.header.consumerIdx,
        g.mapping.bytes[k]? = f.mapping.bytes[k]?) →
      (g.read order rb).map Prod.fst = (f.read order rb).map Prod.fst) ∧
    ∃ k ≤ f.header.slotCount - 1, ∃ f', f.readTimes order rb k = some f' ∧
      f'.header.producerIdx = f'.header.consumerIdx := by
  refine ⟨MappedRing.read_empty order, h.read_passes order, ?_, ?_⟩
  · exact fun g hg hheader hbytes => h.read_congr order hg hheader hbytes
  · obtain ⟨d, hd, hahead⟩ := h.exists_ahead
    obtain ⟨f', htimes, hequal⟩ := MappedRing.readTimes_ahead order d h hd hahead
    exact ⟨d, Nat.le_sub_one_of_lt hd, f', htimes, hequal⟩

end

/-- A slot that is `Ready` with a size of more bytes than there are. -/
theorem read_robust_oversized : ∃ f f' : MappedRing,
    (f.current .little ⟨448, 128, false⟩).getStatus = .ready ∧
      (f.current .little ⟨448, 128, false⟩).size = 2^64 - 1 ∧
      f.read .little ⟨448, 128, false⟩ = some (.ok none, f') ∧ f'.header.consumerIdx = 1 := by
  let bytes : List UInt8 := List.replicate 192 0 ++ [2, 0, 0, 0] ++ List.replicate 252 255
  have hlength : bytes.length = 448 := by decide +kernel
  have hslice : slice bytes 192 128 = [2, 0, 0, 0] ++ List.replicate 124 255 := by decide +kernel
  let f : MappedRing := {
    header := ⟨RingHeader.MAGIC, RingHeader.VERSION, 448, 128, 2, 1, 0, 1, 0, 0, 0⟩
    mapping := ⟨bytes, by rw [hlength]; decide⟩ }
  have hvalid : f.Valid ⟨448, 128, false⟩ := {
    slotSize_ge := by decide
    inside := by
      intro i hi
      have hlt : i < 2 := hi
      refine cell_inside_iff.mpr ?_
      rw [show f.mapping.bytes.length = 448 from hlength]
      unfold sizeOfRingHeader
      dsimp only
      omega
    producerIdx_lt := Nat.one_lt_two
    consumerIdx_lt := Nat.zero_lt_two }
  have hcurrent : f.current .little ⟨448, 128, false⟩ =
      Slot.ofBytes .little ([2, 0, 0, 0] ++ List.replicate 124 255) := by
    rw [← hslice]
    rfl
  have hsize : (f.current .little ⟨448, 128, false⟩).size = 2^64 - 1 := by
    rw [hcurrent]
    decide
  obtain ⟨result, f', hread, hpasses⟩ := (read_robust .little hvalid).2.1 Nat.one_ne_zero
  cases result with
  | some msg =>
    have hle := (hpasses.message msg rfl).1
    rw [hsize] at hle
    exact absurd hle (by decide)
  | none =>
    refine ⟨f, f', ?_, hsize, hread, ?_⟩
    · rw [hcurrent]
      decide
    · rw [hpasses.header]
      rfl

end Elgate.Ring
