import Mathlib.Data.Nat.Find
import Elgate.Ring.Buffer

/-!
# What `write` and `read` do without interference

One equation for each outcome of `write` and of `read`, on any memory whose indices are below the
slot count and whatever its slots contain. `write` claims slots from the producer index on until
one is available: it writes the first available slot among eleven (`write_found`), or fails with
the producer index eleven further on and every slot as it was (`write_full`). `read` takes the slot
at the consumer index: it delivers it (`read_ready`) or resets it (`read_skip`).
-/

namespace Elgate.Ring

/-- The handle's slots fit, and both indices of the memory are those of slots. -/
structure Valid (rb : RingBuffer) (m : RingMemory) : Prop where
  /-- The slots fit. -/
  fits : SlotsFit rb.slotSize m.header.slotCount
  /-- The producer index is that of a slot. -/
  producerIdx_lt : m.header.producerIdx < m.header.slotCount
  /-- The consumer index is that of a slot. -/
  consumerIdx_lt : m.header.consumerIdx < m.header.slotCount

/-- The payload area of the handle's slots. -/
def RingBuffer.payloadSize (rb : RingBuffer) : ℕ := rb.slotSize - sizeOfSlotMetadata

/-- On a handle whose slots have room for their metadata, `max_payload_size` is the payload area. -/
theorem maxPayloadSize_eq {rb : RingBuffer} (h : sizeOfSlotMetadata ≤ rb.slotSize) :
    maxPayloadSize rb = .ok rb.payloadSize := by
  simp [maxPayloadSize, subUsize, h, RingBuffer.payloadSize]

/-- The payload of the call is within the handle's `max_payload_size()`. -/
def Fits (rb : RingBuffer) (call : WriteCall) : Prop :=
  sizeOfSlotMetadata ≤ rb.slotSize ∧ call.data.length ≤ rb.payloadSize

instance (rb : RingBuffer) (call : WriteCall) : Decidable (Fits rb call) :=
  inferInstanceAs (Decidable (_ ∧ _))

/-- `Fits` in terms of `max_payload_size`, which panics where a slot is smaller than its metadata.
-/
theorem fits_iff {rb : RingBuffer} {call : WriteCall} :
    Fits rb call ↔ ∃ limit, maxPayloadSize rb = .ok limit ∧ call.data.length ≤ limit := by
  constructor
  · rintro ⟨h64, hl⟩
    exact ⟨_, maxPayloadSize_eq h64, hl⟩
  · rintro ⟨limit, hlimit, hl⟩
    obtain ⟨h64, rfl⟩ := subUsize_eq_ok hlimit
    exact ⟨h64, hl⟩

/-- Indices below the slot count leave at least one slot by `available_slots`. -/
theorem availableSlots_eq {slotCount p c : ℕ} (hp : p < slotCount) (hc : c < slotCount) :
    ∃ k, availableSlots slotCount p c = .ok k ∧ 0 < k ∧ k ≤ slotCount := by
  unfold availableSlots
  split
  · refine ⟨slotCount - (p - c), ?_, by omega, by omega⟩
    have h1 : c ≤ p := by omega
    have h2 : p - c ≤ slotCount := by omega
    simp [subUsize, h1, h2]
  · refine ⟨c - p, ?_, by omega, by omega⟩
    have h1 : p ≤ c := by omega
    simp [subUsize, h1]

variable {rb : RingBuffer} {m : RingMemory}

/-- A slot has room for its metadata. -/
theorem Valid.slotSize_ge (h : Valid rb m) : sizeOfSlotMetadata ≤ rb.slotSize := h.fits.slotSize_ge

/-! ## `wait_for_slot` -/

/-- One attempt moves the producer index on, and takes the slot there if it is available. -/
theorem tryClaim_exec (h : Valid rb m) :
    (tryClaim rb).exec m =
      (if (m.slots m.header.producerIdx).available then
        (.ok (some m.header.producerIdx),
          (m.setProducerIdx ((m.header.producerIdx + 1) % m.header.slotCount)).setSlot
            m.header.producerIdx (m.slots m.header.producerIdx).reset)
      else
        (.ok none, m.setProducerIdx ((m.header.producerIdx + 1) % m.header.slotCount))) := by
  obtain ⟨k, hk, hk0, -⟩ := availableSlots_eq h.producerIdx_lt h.consumerIdx_lt
  have hget : getSlot (m.setProducerIdx ((m.header.producerIdx + 1) % m.header.slotCount)).header
      m.header.producerIdx rb.slotSize = _ := h.fits.getSlot_eq rfl h.producerIdx_lt
  simp only [tryClaim, RingM.exec_bind, RingM.exec_get, RingM.exec_liftExcept, hk, hk0, if_true,
    nextProducerIdx_exec m (h.fits.nextIdx_eq rfl h.producerIdx_lt), hget]
  cases hav : (m.slots m.header.producerIdx).available with
  | true => simp [hav]
  | false => simp [hav]

/-- An attempt keeps the handle and the memory valid. -/
theorem Valid.setProducerIdx (h : Valid rb m) (idx : ℕ) :
    Valid rb (m.setProducerIdx (idx % m.header.slotCount)) where
  fits := h.fits
  producerIdx_lt := Nat.mod_lt _ (Nat.zero_lt_of_lt h.producerIdx_lt)
  consumerIdx_lt := h.consumerIdx_lt

/-- The slot `k` after the producer index. -/
def RingMemory.ahead (m : RingMemory) (k : ℕ) : ℕ :=
  (m.header.producerIdx + k) % m.header.slotCount

/-- Once the producer index has moved on by one, every slot is one closer. -/
theorem RingMemory.ahead_setProducerIdx (m : RingMemory) (k : ℕ) :
    (m.setProducerIdx ((m.header.producerIdx + 1) % m.header.slotCount)).ahead k =
      m.ahead (k + 1) := by
  simp only [ahead, setProducerIdx_producerIdx, setProducerIdx_slotCount, Nat.mod_add_mod]
  congr 1
  omega

/-- The first slot that is available, from the producer index on, is `k` slots ahead. -/
structure FirstAvailable (m : RingMemory) (k : ℕ) : Prop where
  /-- It is available. -/
  available : (m.slots (m.ahead k)).available = true
  /-- No earlier one is. -/
  before : ∀ j < k, (m.slots (m.ahead j)).available = false

/-- The loop takes the first available slot, when its attempts reach it. -/
theorem waitForSlotLoop_found (attempts : ℕ) :
    ∀ {m : RingMemory} {k : ℕ}, Valid rb m → k ≤ attempts → FirstAvailable m k →
      (waitForSlotLoop rb attempts).exec m = (.ok (m.ahead k),
        (m.setProducerIdx (m.ahead (k + 1))).setSlot (m.ahead k) (m.slots (m.ahead k)).reset) := by
  -- Every attempt but the last is the step of the induction, after which the slot is one closer.
  have last : ∀ (attempts : ℕ) {m : RingMemory}, Valid rb m → FirstAvailable m 0 →
      (waitForSlotLoop rb attempts).exec m = (.ok (m.ahead 0),
        (m.setProducerIdx (m.ahead 1)).setSlot (m.ahead 0) (m.slots (m.ahead 0)).reset) := by
    intro attempts m h hfirst
    have h0 : m.ahead 0 = m.header.producerIdx := Nat.mod_eq_of_lt h.producerIdx_lt
    have hav := hfirst.available
    rw [h0] at hav ⊢
    cases attempts <;>
      simp only [waitForSlotLoop, RingM.exec_bind, tryClaim_exec h, hav, if_true,
        RingM.exec_pure] <;>
      rfl
  induction attempts with
  | zero =>
    intro m k h hk hfirst
    obtain rfl : k = 0 := by omega
    exact last 0 h hfirst
  | succ attempts ih =>
    intro m k h hk hfirst
    cases k with
    | zero => exact last (attempts + 1) h hfirst
    | succ k =>
      have hav := hfirst.before 0 (by omega)
      have h0 : m.ahead 0 = m.header.producerIdx := Nat.mod_eq_of_lt h.producerIdx_lt
      rw [h0] at hav
      have hnext : FirstAvailable
          (m.setProducerIdx ((m.header.producerIdx + 1) % m.header.slotCount)) k := by
        constructor
        · rw [RingMemory.ahead_setProducerIdx]
          exact hfirst.available
        · intro j hj
          rw [RingMemory.ahead_setProducerIdx]
          exact hfirst.before (j + 1) (by omega)
      simp only [waitForSlotLoop, RingM.exec_bind, tryClaim_exec h, hav, Bool.false_eq_true,
        if_false]
      rw [ih (h.setProducerIdx _) (by omega) hnext]
      simp only [RingMemory.ahead_setProducerIdx, RingMemory.setProducerIdx_setProducerIdx,
        RingMemory.setProducerIdx_slots]

/-- The loop fails when no slot in its reach is available: the producer index has moved past them,
and nothing else has changed. -/
theorem waitForSlotLoop_full (attempts : ℕ) :
    ∀ {m : RingMemory}, Valid rb m →
      (∀ j ≤ attempts, (m.slots (m.ahead j)).available = false) →
      (waitForSlotLoop rb attempts).exec m =
        (.error (.err (.ringBufferFull maxAttempts)),
          m.setProducerIdx (m.ahead (attempts + 1))) := by
  induction attempts with
  | zero =>
    intro m h hnone
    have hav := hnone 0 (by omega)
    rw [show m.ahead 0 = m.header.producerIdx from Nat.mod_eq_of_lt h.producerIdx_lt] at hav
    simp only [waitForSlotLoop, RingM.exec_bind, tryClaim_exec h, hav, Bool.false_eq_true, if_false,
      RingM.exec_throw]
    rfl
  | succ attempts ih =>
    intro m h hnone
    have hav := hnone 0 (by omega)
    rw [show m.ahead 0 = m.header.producerIdx from Nat.mod_eq_of_lt h.producerIdx_lt] at hav
    simp only [waitForSlotLoop, RingM.exec_bind, tryClaim_exec h, hav, Bool.false_eq_true, if_false]
    rw [ih (h.setProducerIdx _) fun j hj => by
      rw [RingMemory.ahead_setProducerIdx]; exact hnone (j + 1) (by omega)]
    simp only [RingMemory.ahead_setProducerIdx, RingMemory.setProducerIdx_setProducerIdx]

/-- Among the next slots either there is a first available one, or none is available. -/
theorem firstAvailable_or (m : RingMemory) (attempts : ℕ) :
    (∃ k ≤ attempts, FirstAvailable m k) ∨
      ∀ j ≤ attempts, (m.slots (m.ahead j)).available = false := by
  by_cases h : ∃ k, k ≤ attempts ∧ (m.slots (m.ahead k)).available = true
  · left
    obtain ⟨hle, hav⟩ := Nat.find_spec h
    refine ⟨Nat.find h, hle, hav, fun j hj => ?_⟩
    have hmin := Nat.find_min h hj
    rw [not_and, Bool.not_eq_true] at hmin
    exact hmin (by omega)
  · right
    intro j hj
    by_contra hav
    exact h ⟨j, hj, by simpa using hav⟩

/-! ## `write` -/

/-- A payload that does not fit is refused before anything else. -/
theorem write_tooLarge {call : WriteCall} (h : sizeOfSlotMetadata ≤ rb.slotSize)
    (hl : rb.payloadSize < call.data.length) :
    (write rb call).exec m = (.error (.err .dataTooLarge), m) := by
  simp [write, maxPayloadSize_eq h, hl]

/-- On a ring without slots, whose indices are then equal, `write` fails and changes nothing. -/
theorem write_noSlots {call : WriteCall} (hN : m.header.slotCount = 0)
    (heq : m.header.producerIdx = m.header.consumerIdx) :
    ∃ e, (write rb call).exec m = (.error e, m) := by
  have hclaim : (tryClaim rb).exec m = (.ok none, m) := by
    simp [tryClaim, availableSlots, subUsize, hN, heq]
  have hloop : ∀ attempts, (waitForSlotLoop rb attempts).exec m =
      (.error (.err (.ringBufferFull maxAttempts)), m) := by
    intro attempts
    induction attempts with
    | zero => simp [waitForSlotLoop, hclaim]
    | succ attempts ih => simp [waitForSlotLoop, hclaim, ih]
  cases hlimit : maxPayloadSize rb with
  | error e => exact ⟨e, by simp [write, hlimit]⟩
  | ok limit =>
    by_cases hl : call.data.length > limit
    · exact ⟨_, by simp [write, hlimit, hl]; rfl⟩
    · exact ⟨_, by simp [write, hlimit, hl, waitForSlot, hloop]; rfl⟩

/-- When none of the next eleven slots is available, `write` fails. -/
theorem write_full {call : WriteCall} (h : Valid rb m) (hl : call.data.length ≤ rb.payloadSize)
    (hnone : ∀ j ≤ maxAttempts, (m.slots (m.ahead j)).available = false) :
    (write rb call).exec m = (.error (.err (.ringBufferFull maxAttempts)),
      m.setProducerIdx (m.ahead (maxAttempts + 1))) := by
  simp only [write, RingM.exec_bind, RingM.exec_liftExcept, maxPayloadSize_eq h.slotSize_ge,
    Nat.not_lt.mpr hl, if_false, waitForSlot,
    waitForSlotLoop_full maxAttempts h hnone]

/-- `write` fills the first available slot, when it is among the next eleven. -/
theorem write_found {call : WriteCall} {k : ℕ} (h : Valid rb m)
    (hl : call.data.length ≤ rb.payloadSize) (hk : k ≤ maxAttempts) (hfirst : FirstAvailable m k) :
    (write rb call).exec m = (.ok (m.ahead k),
      (m.setProducerIdx (m.ahead (k + 1))).setSlot (m.ahead k)
        ((m.slots (m.ahead k)).reset.storeAll call.stores)) := by
  have hlt : m.ahead k < m.header.slotCount := Nat.mod_lt _ (Nat.zero_lt_of_lt h.producerIdx_lt)
  have hget : getSlot (m.setProducerIdx (m.ahead (k + 1))).header (m.ahead k) rb.slotSize = _ :=
    h.fits.getSlot_eq rfl hlt
  have hdata : ¬ call.data.length > rb.slotSize - sizeOfSlotMetadata := Nat.not_lt.mpr hl
  simp only [write, RingM.exec_bind, RingM.exec_liftExcept, maxPayloadSize_eq h.slotSize_ge,
    Nat.not_lt.mpr hl, if_false, RingM.exec_pure, waitForSlot,
    waitForSlotLoop_found maxAttempts h hk hfirst, RingM.exec_get, RingMemory.setSlot_header, hget,
    RingM.exec_set, Slot.writeData, hdata, RingM.exec_modify, RingMemory.setSlot_setSlot,
    RingMemory.setSlot_slots, Function.update_self, ← Slot.storeAll_append]
  rfl

/-- A slot that `write` has filled holds the message, whatever it contained. -/
theorem holds_stores (slot : Slot) (call : WriteCall) :
    (slot.storeAll call.stores).Holds call.message where
  operation := OperationKind.ofWord_toWord call.kind
  size := rfl
  data := List.take_left' rfl
  ready := SlotStatus.ofWord_toWord .ready

/-- A slot in use is not available. -/
theorem not_available_of_mem {slot : Slot}
    (h : slot.getStatus ∈ [SlotStatus.writing, .ready, .reading]) : slot.available = false := by
  simp only [List.mem_cons, List.not_mem_nil, or_false] at h
  rcases h with h | h | h <;> simp [Slot.available, h]

/-- There is only one first available slot. -/
theorem FirstAvailable.unique {k k' : ℕ} (h : FirstAvailable m k) (h' : FirstAvailable m k') :
    k = k' := by
  have hle : ∀ {i j : ℕ}, FirstAvailable m i → FirstAvailable m j → i ≤ j := by
    intro i j hi hj
    by_contra hlt
    have hno := hi.before j (Nat.lt_of_not_le hlt)
    rw [hj.available] at hno
    cases hno
  exact Nat.le_antisymm (hle h h') (hle h' h)

/-- What a `write` without interference does to the slots: it takes the first slot in its reach that
is not in use, and leaves every other slot as it was. -/
structure TakesFirst (m m' : RingMemory) (call : WriteCall) (result : Except Fault ℕ) : Prop where
  /-- A slot in use is left as it was. -/
  occupied : ∀ idx, (m.slots idx).getStatus ∈ [SlotStatus.writing, .ready, .reading] →
    m'.slots idx = m.slots idx
  /-- The call returns the first slot that reads as `Empty` or `Complete`, when it is among the slot
  at the producer index and the ten after it. -/
  ok_iff : ∀ i, result = .ok i ↔ ∃ k ≤ maxAttempts, i = m.ahead k ∧ FirstAvailable m k
  /-- That slot holds the message. -/
  holds : ∀ i, result = .ok i → (m'.slots i).Holds call.message
  /-- The other slots are left as they were. -/
  others : ∀ i, result = .ok i → ∀ idx, idx ≠ i → m'.slots idx = m.slots idx
  /-- A call that does not return one returns an error, and has changed no slot. -/
  err : ∀ e, result = .error e → e = .err (.ringBufferFull maxAttempts) ∧ m'.slots = m.slots

/-- A call that fills the first available slot. -/
theorem takesFirst_found {m' : RingMemory} {call : WriteCall} {k : ℕ} (hk : k ≤ maxAttempts)
    (hfirst : FirstAvailable m k) (hother : ∀ idx, idx ≠ m.ahead k → m'.slots idx = m.slots idx)
    (hholds : (m'.slots (m.ahead k)).Holds call.message) :
    TakesFirst m m' call (.ok (m.ahead k)) where
  occupied idx hused := by
    refine hother idx ?_
    rintro rfl
    have hno := not_available_of_mem hused
    rw [hfirst.available] at hno
    cases hno
  ok_iff i := by
    constructor
    · rintro ⟨⟩
      exact ⟨k, hk, rfl, hfirst⟩
    · rintro ⟨k', -, rfl, hfirst'⟩
      rw [hfirst.unique hfirst']
  holds := by
    rintro i ⟨⟩
    exact hholds
  others := by
    rintro i ⟨⟩
    exact hother
  err := by rintro e ⟨⟩

/-- A call that finds none. -/
theorem takesFirst_full {m' : RingMemory} {call : WriteCall}
    (hnone : ∀ j ≤ maxAttempts, (m.slots (m.ahead j)).available = false)
    (hslots : m'.slots = m.slots) :
    TakesFirst m m' call (.error (.err (.ringBufferFull maxAttempts))) where
  occupied idx _ := by rw [hslots]
  ok_iff i := by
    refine iff_of_false ?_ ?_
    · rintro ⟨⟩
    · rintro ⟨k, hk, -, hfirst⟩
      have hno := hnone k hk
      rw [hfirst.available] at hno
      cases hno
  holds := by rintro i ⟨⟩
  others := by rintro i ⟨⟩
  err := by
    rintro e ⟨⟩
    exact ⟨rfl, hslots⟩

/-- A `write` whose payload fits takes the first slot in reach that is not in use, whatever the
slots contain. -/
theorem write_takesFirst {call : WriteCall} {limit : ℕ} (hlimit : maxPayloadSize rb = .ok limit)
    (hdata : call.data.length ≤ limit)
    (hoffset : ∀ idx < m.header.slotCount, sizeOfRingHeader + idx * rb.slotSize < 2^64)
    (hp : m.header.producerIdx < m.header.slotCount)
    (hc : m.header.consumerIdx < m.header.slotCount) :
    TakesFirst m ((write rb call).exec m).2 call ((write rb call).exec m).1 := by
  obtain ⟨h64, rfl⟩ := subUsize_eq_ok hlimit
  have hvalid : Valid rb m := ⟨⟨h64, hoffset⟩, hp, hc⟩
  rcases firstAvailable_or m maxAttempts with ⟨k, hk, hfirst⟩ | hnone
  · rw [write_found hvalid hdata hk hfirst]
    refine takesFirst_found hk hfirst (fun idx hne => Function.update_of_ne hne _ _) ?_
    rw [RingMemory.setSlot_slots, Function.update_self]
    exact holds_stores _ call
  · rw [write_full hvalid hdata hnone]
    exact takesFirst_full hnone rfl

/-- In a ring of three slots with the producer index at a `Ready` slot, the next one is taken, whose
status is an unknown word. -/
theorem write_takesFirst_unknownStatus : ∃ m : RingMemory,
    m.header.slotCount = 3 ∧ m.header.producerIdx = 1 ∧ (m.slots 1).getStatus = .ready ∧
      (m.slots 2).status = 77 ∧
      ((write ⟨576, 128, true⟩ ⟨.custom, [7], Uuid.nil, 0⟩).exec m).1 = .ok 2 := by
  let ready : Slot := (Slot.zeroed 64).store (.status .ready)
  let unknown : Slot := { Slot.zeroed 64 with status := 77 }
  let m : RingMemory := {
    header := ⟨RingHeader.MAGIC, RingHeader.VERSION, 576, 128, 3, 1, 0, 1, 0, 0, 0⟩
    slots := fun idx => if idx = 1 then ready else unknown }
  have htakes := @write_takesFirst ⟨576, 128, true⟩ m ⟨.custom, [7], Uuid.nil, 0⟩ 64 rfl
    (by decide) (by decide) (by decide) (by decide)
  refine ⟨m, rfl, rfl, rfl, rfl, (htakes.ok_iff 2).mpr ⟨1, by decide, rfl, rfl, ?_⟩⟩
  intro j hj
  obtain rfl : j = 0 := by omega
  rfl

/-! ## `read` -/

/-- Equal indices: `read` takes the ring to be empty. -/
theorem read_empty (heq : m.header.producerIdx = m.header.consumerIdx) :
    (read rb).exec m = (.ok none, m) := by
  simp [read, heq]

/-- A ready slot whose size is in bounds is delivered. -/
theorem read_ready {slot : SlotRef}
    (hslot : getSlot m.header m.header.consumerIdx rb.slotSize = .ok slot)
    (hne : m.header.producerIdx ≠ m.header.consumerIdx)
    (hready : (m.slots m.header.consumerIdx).getStatus = .ready)
    (hsize : (m.slots m.header.consumerIdx).size ≤ rb.payloadSize) :
    (read rb).exec m =
      (.ok (some ⟨(m.slots m.header.consumerIdx).getOperation,
          (m.slots m.header.consumerIdx).data.take (m.slots m.header.consumerIdx).size⟩),
        ((m.setConsumerIdx ((m.header.consumerIdx + 1) % m.header.slotCount)).setSlot
          m.header.consumerIdx
          ((m.slots m.header.consumerIdx).store (.status .complete))).incrementCompleted) := by
  obtain ⟨rfl, -⟩ := getSlot_ok hslot
  have hnext := nextConsumerIdx_exec m (nextIdx_of_getSlot hslot)
  have hget : getSlot (m.setConsumerIdx ((m.header.consumerIdx + 1) % m.header.slotCount)).header
      m.header.consumerIdx rb.slotSize = _ := hslot
  have hs : ¬ (m.slots m.header.consumerIdx).size > rb.slotSize - sizeOfSlotMetadata :=
    Nat.not_lt.mpr hsize
  simp [read, hne, hnext, hget, hready, Slot.readData, Slot.store, hs]

/-- A slot that is not ready, or whose size is out of bounds, is reset. -/
theorem read_skip {slot : SlotRef}
    (hslot : getSlot m.header m.header.consumerIdx rb.slotSize = .ok slot)
    (hne : m.header.producerIdx ≠ m.header.consumerIdx)
    (hskip : (m.slots m.header.consumerIdx).getStatus ≠ .ready ∨
      rb.payloadSize < (m.slots m.header.consumerIdx).size) :
    (read rb).exec m = (.ok none,
      (m.setConsumerIdx ((m.header.consumerIdx + 1) % m.header.slotCount)).setSlot
        m.header.consumerIdx (m.slots m.header.consumerIdx).reset) := by
  obtain ⟨rfl, -⟩ := getSlot_ok hslot
  have hnext := nextConsumerIdx_exec m (nextIdx_of_getSlot hslot)
  have hget : getSlot (m.setConsumerIdx ((m.header.consumerIdx + 1) % m.header.slotCount)).header
      m.header.consumerIdx rb.slotSize = _ := hslot
  by_cases hready : (m.slots m.header.consumerIdx).getStatus = .ready
  · have hs : rb.slotSize - sizeOfSlotMetadata < (m.slots m.header.consumerIdx).size :=
      hskip.resolve_left (by simpa using hready)
    simp [read, hne, hnext, hget, hready, Slot.readData, Slot.store, hs]
    rfl
  · simp [read, hne, hnext, hget, hready]

end Elgate.Ring
