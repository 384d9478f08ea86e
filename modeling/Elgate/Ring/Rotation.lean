import Elgate.Foundation.Cyclic
import Elgate.Ring.Spec

/-!
# The invariant of a ring that one thread uses

The unread messages of a ring are in consecutive slots from the consumer index on, and the other
slots are available. The producer index need not point at the end of the messages: a `write` that
fails leaves it advanced by eleven slots. It always points at one of the messages or at the end
(`Rotation.le`), so the first available slot that the next `write` finds is the one after the last
message, and the order of the messages is kept.

Positions are counted without end: `base` messages have been read, and the producer index is `j`
positions past the consumer index. The two indices are equal when `j` is zero, or when the ring is
full and `j` is a whole lap. A full ring is therefore taken to be empty by `read` exactly when
nothing has moved the producer index since it was filled.
-/

namespace Elgate.Ring

/-- The slot holds the message, whose payload fits. -/
def Deliverable (payloadSize : ℕ) (slot : Slot) (msg : Message) : Prop :=
  slot.Holds msg ∧ msg.data.length ≤ payloadSize

/-- The ring contains the unread messages, the oldest at position `base`, and its producer index is
`j` positions further. -/
structure Rotation (payloadSize base j : ℕ) (unread : List Message) (m : RingMemory) : Prop where
  /-- The messages are in consecutive slots, and the other slots are available. -/
  layout : Cyclic.Layout (fun idx => Deliverable payloadSize (m.slots idx))
    (fun idx => (m.slots idx).available = true) m.header.slotCount base unread
  /-- There is a slot. -/
  slotCount_pos : 0 < m.header.slotCount
  /-- The consumer index points at the oldest message. -/
  consumerIdx : m.header.consumerIdx = base % m.header.slotCount
  /-- The producer index is `j` positions further. -/
  producerIdx : m.header.producerIdx = (base + j) % m.header.slotCount
  /-- That is one of the messages, or the end. -/
  le : j ≤ unread.length

namespace Rotation

variable {rb : RingBuffer} {m : RingMemory} {base j : ℕ} {unread : List Message}

/-- The handle is valid. -/
theorem valid (h : Rotation rb.payloadSize base j unread m)
    (hfits : SlotsFit rb.slotSize m.header.slotCount) : Valid rb m where
  fits := hfits
  producerIdx_lt := by rw [h.producerIdx]; exact Nat.mod_lt _ h.slotCount_pos
  consumerIdx_lt := by rw [h.consumerIdx]; exact Nat.mod_lt _ h.slotCount_pos

variable {payloadSize : ℕ}

/-- The slots ahead of the producer index, as positions. -/
theorem ahead_eq (h : Rotation payloadSize base j unread m) (k : ℕ) :
    m.ahead k = (base + (j + k)) % m.header.slotCount := by
  rw [RingMemory.ahead, h.producerIdx, Nat.mod_add_mod, Nat.add_assoc]

/-- The slot of an unread message is not available. -/
theorem not_available (h : Rotation payloadSize base j unread m) {i : ℕ}
    (hi : i < unread.length) :
    (m.slots ((base + i) % m.header.slotCount)).available = false :=
  (h.layout.holds i hi).1.not_available

/-- With a slot to spare, the first available slot is the one after the messages. -/
theorem firstAvailable (h : Rotation payloadSize base j unread m)
    (hroom : unread.length < m.header.slotCount) : FirstAvailable m (unread.length - j) where
  available := by
    rw [h.ahead_eq, Nat.add_sub_cancel' h.le]
    exact h.layout.free _ le_rfl hroom
  before i hi := by
    rw [h.ahead_eq]
    exact h.not_available (by omega)

/-- When the ring is full, no slot is available. -/
theorem none_available (h : Rotation payloadSize base j unread m)
    (hfull : unread.length = m.header.slotCount) (k : ℕ) :
    (m.slots (m.ahead k)).available = false := by
  rw [h.ahead_eq, ← Nat.add_mod_mod]
  exact h.not_available (by rw [hfull]; exact Nat.mod_lt _ h.slotCount_pos)

/-- Moving the producer index alone. -/
theorem setProducerIdx (h : Rotation payloadSize base j unread m) {j' : ℕ}
    (hj' : j' ≤ unread.length) :
    Rotation payloadSize base j' unread
      (m.setProducerIdx ((base + j') % m.header.slotCount)) where
  layout := h.layout
  slotCount_pos := h.slotCount_pos
  consumerIdx := h.consumerIdx
  producerIdx := rfl
  le := hj'

/-! ## `write` -/

/-- `write` appends its message, when there is a slot to spare and the end of the messages is within
reach. -/
theorem write_ok (h : Rotation rb.payloadSize base j unread m)
    (hfits : SlotsFit rb.slotSize m.header.slotCount) {call : WriteCall}
    (hl : call.data.length ≤ rb.payloadSize) (hroom : unread.length < m.header.slotCount)
    (hreach : unread.length ≤ j + maxAttempts) :
    ∃ m', (write rb call).exec m = (.ok ((base + unread.length) % m.header.slotCount), m') ∧
      Rotation rb.payloadSize base (unread.length + 1) (unread ++ [call.message]) m' ∧
      m'.SameGeometry m ∧
      m'.header.operationsCompleted = m.header.operationsCompleted := by
  have hfound := write_found (h.valid hfits) hl (by omega) (h.firstAvailable hroom)
  -- The slot that is taken is the one after the messages, and the index moves past it.
  have hend : m.ahead (unread.length - j) = (base + unread.length) % m.header.slotCount := by
    rw [h.ahead_eq, Nat.add_sub_cancel' h.le]
  have hnext : m.ahead (unread.length - j + 1) =
      (base + (unread.length + 1)) % m.header.slotCount := by
    rw [h.ahead_eq, ← Nat.add_assoc j, Nat.add_sub_cancel' h.le]
  rw [hend, hnext] at hfound
  refine ⟨_, hfound, ?_, ⟨rfl, rfl⟩, rfl⟩
  exact {
    layout := by
      refine h.layout.push hroom ⟨?_, hl⟩ ?_ ?_
      · rw [RingMemory.setSlot_slots, Function.update_self]
        exact holds_stores _ call
      -- The other slots are as they were.
      · intro i hi msg hmsg
        rw [RingMemory.setSlot_slots, Function.update_of_ne hi]
        exact hmsg
      · intro i hi hav
        rw [RingMemory.setSlot_slots, Function.update_of_ne hi]
        exact hav
    slotCount_pos := h.slotCount_pos
    consumerIdx := h.consumerIdx
    producerIdx := rfl
    le := by simp }

/-- `write` fails when the end of the messages is out of reach: the producer index moves on, and
still points at a message or at the end. -/
theorem write_outOfReach (h : Rotation rb.payloadSize base j unread m)
    (hfits : SlotsFit rb.slotSize m.header.slotCount) {call : WriteCall}
    (hl : call.data.length ≤ rb.payloadSize) (hfar : j + maxAttempts < unread.length) :
    ∃ m', (write rb call).exec m = (.error (.err (.ringBufferFull maxAttempts)), m') ∧
      Rotation rb.payloadSize base (j + maxAttempts + 1) unread m' ∧
      m'.SameGeometry m ∧
      m'.header.operationsCompleted = m.header.operationsCompleted := by
  have hfull := write_full (h.valid hfits) hl fun i hi => by
    rw [h.ahead_eq]; exact h.not_available (by omega)
  rw [h.ahead_eq] at hfull
  exact ⟨_, hfull, h.setProducerIdx (by omega), ⟨rfl, rfl⟩, rfl⟩

/-- `write` fails when the ring is full. -/
theorem write_full (h : Rotation rb.payloadSize base j unread m)
    (hfits : SlotsFit rb.slotSize m.header.slotCount) {call : WriteCall}
    (hl : call.data.length ≤ rb.payloadSize) (hfull : unread.length = m.header.slotCount) :
    ∃ m', (write rb call).exec m = (.error (.err (.ringBufferFull maxAttempts)), m') ∧
      Rotation rb.payloadSize base ((j + (maxAttempts + 1)) % m.header.slotCount) unread m' ∧
      m'.SameGeometry m ∧
      m'.header.operationsCompleted = m.header.operationsCompleted := by
  have hfail := Ring.write_full (h.valid hfits) hl fun i _ => h.none_available hfull i
  rw [h.ahead_eq, ← Nat.add_mod_mod] at hfail
  have hlt := Nat.mod_lt (j + (maxAttempts + 1)) h.slotCount_pos
  exact ⟨_, hfail, h.setProducerIdx (by omega), ⟨rfl, rfl⟩, rfl⟩

/-- The outcomes of `write`: it appends its message, it refuses a payload that is too large, or it
fails and moves the producer index, on a full ring by eleven positions. -/
theorem write_cases (h : Rotation rb.payloadSize base j unread m)
    (hfits : SlotsFit rb.slotSize m.header.slotCount) (call : WriteCall) :
    (Fits rb call ∧ unread.length < m.header.slotCount ∧ unread.length ≤ j + maxAttempts ∧
      ∃ m', (write rb call).exec m = (.ok ((base + unread.length) % m.header.slotCount), m') ∧
        Rotation rb.payloadSize base (unread.length + 1) (unread ++ [call.message]) m' ∧
        m'.SameGeometry m ∧
        m'.header.operationsCompleted = m.header.operationsCompleted) ∨
    (¬ Fits rb call ∧ (write rb call).exec m = (.error (.err .dataTooLarge), m)) ∨
    (Fits rb call ∧ (unread.length = m.header.slotCount ∨ j + maxAttempts < unread.length) ∧
      ∃ j' m', (write rb call).exec m = (.error (.err (.ringBufferFull maxAttempts)), m') ∧
        Rotation rb.payloadSize base j' unread m' ∧
        (unread.length = m.header.slotCount →
          j' = (j + (maxAttempts + 1)) % m.header.slotCount) ∧
        m'.SameGeometry m ∧
        m'.header.operationsCompleted = m.header.operationsCompleted) := by
  by_cases hfit : Fits rb call
  · rcases Nat.lt_or_ge unread.length m.header.slotCount with hroom | hge
    · -- There is a free slot, which the eleven attempts reach or not.
      rcases Nat.lt_or_ge (j + maxAttempts) unread.length with hfar | hreach
      · obtain ⟨m', hw, hrot, hrest⟩ := h.write_outOfReach hfits hfit.2 hfar
        exact Or.inr (Or.inr ⟨hfit, Or.inr hfar, _, m', hw, hrot,
          fun hfull => absurd hfull (Nat.ne_of_lt hroom), hrest⟩)
      · exact Or.inl ⟨hfit, hroom, hreach, h.write_ok hfits hfit.2 hroom hreach⟩
    · have hfull : unread.length = m.header.slotCount := le_antisymm h.layout.length_le hge
      obtain ⟨m', hw, hrot, hrest⟩ := h.write_full hfits hfit.2 hfull
      exact Or.inr (Or.inr ⟨hfit, Or.inl hfull, _, m', hw, hrot, fun _ => rfl, hrest⟩)
  · have hl : rb.payloadSize < call.data.length :=
      Nat.lt_of_not_le fun hl => hfit ⟨hfits.slotSize_ge, hl⟩
    exact Or.inr (Or.inl ⟨hfit, write_tooLarge hfits.slotSize_ge hl⟩)

/-! ## `read` -/

/-- `read` delivers the oldest message, when the indices differ. -/
theorem read_some (h : Rotation rb.payloadSize base j unread m)
    (hfits : SlotsFit rb.slotSize m.header.slotCount)
    (hne : m.header.producerIdx ≠ m.header.consumerIdx) :
    ∃ msg rest m', unread = msg :: rest ∧ (read rb).exec m = (.ok (some msg), m') ∧
      Rotation rb.payloadSize (base + 1) (j - 1) rest m' ∧
      m'.SameGeometry m ∧
      m'.header.operationsCompleted = (m.header.operationsCompleted + 1) % 2^64 := by
  -- The indices differ, so that there is a message.
  have hj : j ≠ 0 := by
    rintro rfl
    exact hne (by rw [h.producerIdx, h.consumerIdx, Nat.add_zero])
  cases unread with
  | nil => exact absurd (Nat.le_zero.mp h.le) hj
  | cons msg rest =>
    obtain ⟨hholds, hlen⟩ := h.layout.head
    rw [← h.consumerIdx] at hholds
    have hread := read_ready (hfits.getSlot_eq rfl (h.valid hfits).consumerIdx_lt) hne hholds.ready
      (by rw [hholds.size]; exact hlen)
    rw [hholds.operation, hholds.size, hholds.data] at hread
    refine ⟨msg, rest, _, rfl, hread, ?_, ⟨rfl, rfl⟩, rfl⟩
    have hle := h.le
    simp only [List.length_cons] at hle
    exact {
      layout := by
        refine h.layout.pop ?_ ?_ ?_
        -- The slot of the message is available again, and no other slot has changed.
        · rw [← h.consumerIdx, RingMemory.incrementCompleted_slots, RingMemory.setSlot_slots,
            Function.update_self]
          exact Slot.available_store_complete _
        · intro i hi msg hmsg
          rw [← h.consumerIdx] at hi
          rw [RingMemory.incrementCompleted_slots, RingMemory.setSlot_slots,
            Function.update_of_ne hi]
          exact hmsg
        · intro i hi hav
          rw [← h.consumerIdx] at hi
          rw [RingMemory.incrementCompleted_slots, RingMemory.setSlot_slots,
            Function.update_of_ne hi]
          exact hav
      slotCount_pos := h.slotCount_pos
      consumerIdx := by
        show (m.header.consumerIdx + 1) % m.header.slotCount = _
        rw [h.consumerIdx, Cyclic.mod_succ]
        rfl
      producerIdx := by
        show m.header.producerIdx = (base + 1 + (j - 1)) % m.header.slotCount
        rw [h.producerIdx]
        congr 1
        omega
      le := by omega }

/-- The indices are equal when the ring is empty. -/
theorem idx_eq_of_nil (h : Rotation payloadSize base j [] m) :
    m.header.producerIdx = m.header.consumerIdx := by
  have hj : j = 0 := Nat.le_zero.mp h.le
  rw [h.producerIdx, h.consumerIdx, hj, Nat.add_zero]

/-- With a slot to spare, and the producer index at the end of the messages, the indices are equal
only when the ring is empty. -/
theorem nil_of_idx_eq (h : Rotation payloadSize base unread.length unread m)
    (hroom : unread.length < m.header.slotCount)
    (heq : m.header.producerIdx = m.header.consumerIdx) : unread = [] := by
  rw [h.producerIdx, h.consumerIdx] at heq
  have := Cyclic.mod_inj base (by omega) (by omega) (by omega) (by omega) heq
  exact List.length_eq_zero_iff.mp (by omega)

end Rotation

end Elgate.Ring
