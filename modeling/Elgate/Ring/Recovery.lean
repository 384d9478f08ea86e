import Elgate.Ring.InRange
import Elgate.Ring.Linearization
import Elgate.Ring.Producers

/-!
# After a crash

The ring is in a file, and outlives the threads that use it. All of them may stop at any moment of a
run, in the middle of their calls; then another process opens the file and reads. What it finds is
the layout of the messages in flight (`System.Flow`), in which a call of `write` that was cut off
has left its slot not `Ready`, and the call of `read` that was cut off has left its slot in any
state, behind the consumer index (`Interrupted`). So the reads return the messages of the claims
that no read had passed, in the order of the claims, with `None` in the place of each call that was
cut off, and then `None` (`crash_recovery`). No message is returned twice by that, and none is lost
but the one of the read that was cut off. The ring is then a queue again, unless that read has left
its slot unavailable.
-/

namespace Elgate.Ring

open Transition

/-- The messages `l` are in consecutive slots, the first one at position `base`, but for slots that
are not `Ready`; of the other slots those that are not set `apart` are available. -/
structure Interrupted (payloadSize base : ℕ) (apart : ℕ → Prop) (l : List Message)
    (m : RingMemory) : Prop where
  /-- The slots. -/
  layout : Cyclic.Layout
    (fun idx msg => Deliverable payloadSize (m.slots idx) msg ∨ (m.slots idx).getStatus ≠ .ready)
    (fun idx => apart idx ∨ (m.slots idx).available = true) m.header.slotCount base l
  /-- There is a slot to spare. -/
  room : l.length < m.header.slotCount
  /-- The consumer index points at the first message. -/
  consumerIdx : m.header.consumerIdx = base % m.header.slotCount
  /-- The producer index is after the last one. -/
  producerIdx : m.header.producerIdx = (base + l.length) % m.header.slotCount

/-- What a read makes of the slot of a message. -/
def Slot.recovers (slot : Slot) (msg : Message) : Option Message :=
  if slot.getStatus = .ready then some msg else none

namespace Interrupted

variable {rb : RingBuffer} {base : ℕ} {apart : ℕ → Prop} {l : List Message} {m : RingMemory}

/-- A read takes the first slot, and returns its message if it is `Ready`. -/
theorem read {msg : Message} (h : Interrupted rb.payloadSize base apart (msg :: l) m)
    (hslots : SlotsFit rb.slotSize m.header.slotCount) :
    ∃ m', (Ring.read rb).exec m =
        (.ok ((m.slots (base % m.header.slotCount)).recovers msg), m') ∧
      Interrupted rb.payloadSize (base + 1) apart l m' ∧
      m'.header.slotCount = m.header.slotCount ∧
      ∀ idx ≠ base % m.header.slotCount, m'.slots idx = m.slots idx := by
  have hroom := h.room
  rw [List.length_cons] at hroom
  have hlt : m.header.consumerIdx < m.header.slotCount := by
    rw [h.consumerIdx]
    exact Nat.mod_lt _ (by omega)
  have hne : m.header.producerIdx ≠ m.header.consumerIdx := by
    rw [h.producerIdx, h.consumerIdx, List.length_cons]
    intro heq
    have := Cyclic.mod_inj base (by omega) (by omega) (by omega) (by omega) heq
    omega
  have hconsumer : (m.header.consumerIdx + 1) % m.header.slotCount =
      (base + 1) % m.header.slotCount := by
    rw [h.consumerIdx, Cyclic.mod_succ]
  have hproducer : m.header.producerIdx = (base + 1 + l.length) % m.header.slotCount := by
    rw [h.producerIdx, List.length_cons, Nat.add_assoc, Nat.add_comm 1]
  -- After the read the slot is available, and no other slot has changed.
  have hafter : ∀ {m' : RingMemory}, m'.header.slotCount = m.header.slotCount →
      m'.header.consumerIdx = (m.header.consumerIdx + 1) % m.header.slotCount →
      m'.header.producerIdx = m.header.producerIdx →
      (m'.slots (base % m.header.slotCount)).available = true →
      (∀ idx ≠ base % m.header.slotCount, m'.slots idx = m.slots idx) →
      Interrupted rb.payloadSize (base + 1) apart l m' := by
    intro m' hcount hconsumer' hproducer' hav hsame
    refine ⟨?_, by omega, by rw [hconsumer', hconsumer, hcount], ?_⟩
    · rw [hcount]
      refine h.layout.pop (Or.inr hav) (fun idx hidx a => ?_) fun idx hidx => ?_
      · rw [hsame idx hidx]
        exact id
      · rw [hsame idx hidx]
        exact id
    · rw [hproducer', hproducer, hcount]
  have hslot := hslots.getSlot_eq (show m.header.slotCount = _ from rfl) hlt
  unfold Slot.recovers
  rcases h.layout.head with ⟨hholds, hfits⟩ | hcut
  · rw [← h.consumerIdx] at hholds ⊢
    have hread := read_ready hslot hne hholds.ready (by rw [hholds.size]; exact hfits)
    rw [hholds.operation, hholds.size, hholds.data] at hread
    rw [if_pos hholds.ready]
    refine ⟨_, hread, hafter rfl rfl rfl ?_ ?_, rfl, ?_⟩
    · rw [← h.consumerIdx, RingMemory.incrementCompleted_slots, RingMemory.setSlot_slots,
        Function.update_self]
      exact Slot.available_store_complete _
    · intro idx hidx
      rw [← h.consumerIdx] at hidx
      rw [RingMemory.incrementCompleted_slots, RingMemory.setSlot_slots, Function.update_of_ne hidx]
      rfl
    · intro idx hidx
      rw [RingMemory.incrementCompleted_slots, RingMemory.setSlot_slots, Function.update_of_ne hidx]
      rfl
  · rw [← h.consumerIdx] at hcut ⊢
    have hread := read_skip hslot hne (Or.inl hcut)
    rw [if_neg hcut]
    refine ⟨_, hread, hafter rfl rfl rfl ?_ ?_, rfl, ?_⟩
    · rw [← h.consumerIdx, RingMemory.setSlot_slots, Function.update_self, Slot.available,
        Slot.getStatus_reset]
      rfl
    · intro idx hidx
      rw [← h.consumerIdx] at hidx
      rw [RingMemory.setSlot_slots, Function.update_of_ne hidx]
      rfl
    · intro idx hidx
      rw [RingMemory.setSlot_slots, Function.update_of_ne hidx]
      rfl

/-- Reads return the messages of the slots that are `Ready`, in order, and then nothing. -/
theorem reads (hslots : SlotsFit rb.slotSize m.header.slotCount)
    (h : Interrupted rb.payloadSize base apart l m) :
    ∃ m', (Ring.reads rb (l.length + 1)).exec m =
        (.ok ((l.mapIdx fun i msg =>
          (m.slots ((base + i) % m.header.slotCount)).recovers msg) ++ [none]), m') ∧
      Interrupted rb.payloadSize (base + l.length) apart [] m' ∧
      m'.header.slotCount = m.header.slotCount := by
  induction l generalizing base m with
  | nil =>
    have hempty : (Ring.read rb).exec m = (.ok none, m) := by
      refine read_empty ?_
      rw [h.producerIdx, h.consumerIdx]
      rfl
    refine ⟨m, ?_, h, rfl⟩
    simp [Ring.reads, hempty]
  | cons msg l ih =>
    -- The first read takes the first message, and leaves the others.
    obtain ⟨m', hread, hrest, hcount, hsame⟩ := h.read hslots
    rw [← hcount] at hslots
    obtain ⟨m'', hreads, hempty, hcount'⟩ := ih hslots hrest
    have hroom := h.room
    rw [List.length_cons] at hroom
    refine ⟨m'', ?_, ?_, hcount'.trans hcount⟩
    · -- The other slots are those of the messages that are left.
      have hslots : (l.mapIdx fun i msg =>
          (m'.slots ((base + 1 + i) % m'.header.slotCount)).recovers msg) =
          l.mapIdx fun i msg =>
            (m.slots ((base + (i + 1)) % m.header.slotCount)).recovers msg := by
        refine List.mapIdx_eq_mapIdx_iff.mpr fun i hi => ?_
        have hapart : (base + (i + 1)) % m.header.slotCount ≠ base % m.header.slotCount := by
          intro heq
          have := Cyclic.mod_inj base (by omega) (by omega) (by omega) (by omega) heq
          omega
        rw [hcount, Nat.add_assoc, Nat.add_comm 1, hsame _ hapart]
      rw [hslots] at hreads
      rw [List.length_cons, Ring.reads]
      simp only [RingM.exec_bind, hread, hreads]
      rw [List.mapIdx_cons, Nat.add_zero]
      rfl
    · rw [List.length_cons, Nat.add_comm l.length, ← Nat.add_assoc]
      exact hempty

/-- When nothing is set apart and nothing is left, the ring is empty. -/
theorem rotation (h : Interrupted rb.payloadSize base apart [] m)
    (hapart : ∀ idx, apart idx → (m.slots idx).available = true) :
    Rotation rb.payloadSize base 0 [] m where
  layout := ⟨h.layout.length_le, fun i hi => absurd hi (Nat.not_lt_zero i),
    fun i hi hN => (h.layout.free i hi hN).elim (hapart _) id⟩
  slotCount_pos := Nat.zero_lt_of_lt h.room
  consumerIdx := h.consumerIdx
  producerIdx := h.producerIdx
  le := Nat.le_refl 0

end Interrupted

namespace System

variable {W : Type} {rb : RingBuffer} {N c : ℕ} {l : List Message} {s : System W Unit}

/-- The reader is in the slot, and has not left it available. -/
def LeftOpen (s : System W Unit) (idx : ℕ) : Prop :=
  (∃ pc, s.reader () = some pc ∧ pc.visits = some idx) ∧
    (s.memory.slots idx).available = false

/-- A reader that has passed a slot has left it available, or is in it. -/
theorem Flow.leftOpen (h : Flow rb N c l s) (hpassed : s.passed = 1) :
    s.LeftOpen (c % N) ∨ (s.memory.slots (c % N)).available = true := by
  cases hr : s.reader () with
  | none => simp [passed, hr] at hpassed
  | some pc =>
    have hsees := h.reader pc hr
    have hvisits : ∀ {idx}, pc.visits = some idx → idx = c % N →
        s.LeftOpen (c % N) ∨ (s.memory.slots (c % N)).available = true := by
      rintro idx hidx rfl
      cases hav : (s.memory.slots (c % N)).available with
      | true => exact Or.inr rfl
      | false => exact Or.inl ⟨⟨pc, hr, hidx⟩, hav⟩
    cases pc with
    | loadProducerIdx | loadConsumerIdx | loadCurrent | compareExchange =>
      simp [passed, hr, ReadPc.passed] at hpassed
    | checkReady | loadOperation | recheckReady | storeReading | loadSize | copy | storeComplete =>
      exact hvisits rfl hsees.1
    | increment idx msg =>
      obtain ⟨rfl, -, hav⟩ := hsees
      exact Or.inr hav
    | resetting => exact hsees.elim

/-- The reader has passed no more slots than there are messages. -/
theorem Flow.passed_le_length (h : Flow rb N c l s) : s.passed ≤ l.length := by
  have hle := s.passed_le
  rcases Nat.eq_zero_or_pos s.passed with hzero | hpassed
  · omega
  · cases hr : s.reader () with
    | none => simp [passed, hr] at hpassed
    | some pc =>
      simp only [passed, hr, Option.elim_some] at hpassed hle ⊢
      have hne := h.ne_nil hr (by omega)
      have hpos := List.length_pos_iff.mpr hne
      omega

/-- The slot of a message that no read has passed holds it, unless the call is cut off. -/
theorem Flow.recovers (h : Flow rb N c l s) {i : ℕ} (hi : s.passed + i < l.length) :
    ((s.memory.slots ((c + s.passed + i) % N)).Holds l[s.passed + i] ∧
      ∀ w call, ¬ s.Claims w call ((c + s.passed + i) % N)) ∨
    ((s.memory.slots ((c + s.passed + i) % N)).getStatus ≠ .ready ∧
      ∃ w call, s.Claims w call ((c + s.passed + i) % N) ∧
        call.message = l[s.passed + i]) := by
  have hpos : (c + s.passed + i) % N = (c + (s.passed + i)) % N := by rw [Nat.add_assoc]
  rw [hpos]
  rcases h.layout.holds (s.passed + i) hi with ⟨pc, hr, hreading⟩ | hholds | ⟨w, call, hcl, hmsg⟩
  · -- The slot that the reader is in is before the others.
    have hidx := (h.reader pc hr).reading_eq hreading
    have hpassed : s.passed = 1 := by
      simp only [passed, hr, Option.elim_some]
      cases pc <;> first | rfl | cases hreading
    have hlength := h.layout.length_le
    have := Cyclic.mod_inj c (by omega) (by omega) (by omega) (by omega) hidx.symm
    omega
  · exact Or.inl ⟨hholds, fun w call hcl => h.not_ready hcl hholds.ready⟩
  · exact Or.inr ⟨h.not_ready hcl, w, call, hcl, hmsg⟩

/-- What is left of the messages in flight when all threads stop. -/
theorem Flow.interrupted (h : Flow rb N c l s) :
    Interrupted rb.payloadSize (c + s.passed) s.LeftOpen (l.drop s.passed) s.memory := by
  have hle := s.passed_le
  have hroom := h.room
  have hpos := h.slotCount_pos
  have hlength := h.passed_le_length
  have hdrop : (l.drop s.passed).length = l.length - s.passed := List.length_drop
  constructor
  · rw [h.slotCount]
    refine ⟨by omega, fun i hi => ?_, fun i hi hN => ?_⟩
    · rw [List.getElem_drop]
      -- A message in flight is in its slot, or its write was cut off.
      rcases h.recovers (i := i) (by omega) with ⟨hholds, -⟩ | ⟨hcut, -⟩
      · exact Or.inl ⟨hholds, h.fits _ (List.getElem_mem _)⟩
      · exact Or.inr hcut
    · -- A slot behind the messages is free, or that of the reader.
      rcases Nat.lt_or_ge (s.passed + i) N with hlap | hlap
      · obtain ⟨hav, -, -⟩ := h.layout.free (s.passed + i) (by omega) hlap
        rw [Nat.add_assoc]
        exact Or.inr hav
      · have hpassed : s.passed = 1 := by omega
        have hidx : (c + s.passed + i) % N = c % N := by
          rw [show c + s.passed + i = c + N by omega, Nat.add_mod_right]
        rw [hidx]
        exact h.leftOpen hpassed
  · rw [h.slotCount]
    omega
  · rw [h.slotCount]
    exact h.consumerIdx
  · rw [h.slotCount, h.producerIdx, hdrop]
    congr 1
    omega

end System

end Elgate.Ring
