import Elgate.Foundation.Cyclic
import Elgate.Ring.Spec
import Elgate.Ring.Steps

/-!
# Calls that nothing disturbs

What the calls of `write` and `read` do when the slots are as they rely on (`Sees`): a call of
`write` finds the slot that it claims available and fills it (`writeStep_of_sees`), and the call of
`read` finds the slot that it passes `Ready` and returns its message (`readStep_of_sees`).
-/

namespace Elgate.Ring

/-- The slot that the call has claimed. -/
def WritePc.claimed : WritePc → Option ℕ
  | .checkEmpty _ idx => some idx
  | .checkComplete _ idx => some idx
  | .storing idx _ _ => some idx
  | _ => none

@[simp] theorem WritePc.claimed_loadProducerIdx (attempts : ℕ) :
    (WritePc.loadProducerIdx attempts).claimed = none := rfl
@[simp] theorem WritePc.claimed_checkEmpty (attempts idx : ℕ) :
    (WritePc.checkEmpty attempts idx).claimed = some idx := rfl
@[simp] theorem WritePc.claimed_storing (idx : ℕ) (st : Store) (rest : List Store) :
    (WritePc.storing idx st rest).claimed = some idx := rfl

/-- The slot that the call has found `Ready`. -/
def ReadPc.reading : ReadPc → Option ℕ
  | .loadOperation idx => some idx
  | .recheckReady idx _ => some idx
  | .storeReading idx _ => some idx
  | .loadSize idx _ => some idx
  | .copy idx _ _ => some idx
  | .storeComplete idx _ _ => some idx
  | .increment idx _ => some idx
  | _ => none

/-- How many slots the call has passed. -/
def ReadPc.passed : ReadPc → ℕ
  | .loadProducerIdx => 0
  | .loadConsumerIdx _ => 0
  | .loadCurrent => 0
  | .compareExchange _ => 0
  | _ => 1

/-- A call passes one slot. -/
theorem ReadPc.passed_le (pc : ReadPc) : pc.passed ≤ 1 := by
  cases pc <;> simp [ReadPc.passed]

/-- What a call of `write` relies on: the slot that it has claimed is available until it stores to
it, and then its stores complete its message. -/
def WritePc.Sees (m : RingMemory) (call : WriteCall) : WritePc → Prop
  | .loadConsumerIdx _ producerIdx => producerIdx < m.header.slotCount
  | .compareExchange _ current => current < m.header.slotCount
  | .checkEmpty _ idx => (m.slots idx).available = true
  | .checkComplete _ idx => (m.slots idx).getStatus = .complete
  | .storing idx st rest => (m.slots idx).getStatus ≠ .ready ∧
    ((m.slots idx).storeAll (st :: rest)).Holds call.message
  | _ => True

/-- What a call of `read` relies on: the slot that it has passed is that of the first message. -/
def ReadPc.Sees (m : RingMemory) (N c : ℕ) (l : List Message) : ReadPc → Prop
  | .loadProducerIdx => True
  | .loadConsumerIdx producerIdx => ∃ k ≤ l.length, producerIdx = (c + k) % N
  | .loadCurrent => l ≠ []
  | .compareExchange current => current < N ∧ l ≠ []
  | .checkReady idx => idx = c % N ∧ l ≠ []
  | .loadOperation idx => idx = c % N ∧ ∃ msg ∈ l.head?, (m.slots idx).Holds msg
  | .recheckReady idx kind =>
    idx = c % N ∧ ∃ msg ∈ l.head?, (m.slots idx).Holds msg ∧ kind = msg.kind
  | .storeReading idx kind =>
    idx = c % N ∧ ∃ msg ∈ l.head?, (m.slots idx).Holds msg ∧ kind = msg.kind
  | .loadSize idx kind =>
    idx = c % N ∧ ∃ msg ∈ l.head?, (m.slots idx).Contains msg ∧ kind = msg.kind
  | .copy idx kind size =>
    idx = c % N ∧ ∃ msg ∈ l.head?, (m.slots idx).Contains msg ∧ kind = msg.kind ∧
      size = msg.data.length
  | .storeComplete idx kind data =>
    idx = c % N ∧ ∃ msg ∈ l.head?, kind = msg.kind ∧ data = some msg.data
  | .increment idx msg => idx = c % N ∧ msg ∈ l.head? ∧ (m.slots idx).available = true
  | .resetting _ _ _ => False

/-- A slot that a call has claimed is not `Ready`. -/
theorem WritePc.Sees.not_ready {m : RingMemory} {call : WriteCall} {pc : WritePc} {idx : ℕ}
    (h : pc.Sees m call) (hclaimed : pc.claimed = some idx) :
    (m.slots idx).getStatus ≠ .ready := by
  intro hready
  cases pc with
  | checkEmpty attempts i =>
    obtain rfl := Option.some.inj hclaimed
    simp [WritePc.Sees, Slot.available, hready] at h
  | checkComplete attempts i =>
    obtain rfl := Option.some.inj hclaimed
    simp [WritePc.Sees, hready] at h
  | storing i st rest =>
    obtain rfl := Option.some.inj hclaimed
    exact h.1 hready
  | loadProducerIdx | loadConsumerIdx | loadCurrent | compareExchange => cases hclaimed

/-- A change to other slots, and to the indices. -/
theorem WritePc.Sees.congr {m m' : RingMemory} {call : WriteCall} {pc : WritePc}
    (h : pc.Sees m call) (hcount : m'.header.slotCount = m.header.slotCount)
    (hslots : ∀ idx, pc.claimed = some idx → m'.slots idx = m.slots idx) : pc.Sees m' call := by
  cases pc with
  | checkEmpty | checkComplete | storing =>
    simp only [WritePc.Sees, hslots _ rfl] at h ⊢
    exact h
  | loadConsumerIdx | compareExchange =>
    simp only [WritePc.Sees, hcount] at h ⊢
    exact h
  | loadProducerIdx | loadCurrent => trivial

/-- Only the slot that is read matters, and that messages are appended makes no difference. -/
theorem ReadPc.Sees.append {m m' : RingMemory} {N c : ℕ} {l : List Message} {pc : ReadPc}
    (h : pc.Sees m N c l) (hslots : ∀ idx, pc.reading = some idx → m'.slots idx = m.slots idx)
    (l' : List Message) : pc.Sees m' N c (l ++ l') := by
  have hhead : ∀ {msg : Message}, msg ∈ l.head? → msg ∈ (l ++ l').head? := by
    intro msg hmsg
    cases l with
    | nil => cases hmsg
    | cons msg' l => exact hmsg
  cases pc with
  | loadProducerIdx => trivial
  | loadConsumerIdx p =>
    obtain ⟨k, hk, rfl⟩ := h
    exact ⟨k, by rw [List.length_append]; omega, rfl⟩
  | loadCurrent => exact List.append_ne_nil_of_left_ne_nil h _
  | compareExchange current => exact ⟨h.1, List.append_ne_nil_of_left_ne_nil h.2 _⟩
  | checkReady idx => exact ⟨h.1, List.append_ne_nil_of_left_ne_nil h.2 _⟩
  | loadOperation | recheckReady | storeReading | loadSize | copy =>
    -- The message that the slot holds is still the first.
    obtain ⟨hidx, msg, hmsg, hrest⟩ := h
    exact ⟨hidx, msg, hhead hmsg, by rw [hslots _ rfl]; exact hrest⟩
  | storeComplete idx kind data =>
    obtain ⟨hidx, msg, hmsg, hrest⟩ := h
    exact ⟨hidx, msg, hhead hmsg, hrest⟩
  | increment idx msg =>
    obtain ⟨hidx, hmsg, hav⟩ := h
    exact ⟨hidx, hhead hmsg, by rw [hslots _ rfl]; exact hav⟩
  | resetting => exact h

/-- The slot that is read is that of the first message. -/
theorem ReadPc.Sees.reading_eq {m : RingMemory} {N c idx : ℕ} {l : List Message} {pc : ReadPc}
    (h : pc.Sees m N c l) (hreading : pc.reading = some idx) : idx = c % N := by
  cases pc with
  | loadOperation | recheckReady | storeReading | loadSize | copy | storeComplete | increment =>
    obtain rfl := Option.some.inj hreading
    exact h.1
  | loadProducerIdx | loadConsumerIdx | loadCurrent | compareExchange | checkReady | resetting =>
    cases hreading

/-! ## The steps of `write` -/

/-- A call whose slot is available, once it has claimed it, claims one slot and fills it. -/
theorem writeStep_of_sees {W R : Type} {rb : RingBuffer} {m : RingMemory} {call : WriteCall}
    {pc : WritePc} (hvalid : Valid rb m) (h : pc.Sees m call) (w : W) (spurious : Bool) :
    (∃ pc', (writeStep rb w call m spurious pc : Effect W R WritePc) = ⟨m, some pc', []⟩ ∧
      pc'.claimed = pc.claimed ∧ pc'.Sees m call) ∨
    (pc.claimed = none ∧ ∃ attempts,
      (writeStep rb w call m spurious pc : Effect W R WritePc) =
        ⟨m.setProducerIdx ((m.header.producerIdx + 1) % m.header.slotCount),
          some (.checkEmpty attempts m.header.producerIdx),
          [.claimed w call m.header.producerIdx]⟩) ∨
    ∃ idx st rest, pc = .storing idx st rest := by
  have hprogram : ∀ {idx : ℕ}, (m.slots idx).getStatus ≠ .ready →
      ∃ pc', WritePc.ofStores idx call.program = some pc' ∧ pc'.claimed = some idx ∧
        pc'.Sees m call := by
    intro idx hready
    have hholds : ((m.slots idx).storeAll call.program).Holds call.message := by
      rw [WriteCall.program, Slot.storeAll_append]
      exact holds_stores _ call
    exact ⟨.storing idx _ _, rfl, rfl, hready, hholds⟩
  cases pc with
  | loadProducerIdx attempts => exact Or.inl ⟨_, rfl, rfl, hvalid.producerIdx_lt⟩
  | loadConsumerIdx attempts p =>
    -- Both indices are in range, so that neither difference underflows and a slot is available.
    obtain ⟨k, hk, hpos, -⟩ := availableSlots_eq h hvalid.consumerIdx_lt
    exact Or.inl ⟨.loadCurrent attempts, by simp [writeStep, hk, hpos], rfl, trivial⟩
  | loadCurrent attempts => exact Or.inl ⟨_, rfl, rfl, hvalid.producerIdx_lt⟩
  | compareExchange attempts current =>
    rw [writeStep_compareExchange hvalid.fits h]
    by_cases hcurrent : m.header.producerIdx = current ∧ spurious = false
    · -- The exchange succeeds, and the slot before the new index is claimed.
      rw [if_pos hcurrent, ← hcurrent.1]
      exact Or.inr (Or.inl ⟨rfl, attempts, rfl⟩)
    · -- It fails with the index that it has found, and is tried again with that one.
      rw [if_neg hcurrent]
      exact Or.inl ⟨.compareExchange attempts m.header.producerIdx, rfl, rfl,
        hvalid.producerIdx_lt⟩
  | checkEmpty attempts idx =>
    have hav : (m.slots idx).available = true := h
    by_cases hempty : (m.slots idx).getStatus = .empty
    · obtain ⟨pc', heq, hclaimed, hsees⟩ := @hprogram idx (by simp [hempty])
      exact Or.inl ⟨pc', by simp [writeStep, hempty, heq], hclaimed, hsees⟩
    · -- An available slot that is not `Empty` is `Complete`, which the next check finds.
      refine Or.inl ⟨.checkComplete attempts idx, by simp [writeStep, hempty], rfl, ?_⟩
      simpa [WritePc.Sees, Slot.available, hempty] using hav
  | checkComplete attempts idx =>
    have hcomplete : (m.slots idx).getStatus = .complete := h
    obtain ⟨pc', heq, hclaimed, hsees⟩ := @hprogram idx (by simp [hcomplete])
    exact Or.inl ⟨pc', by simp [writeStep, hcomplete, heq], hclaimed, hsees⟩
  | storing idx st rest => exact Or.inr (Or.inr ⟨idx, st, rest, rfl⟩)

/-! ## The steps of `read` -/

/-- A step of a call of `read` that returns no message. It changes at most the consumer index and
the slot that the call is reading, and it starts to read only a slot that is `Ready`. -/
structure ReadMove {W R : Type} (m : RingMemory) (N c : ℕ) (l : List Message) (pc : Option ReadPc)
    (e : Effect W R ReadPc) : Prop where
  /-- The number of slots is the same. -/
  slotCount : e.memory.header.slotCount = m.header.slotCount
  /-- So is the producer index. -/
  producerIdx : e.memory.header.producerIdx = m.header.producerIdx
  /-- The consumer index is past the slots that the call has passed. -/
  consumerIdx : e.memory.header.consumerIdx = (c + e.pc.elim 0 ReadPc.passed) % N
  /-- Their number is recorded. -/
  passes : (passes e.events).length + pc.elim 0 ReadPc.passed = e.pc.elim 0 ReadPc.passed
  /-- No message is returned. -/
  deliveries : deliveries e.events = []
  /-- The other slots are the same. -/
  slots : ∀ idx, pc.bind ReadPc.reading ≠ some idx → e.memory.slots idx = m.slots idx
  /-- The call keeps its slot. -/
  still : ∀ idx, pc.bind ReadPc.reading = some idx → e.pc.bind ReadPc.reading = some idx
  /-- It starts to read a slot that is `Ready`. -/
  reading : ∀ idx, e.pc.bind ReadPc.reading = some idx →
    pc.bind ReadPc.reading = some idx ∨ (m.slots idx).getStatus = .ready
  /-- What the next step relies on. -/
  sees : ∀ pc' ∈ e.pc, pc'.Sees e.memory N c l

section
variable {W R : Type} {rb : RingBuffer} {m : RingMemory} {N c : ℕ} {l : List Message}
  {pc pc' : ReadPc} {idx : ℕ}

/-- A step that leaves the memory alone. -/
theorem ReadMove.of_memory {e : Effect W R ReadPc} (heq : e = ⟨m, some pc', []⟩)
    (hconsumer : m.header.consumerIdx = (c + pc.passed) % N) (hpassed : pc'.passed = pc.passed)
    (hstill : ∀ idx, pc.reading = some idx → pc'.reading = some idx)
    (hreading : ∀ idx, pc'.reading = some idx →
      pc.reading = some idx ∨ (m.slots idx).getStatus = .ready)
    (hsees : pc'.Sees m N c l) : ReadMove m N c l (some pc) e := by
  subst heq
  refine ⟨rfl, rfl, ?_, ?_, rfl, fun _ _ => rfl, hstill, hreading, ?_⟩
  · show m.header.consumerIdx = (c + pc'.passed) % N
    rw [hpassed, hconsumer]
  · show 0 + pc.passed = pc'.passed
    rw [hpassed, Nat.zero_add]
  · rintro x ⟨⟩
    exact hsees

/-- A step that loads from the slot that the call reads, or stores to it. -/
theorem ReadMove.of_slot {e : Effect W R ReadPc} {m' : RingMemory} (heq : e = ⟨m', some pc', []⟩)
    (hconsumer : m.header.consumerIdx = (c + pc.passed) % N) (hpassed : pc'.passed = pc.passed)
    (hpc : pc.reading = some idx) (hpc' : pc'.reading = some idx) (hheader : m'.header = m.header)
    (hslots : ∀ i ≠ idx, m'.slots i = m.slots i) (hsees : pc'.Sees m' N c l) :
    ReadMove m N c l (some pc) e := by
  subst heq
  refine ⟨congrArg RingHeader.slotCount hheader, congrArg RingHeader.producerIdx hheader, ?_, ?_,
    rfl, fun i hi => hslots i ?_, fun i hi => hpc'.trans (hpc.symm.trans hi),
    fun i hi => Or.inl (hpc.trans (hpc'.symm.trans hi)), ?_⟩
  · show m'.header.consumerIdx = (c + pc'.passed) % N
    rw [hheader, hpassed, hconsumer]
  · show 0 + pc.passed = pc'.passed
    rw [hpassed, Nat.zero_add]
  · rintro rfl
    exact hi hpc
  · rintro x ⟨⟩
    exact hsees

/-- Until it has passed a slot, a call reads none. -/
theorem readStep_of_sees_passing (hvalid : Valid rb m) (hcount : m.header.slotCount = N)
    (hproducer : m.header.producerIdx = (c + l.length) % N)
    (hconsumer : m.header.consumerIdx = (c + pc.passed) % N) (hpassed : pc.passed = 0)
    (h : pc.Sees m N c l) (r : R) (spurious : Bool) :
    ReadMove m N c l (some pc) (readStep rb r m spurious pc : Effect W R ReadPc) := by
  cases pc with
  | loadProducerIdx =>
    exact ReadMove.of_memory rfl hconsumer rfl (by simp [ReadPc.reading]) (by simp [ReadPc.reading])
      ⟨l.length, le_rfl, hproducer⟩
  | loadConsumerIdx p =>
    obtain ⟨k, hk, rfl⟩ := h
    simp only [readStep]
    split
    · -- The call returns `None`.
      exact ⟨rfl, rfl, hconsumer, rfl, rfl, fun _ _ => rfl, by simp [ReadPc.reading], by simp,
        by simp⟩
    · rename_i hne
      refine ReadMove.of_memory rfl hconsumer rfl (by simp [ReadPc.reading])
        (by simp [ReadPc.reading]) ?_
      -- Without a message the indices that it has loaded would be equal.
      rintro rfl
      obtain rfl := Nat.le_zero.mp hk
      exact hne hconsumer.symm
  | loadCurrent =>
    exact ReadMove.of_memory rfl hconsumer rfl (by simp [ReadPc.reading])
      (by simp [ReadPc.reading]) ⟨hcount ▸ hvalid.consumerIdx_lt, h⟩
  | compareExchange current =>
    obtain ⟨hlt, hne⟩ := h
    rw [readStep_compareExchange hvalid.fits (by rwa [hcount])]
    by_cases hcurrent : m.header.consumerIdx = current ∧ spurious = false
    · rw [if_pos hcurrent, ← hcurrent.1, hcount]
      refine ⟨rfl, rfl, ?_, rfl, rfl, fun _ _ => rfl, by simp [ReadPc.reading],
        by simp [ReadPc.reading], ?_⟩
      · show (m.header.consumerIdx + 1) % N = _
        rw [hconsumer, Cyclic.mod_succ]
        rfl
      · rintro pc' ⟨⟩
        exact ⟨hconsumer, hne⟩
    · rw [if_neg hcurrent]
      exact ReadMove.of_memory rfl hconsumer rfl (by simp [ReadPc.reading])
        (by simp [ReadPc.reading]) ⟨hcount ▸ hvalid.consumerIdx_lt, hne⟩
  | checkReady | loadOperation | recheckReady | storeReading | loadSize | copy | storeComplete
  | increment | resetting => cases hpassed

/-- A call that has found its slot `Ready` reads the first message from it. -/
theorem readStep_of_sees_reading (hconsumer : m.header.consumerIdx = (c + pc.passed) % N)
    (hfits : ∀ msg ∈ l, msg.data.length ≤ rb.payloadSize) (h : pc.Sees m N c l)
    (hreading : pc.reading = some idx) (r : R) (spurious : Bool) :
    (∃ idx msg, pc = .increment idx msg) ∨
      ReadMove m N c l (some pc) (readStep rb r m spurious pc : Effect W R ReadPc) := by
  cases pc with
  | increment idx msg => exact Or.inl ⟨idx, msg, rfl⟩
  | loadOperation idx =>
    obtain ⟨rfl, msg, hmsg, hholds⟩ := h
    exact Or.inr (ReadMove.of_slot rfl hconsumer rfl rfl rfl rfl (fun _ _ => rfl)
      ⟨rfl, msg, hmsg, hholds, hholds.operation⟩)
  | recheckReady idx kind =>
    obtain ⟨rfl, msg, hmsg, hholds, hkind⟩ := h
    right
    simp only [readStep, hholds.ready, if_true]
    exact ReadMove.of_slot rfl hconsumer rfl rfl rfl rfl (fun _ _ => rfl)
      ⟨rfl, msg, hmsg, hholds, hkind⟩
  | storeReading idx kind =>
    obtain ⟨rfl, msg, hmsg, hholds, hkind⟩ := h
    refine Or.inr (ReadMove.of_slot rfl hconsumer rfl rfl rfl rfl
      (fun i hi => Function.update_of_ne hi _ _) ⟨rfl, msg, hmsg, ?_, hkind⟩)
    -- The store changes the status only.
    show ((m.setSlot (c % N) ((m.slots (c % N)).store (.status .reading))).slots
      (c % N)).Contains msg
    rw [RingMemory.setSlot_slots, Function.update_self]
    exact Slot.contains_store_status hholds.toContains _
  | loadSize idx kind =>
    obtain ⟨rfl, msg, hmsg, hcontains, hkind⟩ := h
    have hsize : ¬ (m.slots (c % N)).size > rb.payloadSize := by
      rw [hcontains.size]
      exact Nat.not_lt.mpr (hfits _ (List.mem_of_mem_head? hmsg))
    right
    simp only [readStep, hsize, if_false]
    exact ReadMove.of_slot rfl hconsumer rfl rfl rfl rfl (fun _ _ => rfl)
      ⟨rfl, msg, hmsg, hcontains, hkind, hcontains.size⟩
  | copy idx kind size =>
    obtain ⟨rfl, msg, hmsg, hcontains, hkind, hsize⟩ := h
    exact Or.inr (ReadMove.of_slot rfl hconsumer rfl rfl rfl rfl (fun _ _ => rfl)
      ⟨rfl, msg, hmsg, hkind, by rw [hsize, hcontains.data]⟩)
  | storeComplete idx kind data =>
    obtain ⟨rfl, msg, hmsg, hkind, rfl⟩ := h
    refine Or.inr (ReadMove.of_slot rfl hconsumer rfl rfl rfl rfl
      (fun i hi => Function.update_of_ne hi _ _) ⟨rfl, by rw [hkind]; exact hmsg, ?_⟩)
    -- The slot can be claimed again.
    show ((m.setSlot (c % N) ((m.slots (c % N)).store (.status .complete))).slots
      (c % N)).available = true
    rw [RingMemory.setSlot_slots, Function.update_self]
    exact Slot.available_store_complete _
  | loadProducerIdx | loadConsumerIdx | loadCurrent | compareExchange | checkReady | resetting =>
    cases hreading

/-- A call that finds the slot that it passes `Ready` returns the first message. -/
theorem readStep_of_sees (hvalid : Valid rb m) (hcount : m.header.slotCount = N)
    (hproducer : m.header.producerIdx = (c + l.length) % N)
    (hconsumer : m.header.consumerIdx = (c + pc.passed) % N)
    (hhead : pc.reading = none → ∀ msg ∈ l.head?, (m.slots (c % N)).getStatus = .ready →
      (m.slots (c % N)).Holds msg)
    (hfits : ∀ msg ∈ l, msg.data.length ≤ rb.payloadSize) (h : pc.Sees m N c l)
    (hready : ∀ idx, pc = .checkReady idx → (m.slots idx).getStatus = .ready) (r : R)
    (spurious : Bool) :
    (∃ idx msg, pc = .increment idx msg) ∨
      ReadMove m N c l (some pc) (readStep rb r m spurious pc : Effect W R ReadPc) := by
  cases pc with
  | loadProducerIdx | loadConsumerIdx | loadCurrent | compareExchange =>
    exact Or.inr (readStep_of_sees_passing hvalid hcount hproducer hconsumer rfl h r spurious)
  | loadOperation | recheckReady | storeReading | loadSize | copy | storeComplete | increment =>
    exact readStep_of_sees_reading hconsumer hfits h rfl r spurious
  | resetting => exact h.elim
  | checkReady idx =>
    obtain ⟨rfl, hne⟩ := h
    have hst := hready _ rfl
    right
    simp only [readStep, hst, if_true]
    refine ReadMove.of_memory rfl hconsumer rfl (by simp [ReadPc.reading]) ?_ ?_
    · -- The call reads from a slot that it has found `Ready`.
      rintro idx ⟨⟩
      exact Or.inr hst
    · cases l with
      | nil => exact absurd rfl hne
      | cons msg l => exact ⟨rfl, msg, rfl, hhead rfl msg rfl hst⟩

end

end Elgate.Ring
