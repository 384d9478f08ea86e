import Elgate.Ring.Buffer

/-!
# Freshly created rings

`Created` is the outcome of either of the two functions that create a ring. A created ring is
empty: both indices are zero, and every slot is as in a file of zeros (`Created.fresh`).
-/

namespace Elgate.Ring

/-- The memory and the handle that `create` or `create_numa_aware` returned for the options. -/
def Created (options : RingBufferOptions) (m : RingMemory) (rb : RingBuffer) : Prop :=
  ∃ now, create options now = .ok (m, rb) ∨
    ∃ cpuInfo numaNode mbind, createNumaAware cpuInfo options numaNode now = .ok ((m, rb), mbind)

/-- What a fresh ring looks like. -/
structure Fresh (options : RingBufferOptions) (m : RingMemory) (rb : RingBuffer) : Prop where
  /-- The handle has the slot size of the options. -/
  slotSize : rb.slotSize = options.slotSize
  /-- The header has it too. -/
  headerSlotSize : m.header.slotSize = options.slotSize
  /-- The ring has as many slots as fit. -/
  slotCount : m.header.slotCount = (options.size - sizeOfRingHeader) / options.slotSize
  /-- The producer index is zero. -/
  producerIdx : m.header.producerIdx = 0
  /-- The consumer index is zero. -/
  consumerIdx : m.header.consumerIdx = 0
  /-- No operation is completed. -/
  operationsCompleted : m.header.operationsCompleted = 0
  /-- Every slot is zero. -/
  slots : m.slots = fun _ => Slot.zeroed (options.slotSize - sizeOfSlotMetadata)

/-- `get_slot` returns a slot, or panics. -/
theorem getSlot_cases (header : RingHeader) (idx slotSize : ℕ) :
    (∃ slot, getSlot header idx slotSize = .ok slot) ∨
      ∃ p, getSlot header idx slotSize = .error (.panic p) := by
  unfold getSlot mulUsize addUsize subUsize
  split
  · split
    · dsimp only [ok_bind]
      split
      · dsimp only [ok_bind]
        split
        · exact Or.inl ⟨_, rfl⟩
        · exact Or.inr ⟨_, rfl⟩
      · exact Or.inr ⟨_, rfl⟩
    · exact Or.inr ⟨_, rfl⟩
  · exact Or.inr ⟨_, rfl⟩

/-- The loop that resets the slots panics at the first slot that does not fit. -/
theorem resetSlots_fits {slotSize : ℕ} {m m' : RingMemory} (h : resetSlots slotSize m = .ok m')
    (hN : 0 < m.header.slotCount) : SlotsFit slotSize m.header.slotCount := by
  have hloop : ∀ (l : List ℕ) (m : RingMemory),
      l.foldlM (fun m i => do
        let slot ← getSlot m.header i slotSize
        return m.setSlot slot.idx (m.slots slot.idx).reset) m = (.ok m' : Except Fault RingMemory) →
      ∀ i ∈ l, sizeOfSlotMetadata ≤ slotSize ∧ sizeOfRingHeader + i * slotSize < 2^64 := by
    intro l
    induction l with
    | nil => exact fun m _ i hi => absurd hi List.not_mem_nil
    | cons i l ih =>
      intro m h j hj
      rw [List.foldlM_cons] at h
      obtain ⟨m1, h1, h⟩ := bind_eq_ok h
      obtain ⟨slot, hslot, -⟩ := bind_eq_ok h1
      rcases List.mem_cons.mp hj with rfl | hrest
      · exact (getSlot_ok hslot).2.2
      · exact ih m1 h j hrest
  have hfits := hloop _ m h
  exact ⟨(hfits 0 (List.mem_range.mpr hN)).1,
    fun idx hidx => (hfits idx (List.mem_range.mpr hidx)).2⟩

/-- It changes nothing if the slots are all reset. -/
theorem resetSlots_ok {slotSize : ℕ} {m m' : RingMemory}
    (h : resetSlots slotSize m = .ok m') (hreset : ∀ i, (m.slots i).reset = m.slots i) :
    m' = m := by
  have hloop : ∀ l : List ℕ,
      l.foldlM (fun m i => do
        let slot ← getSlot m.header i slotSize
        return m.setSlot slot.idx (m.slots slot.idx).reset) m = (.ok m' : Except Fault RingMemory) →
      m' = m := by
    intro l
    induction l with
    | nil => exact fun h => (pure_eq_ok h).symm
    | cons i l ih =>
      intro h
      rw [List.foldlM_cons] at h
      obtain ⟨m1, h1, h⟩ := bind_eq_ok h
      obtain ⟨slot, hslot, h1⟩ := bind_eq_ok h1
      have hset : m.setSlot slot.idx (m.slots slot.idx).reset = m := by
        rw [hreset, RingMemory.setSlot, Function.update_eq_self]
      rw [← pure_eq_ok h1, hset] at h
      exact ih h
  exact hloop _ h

/-- The header that `RingHeader::new` builds. -/
theorem RingHeader.new_ok {size slotSize now : ℕ} {header : RingHeader}
    (h : RingHeader.new size slotSize now = .ok header) :
    header.slotSize = slotSize ∧ header.slotCount = (size - sizeOfRingHeader) / slotSize ∧
      header.producerIdx = 0 ∧ header.consumerIdx = 0 ∧ header.operationsCompleted = 0 := by
  obtain ⟨room, hroom, h⟩ := bind_eq_ok h
  have hroom := (subUsize_eq_ok hroom).2
  split at h
  · exact absurd h throw_ne_ok
  · obtain rfl := pure_eq_ok h
    exact ⟨rfl, by rw [hroom], rfl, rfl, rfl⟩

/-- Both functions that create a ring initialize the file, and add nothing to its header but a
NUMA node. -/
theorem Created.initFile_eq {options : RingBufferOptions} {m : RingMemory} {rb : RingBuffer}
    (h : Created options m rb) :
    ∃ now extend, initFile options now extend = .ok (m, rb) ∧
      ∀ header, ∃ node, extend header = { header with numaNode := node } := by
  obtain ⟨now, h | ⟨cpuInfo, numaNode, mbind, h⟩⟩ := h
  · exact ⟨now, id, h, fun header => ⟨header.numaNode, rfl⟩⟩
  · unfold createNumaAware at h
    split at h
    · obtain ⟨r, hr, h⟩ := bind_eq_ok h
      obtain ⟨rfl, -⟩ := Prod.mk.inj (pure_eq_ok h)
      exact ⟨now, id, hr, fun header => ⟨header.numaNode, rfl⟩⟩
    · split at h
      · exact absurd h throw_ne_ok
      · obtain ⟨r, hr, h⟩ := bind_eq_ok h
        obtain ⟨rfl, -⟩ := Prod.mk.inj (pure_eq_ok h)
        exact ⟨now, _, hr, fun header => ⟨numaNode % 2^32, rfl⟩⟩

/-- A created ring is fresh, and its slots fit. -/
theorem Created.fresh {options : RingBufferOptions} {m : RingMemory} {rb : RingBuffer}
    (h : Created options m rb) :
    Fresh options m rb ∧
      (0 < m.header.slotCount → SlotsFit options.slotSize m.header.slotCount) := by
  obtain ⟨now, extend, hinit, hextend⟩ := h.initFile_eq
  obtain ⟨header, hnew, hinit⟩ := bind_eq_ok hinit
  obtain ⟨m', hreset, hinit⟩ := bind_eq_ok hinit
  obtain ⟨rfl, rfl⟩ := Prod.mk.inj (pure_eq_ok hinit)
  have hm := resetSlots_ok hreset fun i => by exact Slot.reset_zeroed _
  have hfits := resetSlots_fits hreset
  obtain ⟨h1, h2, h3, h4, h5⟩ := RingHeader.new_ok hnew
  obtain ⟨node, hnode⟩ := hextend header
  rw [hm, hnode]
  rw [hnode] at hfits
  exact ⟨⟨rfl, h1, h2, h3, h4, h5, rfl⟩, hfits⟩

/-- The slots of a created ring fit, when it has one. -/
theorem Created.slotsFit {options : RingBufferOptions} {m : RingMemory} {rb : RingBuffer}
    (h : Created options m rb) (hN : 0 < m.header.slotCount) :
    SlotsFit rb.slotSize m.header.slotCount := by
  obtain ⟨hfresh, hfits⟩ := h.fresh
  rw [hfresh.slotSize]
  exact hfits hN

/-- They have room for their metadata. -/
theorem Created.slotSize_ge {options : RingBufferOptions} {m : RingMemory} {rb : RingBuffer}
    (h : Created options m rb) (hN : 0 < m.header.slotCount) :
    sizeOfSlotMetadata ≤ rb.slotSize := (h.slotsFit hN).slotSize_ge

/-- Every slot of a created ring reads as `Empty`. -/
theorem Fresh.getStatus_eq {options : RingBufferOptions} {m : RingMemory} {rb : RingBuffer}
    (h : Fresh options m rb) (idx : ℕ) : (m.slots idx).getStatus = .empty := by
  rw [h.slots]
  rfl

end Elgate.Ring
