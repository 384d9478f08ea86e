import Elgate.Foundation.Region
import Elgate.Ring.Create

/-!
# The geometry of a created ring

Where `get_slot` puts the slots of a ring in its file, and what `create` needs to build a ring whose
slots lie there properly. `create` checks neither the size nor the slot size: it panics when the
file has no room for the header or a slot none for its metadata, and it misaligns every slot but the
first when the slot size is not a multiple of the metadata's alignment (`create_sound_iff`).
-/

namespace Elgate.Ring

open Region

/-- `align_of::<SlotMetadata>()`. -/
def alignOfSlotMetadata : ℕ := 64

/-- The bytes of the header. -/
def headerRegion : Region := ⟨0, sizeOfRingHeader⟩

/-- The bytes of slot `idx`, for slots of this size. -/
def slotRegion (slotSize idx : ℕ) : Region := cell sizeOfRingHeader slotSize idx

/-- The slot that `get_slot` returns has its metadata at the start of these bytes, and its payload
area in the rest of them. -/
theorem getSlot_region {header : RingHeader} {idx slotSize : ℕ} {slot : SlotRef}
    (h : getSlot header idx slotSize = .ok slot) :
    slotRegion slotSize idx = ⟨slot.offset, sizeOfSlotMetadata + slot.dataSize⟩ := by
  obtain ⟨rfl, -, h64, -⟩ := getSlot_ok h
  change slotRegion slotSize idx =
    ⟨sizeOfRingHeader + idx * slotSize, sizeOfSlotMetadata + (slotSize - sizeOfSlotMetadata)⟩
  rw [Nat.add_sub_cancel' h64]
  rfl

/-- The slots of a file fit that lie within it, and have room for their metadata. -/
theorem SlotsFit.of_inside {slotSize slotCount fileLen : ℕ}
    (h64 : sizeOfSlotMetadata ≤ slotSize) (hlen : fileLen < 2^64)
    (hinside : ∀ i < slotCount, (slotRegion slotSize i).Inside fileLen) :
    SlotsFit slotSize slotCount where
  slotSize_ge := h64
  offset_lt idx hidx := by
    have hend := cell_inside_iff.mp (hinside idx hidx)
    rw [Nat.succ_mul] at hend
    omega

/-- The slots lie within the file, hold their metadata at aligned offsets, and overlap neither the
header nor one another. -/
structure SoundGeometry (options : RingBufferOptions) (m : RingMemory) : Prop where
  /-- A slot ends within the file. -/
  inside : ∀ i < m.header.slotCount, (slotRegion options.slotSize i).Inside options.size
  /-- It holds the metadata. -/
  room : ∀ i < m.header.slotCount, sizeOfSlotMetadata ≤ (slotRegion options.slotSize i).len
  /-- It starts at a multiple of the metadata's alignment. -/
  aligned : ∀ i < m.header.slotCount, alignOfSlotMetadata ∣ (slotRegion options.slotSize i).start
  /-- It has no byte of the header. -/
  header : ∀ i < m.header.slotCount, headerRegion.Disjoint (slotRegion options.slotSize i)
  /-- It has no byte of another slot. -/
  slots : ∀ i < m.header.slotCount, ∀ j < m.header.slotCount, i ≠ j →
    (slotRegion options.slotSize i).Disjoint (slotRegion options.slotSize j)

/-- `create` returns an error, or a ring of sound geometry. It does not panic. -/
def CreatesSound (options : RingBufferOptions) (now : ℕ) : Prop :=
  match create options now with
  | .ok (m, _) => SoundGeometry options m
  | .error (.err _) => True
  | .error (.panic _) => False

/-! ## What `create` does with its options -/

/-- The slots that fit in a file of this size, once its header is taken off. -/
def RingBufferOptions.slotCount (options : RingBufferOptions) : ℕ :=
  (options.size - sizeOfRingHeader) / options.slotSize

/-- The file has room for the header, and the slot size is not zero. -/
def RingBufferOptions.HasHeader (options : RingBufferOptions) : Prop :=
  sizeOfRingHeader ≤ options.size ∧ 0 < options.slotSize

/-- The slots fit, if there is one. -/
def RingBufferOptions.HasRoom (options : RingBufferOptions) : Prop :=
  options.slotCount = 0 ∨ SlotsFit options.slotSize options.slotCount

instance (options : RingBufferOptions) : Decidable options.HasHeader :=
  inferInstanceAs (Decidable (_ ∧ _))

instance (options : RingBufferOptions) : Decidable options.HasRoom :=
  inferInstanceAs (Decidable (_ ∨ _))

/-- `RingHeader::new` panics without room for the header, or with a slot size of zero. -/
theorem RingHeader.new_iff {options : RingBufferOptions} (now : ℕ) :
    (∃ header, RingHeader.new options.size options.slotSize now = .ok header) ↔
      options.HasHeader := by
  unfold RingHeader.new RingBufferOptions.HasHeader subUsize
  by_cases hsize : sizeOfRingHeader ≤ options.size
  · by_cases hslot : options.slotSize = 0
    · simp [hsize, hslot]
    · simp [hsize, hslot, Nat.pos_of_ne_zero hslot, pure, Except.pure]
  · simp [hsize, bind, Except.bind]

/-- The header is built, or `RingHeader::new` panics. -/
theorem RingHeader.new_cases (options : RingBufferOptions) (now : ℕ) :
    (options.HasHeader ∧ ∃ header, RingHeader.new options.size options.slotSize now = .ok header ∧
      header.slotCount = options.slotCount) ∨
    (¬ options.HasHeader ∧ ∃ p, RingHeader.new options.size options.slotSize now =
      .error (.panic p)) := by
  by_cases h : options.HasHeader
  · obtain ⟨header, hnew⟩ := (RingHeader.new_iff now).mpr h
    exact Or.inl ⟨h, header, hnew, (RingHeader.new_ok hnew).2.1⟩
  · refine Or.inr ⟨h, ?_⟩
    unfold RingHeader.new subUsize
    by_cases hsize : sizeOfRingHeader ≤ options.size
    · have hslot : options.slotSize = 0 := by
        by_contra hne
        exact h ⟨hsize, Nat.pos_of_ne_zero hne⟩
      exact ⟨.divideByZero, by simp [hsize, hslot]; rfl⟩
    · exact ⟨.subtractOverflow, by simp [hsize, bind, Except.bind]⟩

/-- The loop that resets the slots ends, or panics. -/
theorem resetSlots_cases (slotSize : ℕ) (m : RingMemory) :
    ((m.header.slotCount = 0 ∨ SlotsFit slotSize m.header.slotCount) ∧
      ∃ m', resetSlots slotSize m = .ok m') ∨
    (¬ (m.header.slotCount = 0 ∨ SlotsFit slotSize m.header.slotCount) ∧
      ∃ p, resetSlots slotSize m = .error (.panic p)) := by
  have hloop : ∀ (l : List ℕ) (m : RingMemory),
      (∃ m', l.foldlM (fun m i => do
        let slot ← getSlot m.header i slotSize
        return m.setSlot slot.idx (m.slots slot.idx).reset) m =
          (.ok m' : Except Fault RingMemory)) ∨
      ∃ p, l.foldlM (fun m i => do
        let slot ← getSlot m.header i slotSize
        return m.setSlot slot.idx (m.slots slot.idx).reset) m =
          (.error (.panic p) : Except Fault RingMemory) := by
    intro l
    induction l with
    | nil => exact fun m => Or.inl ⟨m, rfl⟩
    | cons i l ih =>
      intro m
      rw [List.foldlM_cons]
      rcases getSlot_cases m.header i slotSize with ⟨slot, hslot⟩ | ⟨p, hslot⟩
      · rw [hslot]
        exact ih (m.setSlot slot.idx (m.slots slot.idx).reset)
      · rw [hslot]
        exact Or.inr ⟨p, rfl⟩
  -- While the slots fit the loop goes on, whatever it has stored.
  have hends : SlotsFit slotSize m.header.slotCount → ∀ (l : List ℕ) (m' : RingMemory),
      m'.header.slotCount = m.header.slotCount → (∀ i ∈ l, i < m.header.slotCount) →
      ∃ m'', l.foldlM (fun m i => do
        let slot ← getSlot m.header i slotSize
        return m.setSlot slot.idx (m.slots slot.idx).reset) m' =
          (.ok m'' : Except Fault RingMemory) := by
    intro hfits l
    induction l with
    | nil => exact fun m' _ _ => ⟨m', rfl⟩
    | cons i l ih =>
      intro m' hcount hl
      obtain ⟨m'', hm''⟩ := ih (m'.setSlot i (m'.slots i).reset) hcount fun j hj =>
        hl j (List.mem_cons_of_mem _ hj)
      refine ⟨m'', ?_⟩
      rw [List.foldlM_cons, hfits.getSlot_eq hcount (hl i List.mem_cons_self)]
      exact hm''
  by_cases h : m.header.slotCount = 0 ∨ SlotsFit slotSize m.header.slotCount
  · refine Or.inl ⟨h, ?_⟩
    rcases h with hN | hfits
    · exact ⟨m, by rw [resetSlots, hN]; rfl⟩
    · exact hends hfits _ m rfl fun i hi => List.mem_range.mp hi
  · refine Or.inr ⟨h, ?_⟩
    rcases hloop (List.range m.header.slotCount) m with ⟨m', hm'⟩ | hpanic
    · rw [not_or] at h
      exact absurd (resetSlots_fits hm' (Nat.pos_of_ne_zero h.1)) h.2
    · exact hpanic

/-- `create` returns a ring, or it panics: in `RingHeader::new`, or at a slot that does not fit. -/
theorem create_cases (options : RingBufferOptions) (now : ℕ) :
    (options.HasHeader ∧ options.HasRoom ∧ ∃ m rb, create options now = .ok (m, rb)) ∨
    (¬ (options.HasHeader ∧ options.HasRoom) ∧ ∃ p, create options now = .error (.panic p)) := by
  unfold create initFile
  rcases RingHeader.new_cases options now with ⟨hheader, header, hnew, hN⟩ | ⟨hheader, p, hnew⟩
  · rw [hnew]
    simp only [ok_bind, id_eq]
    have hcount : options.HasRoom ↔
        header.slotCount = 0 ∨ SlotsFit options.slotSize header.slotCount := by
      rw [hN]
      exact Iff.rfl
    rcases resetSlots_cases options.slotSize ⟨header.registerProducer,
      fun _ => Slot.zeroed (options.slotSize - sizeOfSlotMetadata)⟩ with
      ⟨hroom, m', hreset⟩ | ⟨hroom, p, hreset⟩
    · exact Or.inl ⟨hheader, hcount.mpr hroom, m', _, by rw [hreset]; rfl⟩
    · exact Or.inr ⟨fun h => hroom (hcount.mp h.2), p, by rw [hreset]; rfl⟩
  · exact Or.inr ⟨fun h => hheader h.1, p, by rw [hnew]; rfl⟩

/-- In a file whose size is a `usize`, the slots fit when they have room for their metadata. -/
theorem RingBufferOptions.slotsFit_iff {options : RingBufferOptions} (hsize : options.size < 2^64)
    (hheader : sizeOfRingHeader ≤ options.size) :
    SlotsFit options.slotSize options.slotCount ↔ sizeOfSlotMetadata ≤ options.slotSize := by
  constructor
  · exact fun h => h.slotSize_ge
  · exact fun h64 => .of_inside h64 hsize fun i hi => cells_inside_of_div hheader hi

/-- `create` builds a ring of sound geometry exactly when the file has room for the header, the slot
size is not zero, a slot has room for its metadata if there is one, and the slot size is a multiple
of the metadata's alignment if there are two. -/
theorem create_sound_iff (options : RingBufferOptions) (hsize : options.size < 2^64) (now : ℕ) :
    CreatesSound options now ↔
      sizeOfRingHeader ≤ options.size ∧ 0 < options.slotSize ∧
        (options.slotCount = 0 ∨ sizeOfSlotMetadata ≤ options.slotSize) ∧
        (options.slotCount ≤ 1 ∨ alignOfSlotMetadata ∣ options.slotSize) := by
  unfold CreatesSound
  rcases create_cases options now with ⟨hheader, hroom, m, rb, hc⟩ | ⟨hfails, p, hc⟩
  · have hN : m.header.slotCount = options.slotCount :=
      (Created.fresh ⟨now, Or.inl hc⟩).1.slotCount
    have haligned : (∀ i < m.header.slotCount,
        alignOfSlotMetadata ∣ (slotRegion options.slotSize i).start) ↔
        options.slotCount ≤ 1 ∨ alignOfSlotMetadata ∣ options.slotSize := by
      rw [hN]
      exact cells_aligned_iff (by decide)
    rw [hc]
    constructor
    · intro h
      exact ⟨hheader.1, hheader.2, hroom.imp_right fun h => h.slotSize_ge,
        haligned.mp h.aligned⟩
    · rintro ⟨hroom', -, -, hstride⟩
      exact {
        inside := fun i hi => cells_inside_of_div hroom' (by rwa [hN] at hi)
        room := fun i hi => (hroom.resolve_left (by omega)).slotSize_ge
        aligned := haligned.mpr hstride
        header := fun i _ => disjoint_cell (le_of_eq (Nat.zero_add _))
        slots := fun i _ j _ hij => cell_disjoint hij }
  · rw [hc]
    refine iff_of_false id ?_
    rintro ⟨hheader, hslot, hroom, -⟩
    exact hfails ⟨⟨hheader, hslot⟩, hroom.imp_right (options.slotsFit_iff hsize hheader).mpr⟩

/-- Eight slots of 128 bytes. -/
theorem create_sound_eightSlots : CreatesSound ⟨1216, 128⟩ 0 :=
  (create_sound_iff ⟨1216, 128⟩ (by decide) 0).mpr (by decide)

/-- A slot size that is not a multiple of 64: the metadata of slot 1 starts at byte 292. -/
theorem create_sound_fails : ¬ ∀ (options : RingBufferOptions) (now : ℕ),
    options.size < 2^64 → options.slotSize < 2^64 → CreatesSound options now := by
  intro h
  have halign := ((create_sound_iff ⟨1024, 100⟩ (by decide) 0).mp
    (h ⟨1024, 100⟩ 0 (by decide) (by decide))).2.2.2
  revert halign
  decide

end Elgate.Ring
