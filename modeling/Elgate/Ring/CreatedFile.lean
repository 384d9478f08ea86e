import Elgate.Ring.Linearization
import Elgate.Ring.MappedSystem

/-!
# The file that `create` makes

`RingBuffer::create` on the bytes of the file: the header is written at its start, the producer is
registered, and the slots are reset. The bytes spell what `create` returns on words
(`createFile_words`), `open` accepts them, and no run of threads changes that (`created_opens`).
Runs on the bytes are runs on the words (`mapped_refines`), so that the bytes of a created file are
a linearizable queue (`mapped_linearizable`).
-/

namespace Elgate.Ring

open Bytes Region Transition

/-- A file that `set_len` has just extended. -/
def Mapping.zeroed (size : ℕ) (h : size < 2^64) : Mapping :=
  ⟨List.replicate size 0, by rw [List.length_replicate]; exact h⟩

/-- The loop of `create` that resets every slot. -/
def Mapping.resetSlots (order : ByteOrder) (slotSize : ℕ) (m : Mapping) :
    List ℕ → Option (Except Fault Mapping)
  | [] => some (.ok m)
  | i :: rest =>
    match getSlot (m.header order) i slotSize with
    | .error e => some (.error e)
    | .ok slot => do
      let m ← m.storeAll order slot Slot.resetStores
      m.resetSlots order slotSize rest

/-- `RingBuffer::create` on a file whose size is a `usize`. -/
def createFile (order : ByteOrder) (options : RingBufferOptions) (hsize : options.size < 2^64)
    (now : ℕ) (tail : Vector UInt8 44) : Option (Except Fault (Mapping × RingBuffer)) :=
  match RingHeader.new options.size options.slotSize now with
  | .error e => some (.error e)
  | .ok header => do
    let m ← (Mapping.zeroed options.size hsize).put 0 (header.toBytes order tail)
    let m ← m.fetchAdd order .activeProducers 1
    let slotCount ← m.load order .slotCount
    match ← m.resetSlots order options.slotSize (List.range slotCount) with
    | .error e => some (.error e)
    | .ok m =>
      some (.ok (m, { size := options.size, slotSize := options.slotSize, isProducer := true }))

section
variable {order : ByteOrder}

/-- Zeros spell zero. -/
theorem decode_replicate (order : ByteOrder) (n : ℕ) : order.decode (List.replicate n 0) = 0 := by
  have hle : ∀ n, ofLeBytes (List.replicate n 0) = 0 := by
    intro n
    induction n with
    | zero => rfl
    | succ n ih =>
      rw [List.replicate_succ, ofLeBytes, ih]
      rfl
  cases order with
  | little => exact hle n
  | big =>
    show ofLeBytes (List.replicate n 0).reverse = 0
    rw [List.reverse_replicate, hle n]

/-- A part of zeros is zeros. -/
theorem slice_replicate {n off len : ℕ} (h : off + len ≤ n) :
    slice (List.replicate n (0 : UInt8)) off len = List.replicate len 0 := by
  unfold slice
  rw [List.drop_replicate, List.take_replicate, Nat.min_eq_left (by omega)]

/-- A slot of zeros is zero. -/
theorem Slot.ofBytes_replicate (order : ByteOrder) (dataSize : ℕ) :
    ofBytes order (List.replicate (sizeOfSlotMetadata + dataSize) 0) = zeroed dataSize := by
  have hslice : ∀ off len, off + len ≤ 64 →
      order.decode (slice (List.replicate (sizeOfSlotMetadata + dataSize) 0) off len) = 0 := by
    intro off len hle
    rw [slice_replicate (by unfold sizeOfSlotMetadata; omega), decode_replicate]
  have hdata : (List.replicate (sizeOfSlotMetadata + dataSize) (0 : UInt8)).drop
      sizeOfSlotMetadata = List.replicate dataSize 0 := by
    rw [List.drop_replicate, Nat.add_sub_cancel_left]
  unfold ofBytes zeroed
  rw [hslice 0 4 (by decide), hslice 4 4 (by decide), hslice 8 8 (by decide),
    hslice 32 8 (by decide), hdata]
  congr 2
  funext word
  have hword := word.isLt
  rw [hslice (16 + 4 * word) 4 (by omega)]
  rfl

/-- The loop of `create` on words succeeds when the slots fit, and leaves slots that are reset. -/
theorem resetSlots_reset {slotSize : ℕ} {m : RingMemory}
    (hfits : SlotsFit slotSize m.header.slotCount)
    (hreset : ∀ i, (m.slots i).reset = m.slots i) : resetSlots slotSize m = .ok m := by
  have hloop : ∀ l : List ℕ, (∀ i ∈ l, i < m.header.slotCount) →
      l.foldlM (fun m i => do
        let slot ← getSlot m.header i slotSize
        return m.setSlot slot.idx (m.slots slot.idx).reset) m =
          (.ok m : Except Fault RingMemory) := by
    intro l hl
    induction l with
    | nil => rfl
    | cons i l ih =>
      have hi := hl i List.mem_cons_self
      have hset : m.setSlot i (m.slots i).reset = m := by
        rw [hreset, RingMemory.setSlot, Function.update_eq_self]
      rw [List.foldlM_cons, hfits.getSlot_eq rfl hi]
      simp only [ok_bind, hset, pure_bind]
      exact ih fun j hj => hl j (List.mem_cons_of_mem _ hj)
  exact hloop _ fun i hi => List.mem_range.mp hi

/-- So does the loop on bytes. -/
theorem Mapping.resetSlots_memory {rb : RingBuffer} {N : ℕ} {l : List ℕ} {m : Mapping}
    (h : m.Spacious rb N) (hcount : (m.header order).slotCount = N) (hl : ∀ i ∈ l, i < N)
    (hreset : ∀ i < N, (m.slot order (rb.slotRef i)).reset = m.slot order (rb.slotRef i)) :
    ∃ m', m.resetSlots order rb.slotSize l = some (.ok m') ∧
      m'.bytes.length = m.bytes.length ∧ m'.memory order rb = m.memory order rb := by
  induction l generalizing m with
  | nil => exact ⟨m, rfl, rfl, rfl⟩
  | cons i l ih =>
    have hi := hl i List.mem_cons_self
    obtain ⟨m1, hstore, hkept, hmemory⟩ := h.storeAll order hi (fits_resetStores rb.payloadSize)
    have hsame : m1.memory order rb = m.memory order rb := by
      have hslot : ((m.memory order rb).slots i).storeAll Slot.resetStores =
          (m.memory order rb).slots i := hreset i hi
      rw [hmemory, hslot, RingMemory.setSlot, Function.update_eq_self]
    have hheader : m1.header order = m.header order := congrArg RingMemory.header hsame
    have hslots : ∀ j, m1.slot order (rb.slotRef j) = m.slot order (rb.slotRef j) :=
      fun j => congrFun (congrArg RingMemory.slots hsame) j
    obtain ⟨m2, hrest, hlength, hmemory2⟩ := ih (m := m1) (h.congr hkept.length)
      (by rw [hheader, hcount]) (fun j hj => hl j (List.mem_cons_of_mem _ hj))
      (fun j hj => by rw [hslots, hreset j hj])
    refine ⟨m2, ?_, hlength.trans hkept.length, hmemory2.trans hsame⟩
    unfold Mapping.resetSlots
    rw [h.getSlot hcount hi]
    simp only [hstore, Option.bind_eq_bind, Option.bind_some]
    exact hrest

/-- A header that `RingHeader::new` builds fits in its words. -/
theorem RingHeader.new_fits {size slotSize now : ℕ} {header : RingHeader}
    (h : RingHeader.new size slotSize now = .ok header) (hsize : size < 2^64)
    (hslot : slotSize < 2^64) (hnow : now < 2^64) : header.Fits := by
  obtain ⟨room, hroom, h⟩ := bind_eq_ok h
  obtain ⟨-, hroom⟩ := subUsize_eq_ok hroom
  split at h
  · exact absurd h throw_ne_ok
  · obtain rfl := pure_eq_ok h
    have hcount : room / slotSize < 2^64 :=
      lt_of_le_of_lt (Nat.div_le_self _ _) (by omega)
    intro field
    cases field <;> simp only [word, HeaderField.width] <;>
      first | assumption | decide

/-- After its header is written and its producer registered, a file of zeros spells the header and
slots of zeros. -/
theorem Mapping.writeHeader (order : ByteOrder) {size : ℕ} (hsize : size < 2^64)
    {header : RingHeader} (hfits : header.Fits) (hle : sizeOfRingHeader ≤ size)
    (tail : Vector UInt8 44) :
    ∃ m1 m2, (Mapping.zeroed size hsize).put 0 (header.toBytes order tail) = some m1 ∧
      m1.fetchAdd order .activeProducers 1 = some m2 ∧ m2.bytes.length = size ∧
      m2.header order = header.registerProducer ∧
      ∀ off len, sizeOfRingHeader ≤ off → off + len ≤ size →
        slice m2.bytes off len = List.replicate len 0 := by
  have hlength : (Mapping.zeroed size hsize).bytes.length = size := List.length_replicate
  have hput : 0 + (header.toBytes order tail).length ≤
      (Mapping.zeroed size hsize).bytes.length := by
    rw [hlength, RingHeader.length_toBytes, Nat.zero_add]
    exact hle
  have hbytes : splice (Mapping.zeroed size hsize).bytes 0 (header.toBytes order tail) =
      header.toBytes order tail ++ List.replicate (size - sizeOfRingHeader) 0 := by
    unfold splice Mapping.zeroed
    rw [List.take_zero, List.nil_append, Nat.zero_add, RingHeader.length_toBytes,
      List.drop_replicate]
  -- The header is stored at the start of the file.
  obtain ⟨m1, hm1, hm1bytes⟩ : ∃ m1, (Mapping.zeroed size hsize).put 0
      (header.toBytes order tail) = some m1 ∧
      m1.bytes = header.toBytes order tail ++ List.replicate (size - sizeOfRingHeader) 0 :=
    ⟨_, dif_pos hput, hbytes⟩
  have hlength1 : m1.bytes.length = size := by
    rw [hm1bytes, List.length_append, RingHeader.length_toBytes, List.length_replicate]
    omega
  have hheader1 : m1.header order = header := by
    unfold Mapping.header
    rw [hm1bytes]
    exact RingHeader.ofBytes_toBytes hfits tail _
  have hlt : (header.activeProducers + 1) % 2^64 < 256 ^ HeaderField.activeProducers.width :=
    Nat.mod_lt _ (by decide)
  -- The producer is registered in the stored header.
  obtain ⟨m2, hm2, hsame, hheader2⟩ :=
    Mapping.storeWord_eq order (show sizeOfRingHeader ≤ m1.bytes.length by omega) hlt
  refine ⟨m1, m2, hm1, ?_, hsame.length.trans hlength1, ?_, ?_⟩
  · unfold Mapping.fetchAdd
    rw [Mapping.load_eq order (by omega), hheader1]
    exact hm2
  · rw [hheader2, hheader1]
    rfl
  · intro off len hoff hend
    -- The counter lies in the header, and the range behind it.
    have hsame' : slice m2.bytes off len = slice m1.bytes off len := by
      refine slice_congr fun i hi => hsame.bytes _ fun hmem => ?_
      have hfield : HeaderField.activeProducers.region = ⟨56, 8⟩ := rfl
      rw [hfield, mem_iff] at hmem
      unfold sizeOfRingHeader at hoff
      dsimp only at hmem
      omega
    have hrest : size - sizeOfRingHeader - (off - sizeOfRingHeader) = size - off := by omega
    have hdrop : m1.bytes.drop off = List.replicate (size - off) 0 := by
      rw [hm1bytes, List.drop_append, List.drop_eq_nil_of_le
        (by rw [RingHeader.length_toBytes]; exact hoff), List.nil_append,
        RingHeader.length_toBytes, List.drop_replicate, hrest]
    rw [hsame']
    unfold slice
    rw [hdrop, List.take_replicate, Nat.min_eq_left (by omega)]

/-- The bytes of a created file spell the ring that `create` returns, and `create` fails on bytes
when it fails on words. -/
theorem createFile_words (order : ByteOrder) {options : RingBufferOptions}
    (hsize : options.size < 2^64) (hslot : options.slotSize < 2^64) {now : ℕ} (hnow : now < 2^64)
    (tail : Vector UInt8 44) :
    (∃ e, create options now = .error e ∧ createFile order options hsize now tail =
      some (.error e)) ∨
    ∃ m rb f, create options now = .ok (m, rb) ∧
      createFile order options hsize now tail = some (.ok (f, rb)) ∧
      f.bytes.length = options.size ∧ f.header order = m.header ∧
      ∀ i < m.header.slotCount, f.slot order (rb.slotRef i) = m.slots i := by
  unfold create initFile createFile
  cases hnew : RingHeader.new options.size options.slotSize now with
  | error e => exact Or.inl ⟨e, rfl, rfl⟩
  | ok header =>
    obtain ⟨hslotSize, hcount, -⟩ := RingHeader.new_ok hnew
    have hle : sizeOfRingHeader ≤ options.size := by
      obtain ⟨room, hroom, -⟩ := bind_eq_ok hnew
      exact (subUsize_eq_ok hroom).1
    obtain ⟨m1, m2, hm1, hm2, hlength, hheader, hzeros⟩ := Mapping.writeHeader order hsize
      (RingHeader.new_fits hnew hsize hslot hnow) hle tail
    -- The slots lie in the file, and are zero.
    have hcount2 : (m2.header order).slotCount =
        (options.size - sizeOfRingHeader) / options.slotSize := by
      rw [hheader]
      exact hcount
    set N := (options.size - sizeOfRingHeader) / options.slotSize with hN
    have hinside : ∀ i < N, (slotRegion options.slotSize i).Inside m2.bytes.length := by
      intro i hi
      rw [hlength]
      exact cells_inside_of_div hle hi
    have hload : m2.load order .slotCount = some N := by
      rw [Mapping.load_eq order (by omega)]
      exact congrArg some hcount2
    simp only [ok_bind, id_eq, hm1, hm2, hload, Option.bind_eq_bind, Option.bind_some]
    rcases Nat.lt_or_ge options.slotSize sizeOfSlotMetadata with hsmall | h64
    · -- The first slot that is reset has no room for its metadata.
      have hget : ∀ {header' : RingHeader}, 0 < header'.slotCount →
          getSlot header' 0 options.slotSize = .error (.panic .subtractOverflow) := by
        intro header' hpos
        have hmul : mulUsize 0 options.slotSize = .ok 0 := by simp [mulUsize]
        unfold getSlot subUsize
        rw [if_pos hpos, hmul, ok_bind, if_neg (Nat.not_le.mpr hsmall)]
        rfl
      have hwordsCount : header.registerProducer.slotCount = N := hcount
      unfold resetSlots
      dsimp only
      rw [hwordsCount]
      cases hzero : N with
      | zero =>
        refine Or.inr ⟨_, _, m2, rfl, rfl, hlength, hheader, fun i hi => ?_⟩
        rw [hwordsCount, hzero] at hi
        exact absurd hi (Nat.not_lt_zero i)
      | succ n =>
        have hrange : List.range (n + 1) = 0 :: (List.range n).map Nat.succ :=
          List.range_succ_eq_map
        have hbytes := hget (show 0 < (m2.header order).slotCount by rw [hcount2]; omega)
        have hwords := hget (show 0 < header.registerProducer.slotCount by rw [hwordsCount]; omega)
        refine Or.inl ⟨.panic .subtractOverflow, ?_, ?_⟩
        · rw [hrange, List.foldlM_cons, hwords]
          rfl
        · rw [hrange]
          unfold Mapping.resetSlots
          rw [hbytes]
          rfl
    · set rb : RingBuffer := ⟨options.size, options.slotSize, true⟩
      have hspacious : m2.Spacious rb N := ⟨by omega, h64, hinside⟩
      have hslots : ∀ i < N, m2.slot order (rb.slotRef i) = Slot.zeroed rb.payloadSize := by
        intro i hi
        have hin :
            (rb.slotRef i).offset + (sizeOfSlotMetadata + rb.payloadSize) ≤ options.size := by
          rw [← hlength]
          exact hspacious.slotRef hi
        have hslice := hzeros _ _ (Nat.le_add_right sizeOfRingHeader (i * rb.slotSize)) hin
        show Slot.ofBytes order (slice m2.bytes (rb.slotRef i).offset
          (sizeOfSlotMetadata + rb.payloadSize)) = _
        rw [← Slot.ofBytes_replicate order rb.payloadSize]
        exact congrArg _ hslice
      obtain ⟨f, hf, hlengthf, hmemory⟩ := Mapping.resetSlots_memory (l := List.range N) hspacious
        hcount2 (fun i hi => List.mem_range.mp hi) fun i hi => by
          rw [hslots i hi, Slot.reset_zeroed]
      have hwords := resetSlots_reset (m := ⟨header.registerProducer,
        fun _ => Slot.zeroed (options.slotSize - sizeOfSlotMetadata)⟩)
        (show SlotsFit _ header.slotCount from hcount ▸ hspacious.fits) fun i => Slot.reset_zeroed _
      refine Or.inr ⟨_, _, f, by rw [hwords]; rfl, by rw [hf]; rfl, hlengthf.trans hlength, ?_, ?_⟩
      · exact (congrArg RingMemory.header hmemory).trans hheader
      · intro i hi
        have hi' : i < N := hcount ▸ hi
        exact (congrFun (congrArg RingMemory.slots hmemory) i).trans (hslots i hi')

/-! ## Runs on a created file -/

/-- A header that `RingHeader::new` builds for at least one slot is valid. -/
theorem RingHeader.new_validate {size slotSize now : ℕ} {header : RingHeader}
    (h : RingHeader.new size slotSize now = .ok header) (hN : 0 < header.slotCount) :
    header.validate = true ∧ header.size = size := by
  obtain ⟨room, hroom, h⟩ := bind_eq_ok h
  obtain ⟨hle, hroom⟩ := subUsize_eq_ok hroom
  split at h
  · exact absurd h throw_ne_ok
  · rename_i hslot
    obtain rfl := pure_eq_ok h
    have hdiv : 0 < room / slotSize := hN
    have hsize : sizeOfRingHeader < size := by
      have hpos : 0 < room := Nat.pos_of_ne_zero fun hzero => by simp [hzero] at hdiv
      omega
    refine ⟨?_, rfl⟩
    simp [validate, hsize, Nat.pos_of_ne_zero hslot, hdiv]

/-- What `create` leaves of a file, when it has a slot: room for the slots, the geometry of the
options, both indices at zero, and every slot available. -/
structure FreshFile (order : ByteOrder) (options : RingBufferOptions) (rb : RingBuffer)
    (f : Mapping) : Prop where
  /-- The handle has the slot size of the options. -/
  slotSize : rb.slotSize = options.slotSize
  /-- The slots lie in the file. -/
  spacious : f.Spacious rb (f.header order).slotCount
  /-- The header is valid. -/
  valid : (f.header order).validate = true
  /-- It has the size of the options. -/
  headerSize : (f.header order).size = options.size
  /-- It has their slot size. -/
  headerSlotSize : (f.header order).slotSize = options.slotSize
  /-- The producer index is zero. -/
  producerIdx : (f.header order).producerIdx = 0
  /-- The consumer index is zero. -/
  consumerIdx : (f.header order).consumerIdx = 0
  /-- The slots are available. -/
  available : ∀ i < (f.header order).slotCount, (f.slot order (rb.slotRef i)).available = true

/-- A file that `create` has made with a slot is fresh. -/
theorem FreshFile.of_createFile {options : RingBufferOptions} {hsize : options.size < 2^64}
    (hslot : options.slotSize < 2^64) {now : ℕ} (hnow : now < 2^64) {tail : Vector UInt8 44}
    {f : Mapping} {rb : RingBuffer}
    (hcreate : createFile order options hsize now tail = some (.ok (f, rb)))
    (hN : 0 < (f.header order).slotCount) : FreshFile order options rb f := by
  rcases createFile_words order hsize hslot hnow tail with ⟨e, -, herror⟩ |
    ⟨m, rb', f', hwords, hbytes, hlength, hheader, hslots⟩
  · rw [hcreate] at herror
    cases herror
  · obtain ⟨rfl, rfl⟩ : f = f' ∧ rb = rb' := by
      rw [hcreate] at hbytes
      cases hbytes
      exact ⟨rfl, rfl⟩
    -- On words the ring is fresh, and the file spells these words.
    obtain ⟨hfresh, hfits⟩ := Created.fresh ⟨now, Or.inl hwords⟩
    obtain ⟨header, hnew, hinit⟩ := bind_eq_ok hwords
    obtain ⟨m', hreset, hinit⟩ := bind_eq_ok hinit
    obtain ⟨rfl, -⟩ := Prod.mk.inj (pure_eq_ok hinit)
    have hm := resetSlots_ok hreset fun i => Slot.reset_zeroed _
    have hregistered : f.header order = header.registerProducer := by
      rw [hheader, hm]
      rfl
    have hcount : (f.header order).slotCount =
        (options.size - sizeOfRingHeader) / options.slotSize := by
      rw [hheader, hfresh.slotCount]
    obtain ⟨hvalid, hheaderSize⟩ := RingHeader.new_validate hnew (by
      rw [hregistered] at hN
      exact hN)
    have hle : sizeOfRingHeader ≤ options.size := by
      obtain ⟨room, hroom, -⟩ := bind_eq_ok hnew
      exact (subUsize_eq_ok hroom).1
    have hroom : sizeOfSlotMetadata ≤ rb.slotSize := by
      rw [hfresh.slotSize]
      exact (hfits (hheader ▸ hN)).slotSize_ge
    exact {
      slotSize := hfresh.slotSize
      spacious := by
        refine ⟨by omega, hroom, fun i hi => ?_⟩
        rw [hcount] at hi
        rw [hfresh.slotSize, hlength]
        exact cells_inside_of_div hle hi
      valid := by rw [hregistered]; exact hvalid
      headerSize := by rw [hregistered]; exact hheaderSize
      headerSlotSize := by rw [hheader]; exact hfresh.headerSlotSize
      producerIdx := by rw [hheader]; exact hfresh.producerIdx
      consumerIdx := by rw [hheader]; exact hfresh.consumerIdx
      available := by
        intro i hi
        rw [hslots i (hheader ▸ hi), hfresh.slots]
        rfl }

/-- A word of the header that no step stores to is the same after a run. -/
theorem Mapping.Kept.word {slotSize N : ℕ} {m m' : Mapping} (h : Mapping.Kept slotSize N m m')
    (field : HeaderField) (hproducer : field ≠ .producerIdx) (hconsumer : field ≠ .consumerIdx)
    (hcompleted : field ≠ .operationsCompleted) :
    (m'.header order).word field = (m.header order).word field := by
  have hfield := field.inside
  have hbytes : slice m'.bytes field.offset field.width =
      slice m.bytes field.offset field.width := by
    refine slice_congr fun i hi => h.bytes _ fun hshared => ?_
    have hapart : ∀ {other : HeaderField}, field ≠ other → field.offset + i ∉ other.region := by
      intro other hne hmem
      have hdisjoint := HeaderField.disjoint hne
      unfold HeaderField.region at hmem
      rw [mem_iff] at hmem
      dsimp only at hmem
      omega
    rcases hshared with hmem | hmem | hmem | ⟨j, -, hmem⟩
    · exact hapart hproducer hmem
    · exact hapart hconsumer hmem
    · exact hapart hcompleted hmem
    · unfold slotRegion cell sizeOfRingHeader at hmem
      rw [mem_iff] at hmem
      dsimp only at hmem
      omega
  unfold Mapping.header RingHeader.ofBytes
  rw [RingHeader.word_ofWords, RingHeader.word_ofWords, hbytes]

/-- A handle of a fresh file is sound. -/
theorem FreshFile.sound {W R : Type} {options : RingBufferOptions} {rb rb' : RingBuffer}
    {f : Mapping} (h : FreshFile order options rb f) (hN : 0 < (f.header order).slotCount)
    (hrb : rb'.slotSize = options.slotSize) :
    MappedSystem.Sound order rb' (f.header order).slotCount
      (MappedSystem.start f : MappedSystem W R) := by
  have hslotSize : rb'.slotSize = rb.slotSize := hrb.trans h.slotSize.symm
  have hspacious : f.Spacious rb' (f.header order).slotCount := by
    have h64 := h.spacious.slotSize_ge
    have hslots := h.spacious.slots
    rw [← hslotSize] at h64 hslots
    exact ⟨h.spacious.header, h64, hslots⟩
  refine MappedSystem.Sound.start hspacious ⟨rfl, ?_, ?_⟩
  · rw [h.producerIdx]
    exact hN
  · rw [h.consumerIdx]
    exact hN

end

/-- `RingBuffer::open` on a mapped file. -/
def openFile (order : ByteOrder) (m : Mapping) (options : RingBufferOptions) :
    Option (Except Fault RingBuffer) :=
  if sizeOfRingHeader ≤ m.bytes.length then some (openRing (m.header order) options) else none

/-- A file that `create` has made with a slot is opened with the size and the slot size that it was
created with, whatever the options say, at any moment of any run of threads on its bytes. -/
theorem created_opens {W R : Type} [DecidableEq W] [DecidableEq R] {order : ByteOrder}
    {options : RingBufferOptions} {hsize : options.size < 2^64} (hslot : options.slotSize < 2^64)
    {now : ℕ} (hnow : now < 2^64) {tail : Vector UInt8 44} {f : Mapping} {rb rb' : RingBuffer}
    (hcreate : createFile order options hsize now tail = some (.ok (f, rb)))
    (hN : 0 < (f.header order).slotCount) (hrb : rb'.slotSize = options.slotSize)
    {s : MappedSystem W R}
    (hrun : Reaches (MappedSystem.step order rb') Always (MappedSystem.start f) s)
    (options' : RingBufferOptions) :
    openFile order s.mapping options' = some (.ok ⟨options.size, options.slotSize, false⟩) := by
  have hfresh := FreshFile.of_createFile hslot hnow hcreate hN
  have hinv := hrun.invariant (I := fun s => MappedSystem.Sound order rb'
      (f.header order).slotCount s ∧ f.Kept rb'.slotSize (f.header order).slotCount s.mapping)
    ⟨hfresh.sound hN hrb, Mapping.Kept.refl _ _ _⟩ fun t a t' ht _ hstep =>
      ⟨ht.1.step hstep, ht.2.trans ((ht.1.step_words a).2 t' hstep)⟩
  have hkept := hinv.2
  have hlength : sizeOfRingHeader ≤ s.mapping.bytes.length := by
    rw [hkept.length]
    exact hfresh.spacious.header
  -- None of the words that are validated has changed.
  have hmagic : (s.mapping.header order).magic = (f.header order).magic :=
    hkept.word .magic (by decide) (by decide) (by decide)
  have hversion : (s.mapping.header order).version = (f.header order).version :=
    hkept.word .version (by decide) (by decide) (by decide)
  have hheaderSize : (s.mapping.header order).size = (f.header order).size :=
    hkept.word .size (by decide) (by decide) (by decide)
  have hslotSize : (s.mapping.header order).slotSize = (f.header order).slotSize :=
    hkept.word .slotSize (by decide) (by decide) (by decide)
  have hcount : (s.mapping.header order).slotCount = (f.header order).slotCount :=
    hkept.word .slotCount (by decide) (by decide) (by decide)
  have hvalid : (s.mapping.header order).validate = true := by
    unfold RingHeader.validate
    rw [hmagic, hversion, hheaderSize, hslotSize, hcount]
    exact hfresh.valid
  unfold openFile openRing
  rw [if_pos hlength, if_pos hvalid, hheaderSize, hslotSize, hfresh.headerSize,
    hfresh.headerSlotSize]
  rfl

set_option maxRecDepth 8000 in
/-- A file of two slots is opened while a thread writes to it. -/
theorem created_opens_written : ∃ (f : Mapping) (rb : RingBuffer) (s : MappedSystem Unit Unit),
    createFile .little ⟨336, 72⟩ (by decide) 0 (.replicate 44 0) = some (.ok (f, rb)) ∧
    Reaches (MappedSystem.step .little rb) Always (MappedSystem.start f) s ∧
    s.mapping.bytes ≠ f.bytes ∧
    openFile .little s.mapping ⟨0, 0⟩ = some (.ok ⟨336, 72, false⟩) := by
  obtain ⟨f, rb, s, hcreate, hN, hrb, hrun, hne⟩ :
      ∃ (f : Mapping) (rb : RingBuffer) (s : MappedSystem Unit Unit),
        createFile .little ⟨336, 72⟩ (by decide) 0 (.replicate 44 0) = some (.ok (f, rb)) ∧
        0 < (f.header .little).slotCount ∧ rb.slotSize = 72 ∧
        Reaches (MappedSystem.step .little rb) Always (MappedSystem.start f) s ∧
        s.mapping.bytes ≠ f.bytes := by
    refine ⟨_, _, _, rfl, ?_, ?_, Reaches.get_runWhere
      (.callWrite () ⟨.custom, [7], Uuid.nil, 0⟩ :: List.replicate 12 (.stepWrite () false))
      (by decide +kernel), ?_⟩ <;> decide +kernel
  exact ⟨f, rb, s, hcreate, hrun, hne,
    created_opens (by decide) (by decide) hcreate hN hrb hrun ⟨0, 0⟩⟩

/-- The bytes of a created file are a linearizable queue for any number of threads that write and
one that reads, through any handle, as long as the payloads fit, a slot is left to spare, and the
reader finds every slot that it passes `Ready`. -/
theorem mapped_linearizable {W : Type} [DecidableEq W] {order : ByteOrder}
    {options : RingBufferOptions} {hsize : options.size < 2^64} (hslot : options.slotSize < 2^64)
    {now : ℕ} (hnow : now < 2^64) {tail : Vector UInt8 44} {f : Mapping} {rb rb' : RingBuffer}
    (hcreate : createFile order options hsize now tail = some (.ok (f, rb)))
    (hN : 0 < (f.header order).slotCount) (hrb : rb'.slotSize = options.slotSize)
    {s : MappedSystem W Unit}
    (hrun : Reaches (MappedSystem.step order rb')
      (fun s a => (s.words order rb').KeepsPace rb' 0 a ∧ (s.words order rb').ReadsReady a)
      (MappedSystem.start f) s) : Atomic.Linearizable queue [] (seen s.history) := by
  have hfresh := FreshFile.of_createFile hslot hnow hcreate hN
  have hsound : MappedSystem.Sound order rb' (f.header order).slotCount
      (MappedSystem.start f : MappedSystem W Unit) := hfresh.sound hN hrb
  -- The run on the bytes is a run on the words, under the same conditions.
  have hwords : Reaches (System.step rb') (fun s a => s.KeepsPace rb' 0 a ∧ s.ReadsReady a)
      (System.start (f.memory order rb')) (s.words order rb') :=
    (hrun.map hsound (fun t a t' h hstep => h.step hstep) (fun t a _ hok => hok)
      (fun t a h => (h.step_words a).1)).1
  have hslotRef : ∀ i, rb'.slotRef i = rb.slotRef i := by
    intro i
    have hslotSize : rb'.slotSize = rb.slotSize := hrb.trans hfresh.slotSize.symm
    unfold RingBuffer.slotRef RingBuffer.payloadSize
    rw [hslotSize]
  -- The created ring is empty, and its slots are available.
  have hrotation : Rotation rb'.payloadSize 0 ([] : List Message).length []
      (f.memory order rb') := by
    refine ⟨⟨Nat.zero_le _, fun i hi => absurd hi (Nat.not_lt_zero i), fun i _ hi => ?_⟩, hN,
      ?_, ?_, le_rfl⟩
    · have hav := hfresh.available ((0 + i) % (f.header order).slotCount) (Nat.mod_lt _ hN)
      rw [← hslotRef] at hav
      exact hav
    · exact hfresh.consumerIdx.trans (Nat.zero_mod _).symm
    · exact hfresh.producerIdx.trans (Nat.zero_mod _).symm
  exact System.InFlight.linearizable
    (System.InFlight.start hrotation hsound.spacious.fits hN) hwords

set_option maxRecDepth 8000 in
/-- On the bytes of a file of three slots a read starts when the ring is empty, and returns `None`
after a write has returned. The next one returns the message. -/
theorem mapped_linearizable_overtaken :
    ∃ (f : Mapping) (rb : RingBuffer) (s : MappedSystem Unit Unit),
      createFile .little ⟨408, 72⟩ (by decide) 0 (.replicate 44 0) = some (.ok (f, rb)) ∧
      Reaches (MappedSystem.step .little rb)
        (fun s a => (s.words .little rb).KeepsPace rb 0 a ∧ (s.words .little rb).ReadsReady a)
        (MappedSystem.start f) s ∧
      seen s.history =
        [.called (.inr ()) .read, .called (.inl ()) (.write ⟨.custom, [7]⟩),
          .returned (.inl ()) (.ok none), .returned (.inr ()) (.ok none),
          .called (.inr ()) .read, .returned (.inr ()) (.ok (some ⟨.custom, [7]⟩))] ∧
      Atomic.Linearizable queue [] (seen s.history) := by
  obtain ⟨f, rb, s, hcreate, hN, hrb, hrun, hseen⟩ :
      ∃ (f : Mapping) (rb : RingBuffer) (s : MappedSystem Unit Unit),
        createFile .little ⟨408, 72⟩ (by decide) 0 (.replicate 44 0) = some (.ok (f, rb)) ∧
        0 < (f.header .little).slotCount ∧ rb.slotSize = 72 ∧
        Reaches (MappedSystem.step .little rb)
          (fun s a => (s.words .little rb).KeepsPace rb 0 a ∧ (s.words .little rb).ReadsReady a)
          (MappedSystem.start f) s ∧
        seen s.history =
          [.called (.inr ()) .read, .called (.inl ()) (.write ⟨.custom, [7]⟩),
            .returned (.inl ()) (.ok none), .returned (.inr ()) (.ok none),
            .called (.inr ()) .read, .returned (.inr ()) (.ok (some ⟨.custom, [7]⟩))] := by
    refine ⟨_, _, _, rfl, ?_, ?_, Reaches.get_runWhere
      (.callRead () :: .stepRead () false :: .callWrite () ⟨.custom, [7], Uuid.nil, 0⟩ ::
        List.replicate 23 (.stepWrite () false) ++ .stepRead () false :: .callRead () ::
        List.replicate 12 (.stepRead () false)) (by decide +kernel), ?_⟩ <;> decide +kernel
  exact ⟨f, rb, s, hcreate, hrun, hseen,
    mapped_linearizable (by decide) (by decide) hcreate hN hrb hrun⟩

end Elgate.Ring
