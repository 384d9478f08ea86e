import Elgate.Ring.HeaderBytes
import Elgate.Ring.Hostile
import Elgate.Ring.InRange

/-!
# Threads on the bytes of a mapped file

`write` and `read` as the steps of `Machine.lean`, on the bytes of the file: each step is a load, a
store, a compare-exchange or a copy at the byte offset of its word, and a step outside the mapping
is not possible. As long as the slots lie within the file and the indices are those of slots, the
system on the bytes is the one on the words that the bytes spell (`mapped_refines`): every step
that is possible on the words is possible on the bytes and leads to the same state, and a run
changes no other byte than those of the indices, of the counter, and of the slots.
-/

namespace Elgate.Ring

open Bytes Region Transition

/-- What a step of a call does to the bytes. -/
structure MappedEffect (W R Pc : Type) where
  /-- The mapping after the step. -/
  mapping : Mapping
  /-- The next step of the call, unless it has returned. -/
  pc : Option Pc
  /-- What is recorded. -/
  events : List (Event W R)

namespace Mapping

section
variable {W R : Type} (order : ByteOrder) (rb : RingBuffer)

/-- `write` up to its first load. -/
def writeCall (m : Mapping) (w : W) (call : WriteCall) : MappedEffect W R WritePc :=
  match maxPayloadSize rb with
  | .ok limit =>
    if call.data.length > limit then
      ⟨m, none, [.writeCalled w call, .writeReturned w call (.error (.err .dataTooLarge))]⟩
    else ⟨m, some (.loadProducerIdx maxAttempts), [.writeCalled w call]⟩
  | .error e => ⟨m, none, [.writeCalled w call, .writeReturned w call (.error e)]⟩

/-- The end of an attempt that has found no slot. -/
def nextAttempt (w : W) (call : WriteCall) (m : Mapping) : ℕ → MappedEffect W R WritePc
  | 0 => ⟨m, none, [.writeReturned w call (.error (.err (.ringBufferFull maxAttempts)))]⟩
  | attempts + 1 => ⟨m, some (.loadProducerIdx attempts), []⟩

/-- A step of `write`. -/
def writeStep (w : W) (call : WriteCall) (m : Mapping) (spurious : Bool) :
    WritePc → Option (MappedEffect W R WritePc)
  | .loadProducerIdx attempts => do
    let producerIdx ← m.load order .producerIdx
    some ⟨m, some (.loadConsumerIdx attempts producerIdx), []⟩
  | .loadConsumerIdx attempts producerIdx => do
    let consumerIdx ← m.load order .consumerIdx
    let slotCount ← m.load order .slotCount
    match availableSlots slotCount producerIdx consumerIdx with
    | .ok available =>
      if available > 0 then some ⟨m, some (.loadCurrent attempts), []⟩
      else some (nextAttempt w call m attempts)
    | .error e => some ⟨m, none, [.writeReturned w call (.error e)]⟩
  | .loadCurrent attempts => do
    let current ← m.load order .producerIdx
    some ⟨m, some (.compareExchange attempts current), []⟩
  | .compareExchange attempts current => do
    let slotCount ← m.load order .slotCount
    match nextIdx current slotCount with
    | .ok next =>
      match ← m.compareExchangeWeak order .producerIdx current next spurious with
      | (.ok _, m) =>
        match getSlot (m.header order) current rb.slotSize with
        | .ok slot => some ⟨m, some (.checkEmpty attempts slot.idx), [.claimed w call current]⟩
        | .error e =>
          some ⟨m, none, [.claimed w call current, .writeReturned w call (.error e)]⟩
      | (.error actual, m) => some ⟨m, some (.compareExchange attempts actual), []⟩
    | .error e => some ⟨m, none, [.writeReturned w call (.error e)]⟩
  | .checkEmpty attempts idx => do
    if (← m.loadStatus order (rb.slotRef idx)) = .empty then
      some ⟨m, WritePc.ofStores idx call.program, []⟩
    else some ⟨m, some (.checkComplete attempts idx), []⟩
  | .checkComplete attempts idx => do
    if (← m.loadStatus order (rb.slotRef idx)) = .complete then
      some ⟨m, WritePc.ofStores idx call.program, []⟩
    else some (nextAttempt w call m attempts)
  | .storing idx st rest => do
    let m ← m.store order (rb.slotRef idx) st
    some ⟨m, WritePc.ofStores idx rest, storeEvents w idx st ++ returnEvents w call idx rest⟩

/-- A step of `read`. -/
def readStep (r : R) (m : Mapping) (spurious : Bool) :
    ReadPc → Option (MappedEffect W R ReadPc)
  | .loadProducerIdx => do
    let producerIdx ← m.load order .producerIdx
    some ⟨m, some (.loadConsumerIdx producerIdx), []⟩
  | .loadConsumerIdx producerIdx => do
    let consumerIdx ← m.load order .consumerIdx
    if producerIdx = consumerIdx then some ⟨m, none, [.readReturned r none (.ok none)]⟩
    else some ⟨m, some .loadCurrent, []⟩
  | .loadCurrent => do
    let current ← m.load order .consumerIdx
    some ⟨m, some (.compareExchange current), []⟩
  | .compareExchange current => do
    let slotCount ← m.load order .slotCount
    match nextIdx current slotCount with
    | .ok next =>
      match ← m.compareExchangeWeak order .consumerIdx current next spurious with
      | (.ok _, m) =>
        match getSlot (m.header order) current rb.slotSize with
        | .ok slot => some ⟨m, some (.checkReady slot.idx), [.passed r current]⟩
        | .error e => some ⟨m, none, [.passed r current, .readReturned r none (.error e)]⟩
      | (.error actual, m) => some ⟨m, some (.compareExchange actual), []⟩
    | .error e => some ⟨m, none, [.readReturned r none (.error e)]⟩
  | .checkReady idx => do
    if (← m.loadStatus order (rb.slotRef idx)) = .ready then
      some ⟨m, some (.loadOperation idx), []⟩
    else some ⟨m, ReadPc.ofStores idx Slot.resetStores, []⟩
  | .loadOperation idx => do
    let kind ← m.loadOperation order (rb.slotRef idx)
    some ⟨m, some (.recheckReady idx kind), []⟩
  | .recheckReady idx kind => do
    if (← m.loadStatus order (rb.slotRef idx)) = .ready then
      some ⟨m, some (.storeReading idx kind), []⟩
    else some ⟨m, ReadPc.ofStores idx Slot.resetStores, []⟩
  | .storeReading idx kind => do
    let m ← m.store order (rb.slotRef idx) (.status .reading)
    some ⟨m, some (.loadSize idx kind), []⟩
  | .loadSize idx kind => do
    let size ← m.loadSize order (rb.slotRef idx)
    if size > rb.payloadSize then some ⟨m, some (.storeComplete idx kind none), []⟩
    else some ⟨m, some (.copy idx kind size), []⟩
  | .copy idx kind size => do
    let data ← m.loadPayload (rb.slotRef idx) size
    some ⟨m, some (.storeComplete idx kind (some data)), []⟩
  | .storeComplete idx kind data => do
    let m ← m.store order (rb.slotRef idx) (.status .complete)
    match data with
    | some data => some ⟨m, some (.increment idx ⟨kind, data⟩), []⟩
    | none => some ⟨m, ReadPc.ofStores idx Slot.resetStores, []⟩
  | .increment idx msg => do
    let m ← m.fetchAdd order .operationsCompleted 1
    some ⟨m, none, [.readReturned r (some idx) (.ok (some msg))]⟩
  | .resetting idx st rest => do
    let m ← m.store order (rb.slotRef idx) st
    some ⟨m, ReadPc.ofStores idx rest,
      match rest with
      | [] => [.readReturned r (some idx) (.ok none)]
      | _ :: _ => []⟩

end

/-! ## The words that the bytes spell -/

section
variable (order : ByteOrder) (rb : RingBuffer)

/-- The header and the slots that the bytes contain. -/
def memory (m : Mapping) : RingMemory :=
  ⟨m.header order, fun idx => m.slot order (rb.slotRef idx)⟩

/-- The bytes have room for a header and its slots. -/
structure Spacious (N : ℕ) (m : Mapping) : Prop where
  /-- The header is in the file. -/
  header : sizeOfRingHeader ≤ m.bytes.length
  /-- A slot has room for its metadata. -/
  slotSize_ge : sizeOfSlotMetadata ≤ rb.slotSize
  /-- It lies in the file. -/
  slots : ∀ i < N, (slotRegion rb.slotSize i).Inside m.bytes.length

/-- The byte is one of an index, of the counter, or of a slot. -/
def Shared (slotSize N k : ℕ) : Prop :=
  k ∈ HeaderField.producerIdx.region ∨ k ∈ HeaderField.consumerIdx.region ∨
    k ∈ HeaderField.operationsCompleted.region ∨ ∃ i < N, k ∈ slotRegion slotSize i

/-- The second mapping is as long as the first, and the bytes that are not shared are the same. -/
structure Kept (slotSize N : ℕ) (m m' : Mapping) : Prop where
  /-- It is as long. -/
  length : m'.bytes.length = m.bytes.length
  /-- The other bytes are the same. -/
  bytes : ∀ k, ¬ Shared slotSize N k → m'.bytes[k]? = m.bytes[k]?

end

section
variable (order : ByteOrder) {rb : RingBuffer} {N : ℕ} {m m' m'' : Mapping}

theorem Kept.refl (slotSize N : ℕ) (m : Mapping) : Kept slotSize N m m := ⟨rfl, fun _ _ => rfl⟩

theorem Kept.trans {slotSize : ℕ} (h : Kept slotSize N m m') (h' : Kept slotSize N m' m'') :
    Kept slotSize N m m'' :=
  ⟨h'.length.trans h.length, fun k hk => (h'.bytes k hk).trans (h.bytes k hk)⟩

/-- A change in a region of shared bytes. -/
theorem SameOutside.kept {r : Region} {slotSize : ℕ} (h : SameOutside r m m')
    (hr : ∀ k ∈ r, Shared slotSize N k) : Kept slotSize N m m' :=
  ⟨h.length, fun k hk => h.bytes k fun hmem => hk (hr k hmem)⟩

/-- A mapping that is as long is as spacious. -/
theorem Spacious.congr (h : Spacious rb N m) (hlength : m'.bytes.length = m.bytes.length) :
    Spacious rb N m' := by
  have hheader := h.header
  have hslots := h.slots
  rw [← hlength] at hheader
  simp only [← hlength] at hslots
  exact ⟨hheader, h.slotSize_ge, hslots⟩

/-- A slot of a spacious mapping lies in it. -/
theorem Spacious.slotRef (h : Spacious rb N m) {idx : ℕ} (hidx : idx < N) :
    (rb.slotRef idx).region.Inside m.bytes.length := by
  rw [slotRef_region h.slotSize_ge]
  exact h.slots idx hidx

/-- The slots of a spacious mapping fit. -/
theorem Spacious.fits (h : Spacious rb N m) : SlotsFit rb.slotSize N :=
  .of_inside h.slotSize_ge m.length_lt h.slots

/-- `get_slot` finds a slot of the ring. -/
theorem Spacious.getSlot (h : Spacious rb N m) {header : RingHeader} (hcount : header.slotCount = N)
    {idx : ℕ} (hidx : idx < N) : getSlot header idx rb.slotSize = .ok (rb.slotRef idx) :=
  h.fits.getSlot_eq hcount hidx

/-- A store to a slot stores to that slot. -/
theorem Spacious.store (h : Spacious rb N m) {idx : ℕ} (hidx : idx < N) {st : Store}
    (hfits : st.Fits rb.payloadSize) :
    ∃ m', m.store order (rb.slotRef idx) st = some m' ∧ Kept rb.slotSize N m m' ∧
      m'.memory order rb =
        (m.memory order rb).setSlot idx (((m.memory order rb).slots idx).store st) := by
  obtain ⟨m', hstore, hsame, hslot⟩ := store_slot order (h.slotRef hidx) hfits
  have hregion := slotRef_region h.slotSize_ge idx
  have hheader : m'.header order = m.header order := by
    refine hsame.header ?_ order
    show 84 ≤ sizeOfRingHeader + idx * rb.slotSize
    unfold sizeOfRingHeader
    omega
  have hslots : (fun i => m'.slot order (rb.slotRef i)) =
      Function.update (fun i => m.slot order (rb.slotRef i)) idx
        ((m.slot order (rb.slotRef idx)).store st) := by
    funext i
    by_cases hi : i = idx
    · subst hi
      rw [Function.update_self, hslot]
    · rw [Function.update_of_ne hi]
      refine hsame.slot ?_ order
      rw [slotRef_region h.slotSize_ge, hregion]
      exact cell_disjoint hi
  refine ⟨m', hstore, hsame.kept fun k hk => ?_, ?_⟩
  · rw [hregion] at hk
    exact Or.inr (Or.inr (Or.inr ⟨idx, hidx, hk⟩))
  · unfold memory RingMemory.setSlot
    rw [hheader, hslots]

/-- So do stores in program order. -/
theorem Spacious.storeAll (h : Spacious rb N m) {idx : ℕ} (hidx : idx < N) {stores : List Store}
    (hfits : ∀ st ∈ stores, st.Fits rb.payloadSize) :
    ∃ m', m.storeAll order (rb.slotRef idx) stores = some m' ∧ Kept rb.slotSize N m m' ∧
      m'.memory order rb =
        (m.memory order rb).setSlot idx (((m.memory order rb).slots idx).storeAll stores) := by
  induction stores generalizing m with
  | nil =>
    refine ⟨m, rfl, Kept.refl _ _ m, ?_⟩
    rw [Slot.storeAll_nil, RingMemory.setSlot, Function.update_eq_self]
  | cons st stores ih =>
    obtain ⟨m1, hstore, hkept, hmemory⟩ := h.store order hidx (hfits st List.mem_cons_self)
    obtain ⟨m2, hrest, hkept', hmemory'⟩ :=
      ih (h.congr hkept.length) fun st' hst' => hfits st' (List.mem_cons_of_mem _ hst')
    refine ⟨m2, ?_, hkept.trans hkept', ?_⟩
    · unfold Mapping.storeAll
      rw [List.foldlM_cons, hstore]
      exact hrest
    · rw [hmemory', hmemory, Slot.storeAll_cons, RingMemory.setSlot_slots, Function.update_self,
        RingMemory.setSlot_setSlot]

/-- A store to a word of the header stores to that word. -/
theorem Spacious.storeWord (h : Spacious rb N m) {field : HeaderField} {x : ℕ}
    (hx : x < 256 ^ field.width) (hshared : ∀ k ∈ field.region, Shared rb.slotSize N k) :
    ∃ m', m.storeWord order field x = some m' ∧ Kept rb.slotSize N m m' ∧
      m'.memory order rb =
        ⟨(m.header order).setWord field x, fun idx => m.slot order (rb.slotRef idx)⟩ := by
  obtain ⟨m', hstore, hsame, hheader⟩ := storeWord_eq order h.header hx
  refine ⟨m', hstore, hsame.kept hshared, ?_⟩
  unfold memory
  rw [hheader]
  congr 1
  funext idx
  refine hsame.slot ?_ order
  rw [slotRef_region h.slotSize_ge]
  intro k hk hk'
  have hfield := field.inside
  unfold slotRegion cell sizeOfRingHeader at hk
  unfold HeaderField.region at hk'
  rw [mem_iff] at hk hk'
  dsimp only at hk hk'
  omega

/-- An exchange of a word of the header succeeds when it finds the current value, unless it fails
spuriously. -/
theorem Spacious.compareExchangeWeak (h : Spacious rb N m) {field : HeaderField} {next : ℕ}
    (current : ℕ) (spurious : Bool) (hnext : next < 256 ^ field.width)
    (hshared : ∀ k ∈ field.region, Shared rb.slotSize N k) :
    ((m.header order).word field = current ∧ spurious = false ∧
      ∃ m', m.compareExchangeWeak order field current next spurious = some (.ok current, m') ∧
        Kept rb.slotSize N m m' ∧ m'.memory order rb =
          ⟨(m.header order).setWord field next, fun idx => m.slot order (rb.slotRef idx)⟩) ∨
    (¬ ((m.header order).word field = current ∧ spurious = false) ∧
      m.compareExchangeWeak order field current next spurious =
        some (.error ((m.header order).word field), m)) := by
  unfold Mapping.compareExchangeWeak
  rw [load_eq order h.header]
  by_cases hcurrent : (m.header order).word field = current ∧ spurious = false
  · obtain ⟨m', hstore, hkept, hmemory⟩ := h.storeWord order hnext hshared
    refine Or.inl ⟨hcurrent.1, hcurrent.2, m', ?_, hkept, hmemory⟩
    simp [hcurrent, hstore]
  · refine Or.inr ⟨hcurrent, ?_⟩
    simp [hcurrent]

end

end Mapping

/-- What the step does to the words that the bytes spell. -/
def MappedEffect.words {W R Pc : Type} (order : ByteOrder) (rb : RingBuffer)
    (e : MappedEffect W R Pc) : Effect W R Pc :=
  ⟨e.mapping.memory order rb, e.pc, e.events⟩

namespace Mapping

variable {W R : Type} {order : ByteOrder} {rb : RingBuffer} {N : ℕ} {m : Mapping}

/-- The next index of a slot fits in its word. -/
theorem next_lt (h : Spacious rb N m) (hN : (m.header order).slotCount ≠ 0) (current : ℕ) :
    (current + 1) % (m.header order).slotCount < 256 ^ 8 := by
  have hcount := fits_header order h.header .slotCount
  have hmod := Nat.mod_lt (current + 1) (Nat.pos_of_ne_zero hN)
  exact hmod.trans hcount

variable (order rb) in
/-- The end of an attempt is the same on the bytes. -/
theorem nextAttempt_words (w : W) (call : WriteCall) (m : Mapping) (attempts : ℕ) :
    (nextAttempt w call m attempts : MappedEffect W R WritePc).mapping = m ∧
      (nextAttempt w call m attempts : MappedEffect W R WritePc).words order rb =
        Ring.nextAttempt w call (m.memory order rb) attempts := by
  cases attempts with
  | zero => exact ⟨rfl, rfl⟩
  | succ attempts => exact ⟨rfl, rfl⟩

/-- A step of `write` on the bytes is the step on the words. -/
theorem writeStep_words (h : Spacious rb N m) (hheader : (m.header order).InRange N (· < N))
    {pc : WritePc} (hpc : pc.InRange N (· < N))
    (hfits : ∀ idx st rest, pc = .storing idx st rest → st.Fits rb.payloadSize) (w : W)
    (call : WriteCall) (spurious : Bool) :
    ∃ e : MappedEffect W R WritePc, m.writeStep order rb w call spurious pc = some e ∧
      Kept rb.slotSize N m e.mapping ∧
      e.words order rb = Ring.writeStep rb w call (m.memory order rb) spurious pc := by
  -- The words that the step loads are in the file, so that every access is defined.
  have hload := load_eq order h.header
  have hN : (m.header order).slotCount ≠ 0 := by
    have hlt := hheader.consumerIdx
    rw [hheader.slotCount]
    omega
  have hstatus : ∀ idx < N, m.loadStatus order (rb.slotRef idx) =
      some ((m.memory order rb).slots idx).getStatus :=
    fun idx hidx => (loads_slot order (h.slotRef hidx)).1
  cases pc with
  | loadProducerIdx attempts =>
    unfold Mapping.writeStep
    rw [hload]
    exact ⟨_, rfl, Kept.refl _ _ _, rfl⟩
  | loadConsumerIdx attempts producerIdx =>
    obtain ⟨k, hk, -⟩ := (closed_lt N).available producerIdx hpc _ hheader.consumerIdx
    rw [← hheader.slotCount] at hk
    have hbytes : availableSlots ((m.header order).word .slotCount) producerIdx
        ((m.header order).word .consumerIdx) = .ok k := hk
    have hwords : availableSlots (m.memory order rb).header.slotCount producerIdx
        (m.memory order rb).header.consumerIdx = .ok k := hk
    obtain ⟨hmapping, hnext⟩ := nextAttempt_words (R := R) order rb w call m attempts
    unfold Mapping.writeStep Ring.writeStep
    simp only [hload, Option.bind_eq_bind, Option.bind_some, hbytes, hwords]
    by_cases hpos : k > 0
    · rw [if_pos hpos, if_pos hpos]
      exact ⟨_, rfl, Kept.refl _ _ _, rfl⟩
    · rw [if_neg hpos, if_neg hpos]
      exact ⟨_, rfl, by rw [hmapping]; exact Kept.refl _ _ _, hnext⟩
  | loadCurrent attempts =>
    unfold Mapping.writeStep
    rw [hload]
    exact ⟨_, rfl, Kept.refl _ _ _, rfl⟩
  | compareExchange attempts current =>
    -- The index is loaded from the file before, and is that of a slot: nothing overflows.
    have hnext : nextIdx current ((m.header order).word .slotCount) =
        .ok ((current + 1) % (m.header order).slotCount) :=
      h.fits.nextIdx_eq hheader.slotCount hpc.1
    have hnext' : nextIdx current (m.memory order rb).header.slotCount =
        .ok ((current + 1) % (m.header order).slotCount) := hnext
    unfold Mapping.writeStep Ring.writeStep
    simp only [hload, Option.bind_eq_bind, Option.bind_some, hnext, hnext']
    have hexchange := h.compareExchangeWeak order current spurious
      (show (current + 1) % (m.header order).slotCount < 256 ^ HeaderField.producerIdx.width from
        next_lt h hN current) (fun k hk => Or.inl hk)
    rcases hexchange with ⟨rfl, rfl, m', hexchange, hkept, hmemory⟩ | ⟨hcurrent, hexchange⟩
    · have hlt : (m.header order).word .producerIdx < N := hheader.producerIdx
      -- `get_slot` looks at the header after the exchange, which has not changed the count.
      have hcount'' : (m'.header order).slotCount = N := by
        have hheader' := congrArg (fun memory => memory.header.slotCount) hmemory
        exact hheader'.trans hheader.slotCount
      have hbytes := h.getSlot hcount'' hlt
      have hwords :=
        h.getSlot (show (m.memory order rb).header.slotCount = N from hheader.slotCount) hlt
      have hcurrent : (m.memory order rb).header.producerIdx =
          (m.header order).word .producerIdx ∧ false = false := ⟨rfl, rfl⟩
      rw [if_pos hcurrent]
      simp only [hexchange, Option.bind_some, hbytes, hwords]
      refine ⟨_, rfl, hkept, ?_⟩
      unfold MappedEffect.words
      dsimp only
      rw [hmemory]
      rfl
    · have hcurrent' : ¬ ((m.memory order rb).header.producerIdx = current ∧ spurious = false) :=
        hcurrent
      rw [if_neg hcurrent']
      simp only [hexchange, Option.bind_some]
      exact ⟨_, rfl, Kept.refl _ _ _, rfl⟩
  | checkEmpty attempts idx =>
    unfold Mapping.writeStep Ring.writeStep
    simp only [hstatus idx hpc, Option.bind_eq_bind, Option.bind_some]
    by_cases hempty : ((m.memory order rb).slots idx).getStatus = .empty
    · rw [if_pos hempty, if_pos hempty]
      exact ⟨_, rfl, Kept.refl _ _ _, rfl⟩
    · rw [if_neg hempty, if_neg hempty]
      exact ⟨_, rfl, Kept.refl _ _ _, rfl⟩
  | checkComplete attempts idx =>
    obtain ⟨hmapping, hnext⟩ := nextAttempt_words (R := R) order rb w call m attempts
    unfold Mapping.writeStep Ring.writeStep
    simp only [hstatus idx hpc, Option.bind_eq_bind, Option.bind_some]
    by_cases hcomplete : ((m.memory order rb).slots idx).getStatus = .complete
    · rw [if_pos hcomplete, if_pos hcomplete]
      exact ⟨_, rfl, Kept.refl _ _ _, rfl⟩
    · rw [if_neg hcomplete, if_neg hcomplete]
      exact ⟨_, rfl, by rw [hmapping]; exact Kept.refl _ _ _, hnext⟩
  | storing idx st rest =>
    obtain ⟨m', hstore, hkept, hmemory⟩ := h.store order hpc (hfits idx st rest rfl)
    simp only [Mapping.writeStep, Ring.writeStep, hstore, Option.bind_eq_bind, Option.bind_some]
    refine ⟨_, rfl, hkept, ?_⟩
    unfold MappedEffect.words
    dsimp only
    rw [hmemory]

/-- A step of `read` on the bytes is the step on the words. -/
theorem readStep_words (h : Spacious rb N m) (hheader : (m.header order).InRange N (· < N))
    {pc : ReadPc} (hpc : pc.InRange N)
    (hfits : ∀ idx st rest, pc = .resetting idx st rest → st.Fits rb.payloadSize)
    (hsize : ∀ idx kind size, pc = .copy idx kind size → size ≤ rb.payloadSize) (r : R)
    (spurious : Bool) :
    ∃ e : MappedEffect W R ReadPc, m.readStep order rb r spurious pc = some e ∧
      Kept rb.slotSize N m e.mapping ∧
      e.words order rb = Ring.readStep rb r (m.memory order rb) spurious pc := by
  -- Every access is defined, as in a step of `write`.
  have hload := load_eq order h.header
  have hN : (m.header order).slotCount ≠ 0 := by
    have hlt := hheader.consumerIdx
    rw [hheader.slotCount]
    omega
  have hloads : ∀ idx < N,
      m.loadStatus order (rb.slotRef idx) = some ((m.memory order rb).slots idx).getStatus ∧
      m.loadOperation order (rb.slotRef idx) =
        some ((m.memory order rb).slots idx).getOperation ∧
      m.loadSize order (rb.slotRef idx) = some ((m.memory order rb).slots idx).size :=
    fun idx hidx => loads_slot order (h.slotRef hidx)
  cases pc with
  | loadProducerIdx =>
    unfold Mapping.readStep
    rw [hload]
    exact ⟨_, rfl, Kept.refl _ _ _, rfl⟩
  | loadConsumerIdx producerIdx =>
    unfold Mapping.readStep Ring.readStep
    simp only [hload, Option.bind_eq_bind, Option.bind_some]
    by_cases hidx : producerIdx = (m.header order).word .consumerIdx
    · have hidx' : producerIdx = (m.memory order rb).header.consumerIdx := hidx
      rw [if_pos hidx, if_pos hidx']
      exact ⟨_, rfl, Kept.refl _ _ _, rfl⟩
    · have hidx' : ¬ producerIdx = (m.memory order rb).header.consumerIdx := hidx
      rw [if_neg hidx, if_neg hidx']
      exact ⟨_, rfl, Kept.refl _ _ _, rfl⟩
  | loadCurrent =>
    simp only [Mapping.readStep, hload, Option.bind_eq_bind, Option.bind_some]
    exact ⟨_, rfl, Kept.refl _ _ _, rfl⟩
  | compareExchange current =>
    have hnext : nextIdx current ((m.header order).word .slotCount) =
        .ok ((current + 1) % (m.header order).slotCount) :=
      h.fits.nextIdx_eq hheader.slotCount (hpc current (Or.inr rfl))
    have hnext' : nextIdx current (m.memory order rb).header.slotCount =
        .ok ((current + 1) % (m.header order).slotCount) := hnext
    unfold Mapping.readStep Ring.readStep
    simp only [hload, Option.bind_eq_bind, Option.bind_some, hnext, hnext']
    have hexchange := h.compareExchangeWeak order current spurious
      (show (current + 1) % (m.header order).slotCount < 256 ^ HeaderField.consumerIdx.width from
        next_lt h hN current) (fun k hk => Or.inr (Or.inl hk))
    rcases hexchange with ⟨rfl, rfl, m', hexchange, hkept, hmemory⟩ | ⟨hcurrent, hexchange⟩
    · have hlt : (m.header order).word .consumerIdx < N := hheader.consumerIdx
      have hcount'' : (m'.header order).slotCount = N := by
        have hheader' := congrArg (fun memory => memory.header.slotCount) hmemory
        exact hheader'.trans hheader.slotCount
      have hbytes := h.getSlot hcount'' hlt
      have hwords := h.getSlot (show (m.memory order rb).header.slotCount = N from
        hheader.slotCount) hlt
      have hcurrent : (m.memory order rb).header.consumerIdx =
          (m.header order).word .consumerIdx ∧ false = false := ⟨rfl, rfl⟩
      rw [if_pos hcurrent]
      simp only [hexchange, Option.bind_some, hbytes, hwords]
      refine ⟨_, rfl, hkept, ?_⟩
      unfold MappedEffect.words
      dsimp only
      rw [hmemory]
      rfl
    · have hcurrent' : ¬ ((m.memory order rb).header.consumerIdx = current ∧ spurious = false) :=
        hcurrent
      rw [if_neg hcurrent']
      simp only [hexchange, Option.bind_some]
      exact ⟨_, rfl, Kept.refl _ _ _, rfl⟩
  | checkReady idx =>
    unfold Mapping.readStep Ring.readStep
    simp only [(hloads idx (hpc idx (Or.inl rfl))).1, Option.bind_eq_bind, Option.bind_some]
    by_cases hready : ((m.memory order rb).slots idx).getStatus = .ready
    · rw [if_pos hready, if_pos hready]
      exact ⟨_, rfl, Kept.refl _ _ _, rfl⟩
    · rw [if_neg hready, if_neg hready]
      exact ⟨_, rfl, Kept.refl _ _ _, rfl⟩
  | loadOperation idx =>
    unfold Mapping.readStep
    simp only [(hloads idx (hpc idx (Or.inl rfl))).2.1, Option.bind_eq_bind, Option.bind_some]
    exact ⟨_, rfl, Kept.refl _ _ _, rfl⟩
  | recheckReady idx kind =>
    unfold Mapping.readStep Ring.readStep
    simp only [(hloads idx (hpc idx (Or.inl rfl))).1, Option.bind_eq_bind, Option.bind_some]
    by_cases hready : ((m.memory order rb).slots idx).getStatus = .ready
    · rw [if_pos hready, if_pos hready]
      exact ⟨_, rfl, Kept.refl _ _ _, rfl⟩
    · rw [if_neg hready, if_neg hready]
      exact ⟨_, rfl, Kept.refl _ _ _, rfl⟩
  | storeReading idx kind =>
    obtain ⟨m', hstore, hkept, hmemory⟩ :=
      h.store order (hpc idx (Or.inl rfl))
        (show (Store.status .reading).Fits rb.payloadSize from trivial)
    simp only [Mapping.readStep, Ring.readStep, hstore, Option.bind_eq_bind, Option.bind_some]
    refine ⟨_, rfl, hkept, ?_⟩
    unfold MappedEffect.words
    dsimp only
    rw [hmemory]
  | loadSize idx kind =>
    unfold Mapping.readStep Ring.readStep
    simp only [(hloads idx (hpc idx (Or.inl rfl))).2.2, Option.bind_eq_bind, Option.bind_some]
    by_cases hlarge : ((m.memory order rb).slots idx).size > rb.payloadSize
    · rw [if_pos hlarge, if_pos hlarge]
      exact ⟨_, rfl, Kept.refl _ _ _, rfl⟩
    · rw [if_neg hlarge, if_neg hlarge]
      exact ⟨_, rfl, Kept.refl _ _ _, rfl⟩
  | copy idx kind size =>
    -- The size was checked when it was loaded, and the copy uses that value of it.
    have hpayload :=
      loadPayload_slot order (h.slotRef (hpc idx (Or.inl rfl))) (hsize idx kind size rfl)
    unfold Mapping.readStep
    simp only [hpayload, Option.bind_eq_bind, Option.bind_some]
    exact ⟨_, rfl, Kept.refl _ _ _, rfl⟩
  | storeComplete idx kind data =>
    obtain ⟨m', hstore, hkept, hmemory⟩ :=
      h.store order (hpc idx (Or.inl rfl))
        (show (Store.status .complete).Fits rb.payloadSize from trivial)
    cases data with
    | some data =>
      simp only [Mapping.readStep, Ring.readStep, hstore, Option.bind_eq_bind, Option.bind_some]
      refine ⟨_, rfl, hkept, ?_⟩
      unfold MappedEffect.words
      dsimp only
      rw [hmemory]
    | none =>
      simp only [Mapping.readStep, Ring.readStep, hstore, Option.bind_eq_bind, Option.bind_some]
      refine ⟨_, rfl, hkept, ?_⟩
      unfold MappedEffect.words
      dsimp only
      rw [hmemory]
  | increment idx msg =>
    have hlt : ((m.header order).word .operationsCompleted + 1) % 2^64 <
        256 ^ HeaderField.operationsCompleted.width := Nat.mod_lt _ (by decide)
    obtain ⟨m', hstore, hkept, hmemory⟩ :=
      h.storeWord order hlt fun k hk => Or.inr (Or.inr (Or.inl hk))
    simp only [Mapping.readStep, Mapping.fetchAdd, hload, hstore, Option.bind_eq_bind,
      Option.bind_some]
    exact ⟨_, rfl, hkept, congrArg (Effect.mk · _ _) hmemory⟩
  | resetting idx st rest =>
    obtain ⟨m', hstore, hkept, hmemory⟩ :=
      h.store order (hpc idx (Or.inl rfl)) (hfits idx st rest rfl)
    simp only [Mapping.readStep, Ring.readStep, hstore, Option.bind_eq_bind, Option.bind_some]
    exact ⟨_, rfl, hkept, congrArg (Effect.mk · _ _) hmemory⟩

end Mapping

/-! ## Payloads that fit -/

/-- The payloads of the calls fit into a slot: those that are written, and those that are copied. -/
structure System.PayloadsFit {W R : Type} (rb : RingBuffer) (s : System W R) : Prop where
  /-- Those that are written. -/
  writer : ∀ w call pc, s.writer w = some (call, pc) → call.data.length ≤ rb.payloadSize
  /-- Those that are copied. -/
  reader : ∀ r idx kind size, s.reader r = some (.copy idx kind size) → size ≤ rb.payloadSize

section
variable {W R : Type} {rb : RingBuffer}

/-- A call of `write` goes on when its payload fits. -/
theorem writeCall_fits (h64 : sizeOfSlotMetadata ≤ rb.slotSize) {w : W} {call : WriteCall}
    {m : RingMemory} {pc : WritePc}
    (hpc : (writeCall rb w call m : Effect W R WritePc).pc = some pc) :
    call.data.length ≤ rb.payloadSize := by
  unfold writeCall at hpc
  rw [maxPayloadSize_eq h64] at hpc
  dsimp only at hpc
  split at hpc
  · cases hpc
  · rename_i hle
    exact Nat.not_lt.mp hle

/-- A size is copied when it has been compared with the length of the payload area. -/
theorem readStep_copy {r : R} {m : RingMemory} {spurious : Bool} {pc : ReadPc} {idx size : ℕ}
    {kind : OperationKind}
    (hpc : (readStep rb r m spurious pc : Effect W R ReadPc).pc = some (.copy idx kind size)) :
    size ≤ rb.payloadSize := by
  cases pc with
  | loadProducerIdx | loadCurrent | loadOperation | storeReading | copy | increment =>
    simp [readStep] at hpc
  | loadConsumerIdx => simp only [readStep] at hpc; split at hpc <;> simp at hpc
  | compareExchange =>
    simp only [readStep] at hpc
    repeat' split at hpc
    all_goals simp at hpc
  | checkReady | recheckReady =>
    simp only [readStep] at hpc
    split at hpc <;> simp at hpc
  | loadSize =>
    simp only [readStep] at hpc
    split at hpc
    · simp at hpc
    · rename_i hle
      simp only [Option.some.injEq, ReadPc.copy.injEq] at hpc
      rw [← hpc.2.2]
      exact Nat.not_lt.mp hle
  | storeComplete idx kind data => cases data <;> simp [readStep] at hpc
  | resetting idx st rest => simp [readStep] at hpc

namespace System

variable [DecidableEq W] [DecidableEq R] {s s' : System W R}

/-- Every step keeps the payloads within a slot. -/
theorem PayloadsFit.step (h : s.PayloadsFit rb) (h64 : sizeOfSlotMetadata ≤ rb.slotSize)
    {a : Action W R} (hstep : s.step rb a = some s') : s'.PayloadsFit rb := by
  rcases step_cases hstep with ⟨w, call, -, -, rfl⟩ | ⟨w, spurious, call, pc, -, hw, rfl⟩ |
    ⟨r, -, -, rfl⟩ | ⟨r, spurious, pc, -, -, rfl⟩
  · refine ⟨fun w' call' pc' hw' => ?_, h.reader⟩
    rcases afterWrite_writer.mp hw' with ⟨-, rfl, hpc⟩ | ⟨-, hold⟩
    · exact writeCall_fits h64 hpc
    · exact h.writer _ _ _ hold
  · refine ⟨fun w' call' pc' hw' => ?_, h.reader⟩
    rcases afterWrite_writer.mp hw' with ⟨-, rfl, -⟩ | ⟨-, hold⟩
    · exact h.writer _ _ _ hw
    · exact h.writer _ _ _ hold
  · refine ⟨h.writer, fun r' idx kind size hr' => ?_⟩
    rcases afterRead_reader.mp hr' with ⟨-, hpc⟩ | ⟨-, hold⟩
    · cases hpc
    · exact h.reader _ _ _ _ hold
  · refine ⟨h.writer, fun r' idx kind size hr' => ?_⟩
    rcases afterRead_reader.mp hr' with ⟨-, hpc⟩ | ⟨-, hold⟩
    · exact readStep_copy hpc
    · exact h.reader _ _ _ _ hold

end System

end

/-! ## Runs -/

/-- A mapped file and the threads that use it. -/
structure MappedSystem (W R : Type) where
  /-- The bytes of the file. -/
  mapping : Mapping
  /-- The call of `write` that a thread is in. -/
  writer : W → Option (WriteCall × WritePc)
  /-- The call of `read` that a thread is in. -/
  reader : R → Option ReadPc
  /-- What the threads have done, the first event first. -/
  history : List (Event W R)

namespace MappedSystem

variable {W R : Type}

/-- No call is in progress. -/
def start (m : Mapping) : MappedSystem W R := ⟨m, fun _ => none, fun _ => none, []⟩

/-- The system on the words that the bytes spell. -/
def words (order : ByteOrder) (rb : RingBuffer) (s : MappedSystem W R) : System W R :=
  ⟨s.mapping.memory order rb, s.writer, s.reader, s.history⟩

variable [DecidableEq W] [DecidableEq R]

/-- The system after a step of a call of `write`. -/
def afterWrite (s : MappedSystem W R) (w : W) (call : WriteCall) (e : MappedEffect W R WritePc) :
    MappedSystem W R where
  mapping := e.mapping
  writer := Function.update s.writer w (e.pc.map fun pc => (call, pc))
  reader := s.reader
  history := s.history ++ e.events

/-- The system after a step of a call of `read`. -/
def afterRead (s : MappedSystem W R) (r : R) (e : MappedEffect W R ReadPc) :
    MappedSystem W R where
  mapping := e.mapping
  writer := s.writer
  reader := Function.update s.reader r e.pc
  history := s.history ++ e.events

/-- A step of the system, if it does not leave the mapping. -/
def step (order : ByteOrder) (rb : RingBuffer) (s : MappedSystem W R) :
    Action W R → Option (MappedSystem W R)
  | .callWrite w call =>
    match s.writer w with
    | none => some (s.afterWrite w call (s.mapping.writeCall rb w call))
    | some _ => none
  | .stepWrite w spurious =>
    match s.writer w with
    | none => none
    | some (call, pc) =>
      (s.mapping.writeStep order rb w call spurious pc).map fun e => s.afterWrite w call e
  | .callRead r =>
    match s.reader r with
    | none => some (s.afterRead r ⟨s.mapping, some .loadProducerIdx, [.readCalled r]⟩)
    | some _ => none
  | .stepRead r spurious =>
    match s.reader r with
    | none => none
    | some pc => (s.mapping.readStep order rb r spurious pc).map fun e => s.afterRead r e

variable {order : ByteOrder} {rb : RingBuffer} {N : ℕ} {s s' : MappedSystem W R}

/-- What every run keeps: the slots lie in the file, what the threads have loaded are indices of
slots, their stores are those of the code, and their payloads fit. -/
structure Sound (order : ByteOrder) (rb : RingBuffer) (N : ℕ) (s : MappedSystem W R) : Prop where
  /-- The slots lie in the file. -/
  spacious : s.mapping.Spacious rb N
  /-- The indices are those of slots. -/
  inRange : (s.words order rb).InRange N (· < N)
  /-- The stores are those of the code. -/
  wellFormed : (s.words order rb).WellFormed
  /-- The payloads fit. -/
  payloadsFit : (s.words order rb).PayloadsFit rb

omit [DecidableEq W] [DecidableEq R] in
/-- The stores of a call fit in their fields. -/
theorem Sound.fits (h : Sound order rb N s) {w : W} {call : WriteCall} {idx : ℕ} {st : Store}
    {rest : List Store} (hw : s.writer w = some (call, .storing idx st rest)) :
    st.Fits rb.payloadSize := by
  have hdata : call.data.length ≤ rb.payloadSize := h.payloadsFit.writer w call _ hw
  have hN : 0 < N := Nat.zero_lt_of_lt h.inRange.header.consumerIdx
  have hinside : sizeOfRingHeader + 0 * rb.slotSize + rb.slotSize ≤ s.mapping.bytes.length :=
    h.spacious.slots 0 hN
  have hlength := s.mapping.length_lt
  have hpayload : rb.payloadSize ≤ rb.slotSize := Nat.sub_le _ _
  have hlt : call.data.length < 2^64 := by omega
  have hmem : st ∈ call.program :=
    (h.wellFormed.writing w call idx st rest hw).subset List.mem_cons_self
  exact Mapping.fits_program hdata hlt st hmem

/-- A step of the system is the step of the system on the words. -/
theorem Sound.step_words (h : Sound order rb N s) (a : Action W R) :
    (s.step order rb a).map (words order rb) = (s.words order rb).step rb a ∧
      ∀ s' ∈ s.step order rb a, Mapping.Kept rb.slotSize N s.mapping s'.mapping := by
  cases a with
  | callWrite w call =>
    -- The check of the payload touches no memory.
    have hcall : (s.mapping.writeCall rb w call : MappedEffect W R WritePc).words order rb =
        writeCall rb w call (s.mapping.memory order rb) ∧
          (s.mapping.writeCall rb w call : MappedEffect W R WritePc).mapping = s.mapping := by
      unfold Mapping.writeCall writeCall MappedEffect.words
      cases maxPayloadSize rb with
      | error e => exact ⟨rfl, rfl⟩
      | ok limit =>
        dsimp only
        split <;> exact ⟨rfl, rfl⟩
    cases hw : s.writer w with
    | some p =>
      have hw' : (s.words order rb).writer w = some p := hw
      simp [step, System.step, hw, hw']
    | none =>
      have hw' : (s.words order rb).writer w = none := hw
      simp only [step, System.step, hw, hw', Option.map_some]
      refine ⟨?_, ?_⟩
      · rw [← show _ = writeCall rb w call (s.words order rb).memory from hcall.1]
        rfl
      · rintro s' ⟨⟩
        show Mapping.Kept rb.slotSize N s.mapping
          (s.mapping.writeCall rb w call : MappedEffect W R WritePc).mapping
        rw [hcall.2]
        exact Mapping.Kept.refl _ _ _
  | stepWrite w spurious =>
    cases hw : s.writer w with
    | none =>
      have hw' : (s.words order rb).writer w = none := hw
      simp [step, System.step, hw, hw']
    | some p =>
      obtain ⟨call, pc⟩ := p
      have hw' : (s.words order rb).writer w = some (call, pc) := hw
      have hfits : ∀ idx st rest, pc = .storing idx st rest → st.Fits rb.payloadSize := by
        rintro idx st rest rfl
        exact h.fits hw
      obtain ⟨e, he, hkept, hwords⟩ := Mapping.writeStep_words (R := R) h.spacious h.inRange.header
        (h.inRange.writer w call pc hw') hfits w call spurious
      simp only [step, System.step, hw, hw', he, Option.map_some]
      refine ⟨?_, ?_⟩
      · rw [← show _ = writeStep rb w call (s.words order rb).memory spurious pc from hwords]
        rfl
      · rintro s' ⟨⟩
        exact hkept
  | callRead r =>
    cases hr : s.reader r with
    | some pc =>
      have hr' : (s.words order rb).reader r = some pc := hr
      simp [step, System.step, hr, hr']
    | none =>
      have hr' : (s.words order rb).reader r = none := hr
      simp only [step, System.step, hr, hr', Option.map_some]
      refine ⟨rfl, ?_⟩
      rintro s' ⟨⟩
      exact Mapping.Kept.refl _ _ _
  | stepRead r spurious =>
    cases hr : s.reader r with
    | none =>
      have hr' : (s.words order rb).reader r = none := hr
      simp [step, System.step, hr, hr']
    | some pc =>
      have hr' : (s.words order rb).reader r = some pc := hr
      have hfits : ∀ idx st rest, pc = .resetting idx st rest → st.Fits rb.payloadSize := by
        rintro idx st rest rfl
        exact fits_resetStores _ st
          ((h.wellFormed.resetting r idx st rest hr').subset List.mem_cons_self)
      -- The size that the reader has is one that it has checked.
      have hsize : ∀ idx kind size, pc = .copy idx kind size → size ≤ rb.payloadSize := by
        rintro idx kind size rfl
        exact h.payloadsFit.reader r idx kind size hr'
      obtain ⟨e, he, hkept, hwords⟩ := Mapping.readStep_words (W := W) h.spacious h.inRange.header
        (h.inRange.reader r pc hr') hfits hsize r spurious
      simp only [step, System.step, hr, hr', he, Option.map_some]
      refine ⟨?_, ?_⟩
      · rw [← show _ = readStep rb r (s.words order rb).memory spurious pc from hwords]
        rfl
      · rintro s' ⟨⟩
        exact hkept

/-- Every step keeps the system sound. -/
theorem Sound.step (h : Sound order rb N s) {a : Action W R} (hstep : s.step order rb a = some s') :
    Sound order rb N s' := by
  obtain ⟨hwords, hkept⟩ := h.step_words a
  have hstep' : (s.words order rb).step rb a = some (s'.words order rb) := by
    rw [← hwords, hstep]
    rfl
  have hlength := (hkept s' hstep).length
  exact {
    spacious := h.spacious.congr hlength
    inRange := h.inRange.step (closed_lt N) h.spacious.fits hstep'
    wellFormed := h.wellFormed.step hstep'
    payloadsFit := h.payloadsFit.step h.spacious.slotSize_ge hstep' }

omit [DecidableEq W] [DecidableEq R] in
/-- A file with room for its slots, whose indices are those of slots. -/
theorem Sound.start {m : Mapping} (hspacious : m.Spacious rb N)
    (hheader : (m.header order).InRange N (· < N)) :
    Sound order rb N (MappedSystem.start m : MappedSystem W R) where
  spacious := hspacious
  inRange := ⟨hheader, by simp [words, MappedSystem.start], by simp [words, MappedSystem.start],
    by simp [words, MappedSystem.start]⟩
  wellFormed := System.WellFormed.start _
  payloadsFit := ⟨by simp [words, MappedSystem.start], by simp [words, MappedSystem.start]⟩

end MappedSystem

/-- On a file with room for its slots whose indices are those of slots, the threads do on the bytes
what they do on the words that the bytes spell: every schedule has the same outcome, so that no step
leaves the mapping, and no byte changes but those of the indices, of the counter, and of the slots.
An access may be at any byte: slot sizes that misalign the metadata of the slots are outside the
model. -/
theorem mapped_refines {W R : Type} [DecidableEq W] [DecidableEq R] {order : ByteOrder}
    {rb : RingBuffer} {N : ℕ} {m : Mapping} (hspacious : m.Spacious rb N)
    (hheader : (m.header order).InRange N (· < N)) (as : List (Action W R)) :
    (runWhere (MappedSystem.step order rb) Always (MappedSystem.start m) as).map
        (MappedSystem.words order rb) =
      runWhere (System.step rb) Always (System.start (m.memory order rb)) as ∧
    ∀ s ∈ runWhere (MappedSystem.step order rb) Always (MappedSystem.start m) as,
      m.Kept rb.slotSize N s.mapping := by
  have hstart : MappedSystem.Sound order rb N (MappedSystem.start m : MappedSystem W R) :=
    MappedSystem.Sound.start hspacious hheader
  refine ⟨?_, fun s hs => ?_⟩
  · exact runWhere_map (fun s a s' h hstep => h.step hstep) (fun s a h => (h.step_words a).1) as
      hstart
  · have hinv := (Reaches.of_runWhere hs).invariant
      (I := fun s => MappedSystem.Sound order rb N s ∧ m.Kept rb.slotSize N s.mapping)
      ⟨hstart, Mapping.Kept.refl _ _ _⟩ fun t a t' ht _ hstep =>
        ⟨ht.1.step hstep, ht.2.trans ((ht.1.step_words a).2 t' hstep)⟩
    exact hinv.2

/-- A thread writes a byte to a file of two slots, and another one reads it. -/
theorem mapped_refines_delivered : ∃ (m : Mapping) (s : MappedSystem Unit Unit),
    runWhere (System.step ⟨336, 72, true⟩) Always (System.start (m.memory .little ⟨336, 72, true⟩))
      (.callWrite () ⟨.custom, [7], Uuid.nil, 0⟩ :: List.replicate 23 (.stepWrite () false) ++
        .callRead () :: List.replicate 12 (.stepRead () false)) =
      some (s.words .little ⟨336, 72, true⟩) ∧
    deliveries s.history = [(0, ⟨.custom, [7]⟩)] ∧
    m.Kept 72 2 s.mapping := by
  obtain ⟨m, s, hspacious, hheader, hrun, hhistory⟩ :
      ∃ (m : Mapping) (s : MappedSystem Unit Unit), m.Spacious ⟨336, 72, true⟩ 2 ∧
        (m.header .little).InRange 2 (· < 2) ∧
        runWhere (MappedSystem.step .little ⟨336, 72, true⟩) Always (MappedSystem.start m)
          (.callWrite () ⟨.custom, [7], Uuid.nil, 0⟩ :: List.replicate 23 (.stepWrite () false) ++
            .callRead () :: List.replicate 12 (.stepRead () false)) = some s ∧
        deliveries s.history = [(0, ⟨.custom, [7]⟩)] := by
    refine ⟨⟨RingHeader.toBytes .little
      ⟨RingHeader.MAGIC, RingHeader.VERSION, 336, 72, 2, 0, 0, 1, 0, 0, 0⟩ (.replicate 44 0) ++
        List.replicate 144 0, by decide +kernel⟩, _, ⟨?_, ?_, ?_⟩, ⟨?_, ?_, ?_⟩,
      (Option.some_get (by decide +kernel)).symm, ?_⟩ <;> decide +kernel
  obtain ⟨hwords, hkept⟩ := mapped_refines hspacious hheader
    (.callWrite () ⟨.custom, [7], Uuid.nil, 0⟩ :: List.replicate 23 (.stepWrite () false) ++
      .callRead () :: List.replicate 12 (.stepRead () false))
  rw [hrun] at hwords
  exact ⟨m, s, hwords.symm, hhistory, hkept s hrun⟩

end Elgate.Ring
