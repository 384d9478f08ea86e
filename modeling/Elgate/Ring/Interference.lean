import Elgate.Foundation.Interference
import Elgate.Ring.CreatedFile
import Elgate.Ring.Progress

/-!
# Other processes on the same file

The file is shared, and `open` trusts it. Here another process may change it between any two steps
of the threads, as long as it keeps the length of the file, the number of slots, and the two indices
below that number (`MappedSystem.KeepsIndices`): the statuses, the sizes, the payloads and all other
words become anything at any moment, also between a check and the access that it guards. The threads
then still do no harm (`memory_safe`). Every step is possible, so that no access is outside the
mapping, also when a size changes after it has been compared; no step changes another byte than
those of the indices, of the counter and of the slots; and every call returns one of its results
(`Event.Proper`), so that `read` returns no more bytes than a slot holds, and never fails. They do
not wait for each other longer than without the interference, but for the exchanges that it makes
fail (`lock_free_disturbed`).
-/

namespace Elgate.Ring

open Bytes Region Transition

/-- A result that a call may have on a ring of `N` slots with room for `limit` bytes: `write`
returns a slot, or one of its two errors, and `read` a payload that fits, or `None`. -/
def Event.Proper {W R : Type} (N limit : ℕ) : Event W R → Prop
  | .writeReturned _ call (.ok idx) => idx < N ∧ call.data.length ≤ limit
  | .writeReturned _ call (.error e) =>
    (e = .err .dataTooLarge ∧ limit < call.data.length) ∨
      (e = .err (.ringBufferFull maxAttempts) ∧ call.data.length ≤ limit)
  | .readReturned _ _ (.ok (some msg)) => msg.data.length ≤ limit
  | .readReturned _ _ (.ok none) => True
  | .readReturned _ _ (.error _) => False
  | .writeCalled .. | .claimed .. | .readyStored .. | .readCalled .. | .passed .. => True

/-- The payload that a call of `read` has copied fits. -/
def ReadPc.PayloadFits (limit : ℕ) : ReadPc → Prop
  | .copy _ _ size => size ≤ limit
  | .storeComplete _ _ data => ∀ bytes ∈ data, bytes.length ≤ limit
  | .increment _ msg => msg.data.length ≤ limit
  | _ => True

/-- The results are proper, those that the calls have had and those that they are about to have. -/
structure System.Proper {W R : Type} (N limit : ℕ) (s : System W R) : Prop where
  /-- The payload of a call of `write` fits. -/
  writer : ∀ w call pc, s.writer w = some (call, pc) → call.data.length ≤ limit
  /-- So does what a call of `read` has copied. -/
  reader : ∀ r pc, s.reader r = some pc → pc.PayloadFits limit
  /-- The results are proper. -/
  history : ∀ ev ∈ s.history, ev.Proper N limit

section
variable {W R : Type} {N : ℕ} {rb : RingBuffer} {m : RingMemory}

/-- The start of a call of `write`. -/
theorem writeCall_proper (h64 : sizeOfSlotMetadata ≤ rb.slotSize) (w : W) (call : WriteCall) :
    (∀ ev ∈ (writeCall rb w call m : Effect W R WritePc).events, ev.Proper N rb.payloadSize) ∧
      ∀ pc ∈ (writeCall rb w call m : Effect W R WritePc).pc,
        call.data.length ≤ rb.payloadSize := by
  unfold writeCall
  rw [maxPayloadSize_eq h64]
  dsimp only
  split
  · rename_i hlarge
    refine ⟨?_, by simp⟩
    intro ev hev
    rcases List.mem_pair.mp hev with rfl | rfl
    · exact trivial
    · exact Or.inl ⟨rfl, hlarge⟩
  · rename_i hfits
    refine ⟨?_, fun pc hpc => Nat.not_lt.mp hfits⟩
    intro ev hev
    obtain rfl := List.mem_singleton.mp hev
    exact trivial

/-- A step of `write`. -/
theorem writeStep_proper (hslots : SlotsFit rb.slotSize N)
    (h : m.header.InRange N (· < N)) {pc : WritePc} (hpc : pc.InRange N (· < N)) (w : W)
    {call : WriteCall} (hfits : call.data.length ≤ rb.payloadSize) (spurious : Bool) :
    ∀ ev ∈ (writeStep rb w call m spurious pc : Effect W R WritePc).events,
      ev.Proper N rb.payloadSize := by
  intro ev hev
  cases pc with
  | loadProducerIdx | loadCurrent => exact absurd hev List.not_mem_nil
  | loadConsumerIdx attempts producerIdx =>
    -- A slot is available in every state of indices below the count.
    rw [(writeStep_loadConsumerIdx h hpc w call attempts).2 spurious] at hev
    exact absurd hev List.not_mem_nil
  | compareExchange attempts current =>
    rw [writeStep_compareExchange (h.slotCount.symm ▸ hslots) (h.slotCount.symm ▸ hpc.1)] at hev
    split at hev
    · obtain rfl := List.mem_singleton.mp hev
      exact trivial
    · exact absurd hev List.not_mem_nil
  | checkEmpty attempts idx =>
    unfold writeStep at hev
    dsimp only at hev
    split at hev <;> exact absurd hev List.not_mem_nil
  | checkComplete attempts idx =>
    unfold writeStep at hev
    dsimp only at hev
    split at hev
    · exact absurd hev List.not_mem_nil
    · cases attempts with
      | zero =>
        obtain rfl := List.mem_singleton.mp hev
        exact Or.inr ⟨rfl, hfits⟩
      | succ attempts => exact absurd hev List.not_mem_nil
  | storing idx st rest =>
    rcases storeEvents_mem hev with rfl | rfl
    · exact trivial
    · exact ⟨hpc, hfits⟩

/-- A step of `read`. -/
theorem readStep_proper (hslots : SlotsFit rb.slotSize N)
    (h : m.header.InRange N (· < N)) {pc : ReadPc} (hpc : pc.InRange N)
    (hfits : pc.PayloadFits rb.payloadSize) (r : R) (spurious : Bool) :
    (∀ ev ∈ (readStep rb r m spurious pc : Effect W R ReadPc).events,
      ev.Proper N rb.payloadSize) ∧
      ∀ pc' ∈ (readStep rb r m spurious pc : Effect W R ReadPc).pc,
        pc'.PayloadFits rb.payloadSize := by
  have hnil : ∀ ev ∈ ([] : List (Event W R)), ev.Proper N rb.payloadSize :=
    fun ev hev => absurd hev List.not_mem_nil
  have hsome : ∀ {pc' : ReadPc}, pc'.PayloadFits rb.payloadSize →
      ∀ pc'' ∈ some pc', pc''.PayloadFits rb.payloadSize := by
    rintro pc' hpc' pc'' ⟨⟩
    exact hpc'
  have hnone : ∀ pc'' ∈ (none : Option ReadPc), pc''.PayloadFits rb.payloadSize :=
    fun pc'' hpc'' => by cases hpc''
  have hreset : ∀ idx stores, ∀ pc'' ∈ ReadPc.ofStores idx stores,
      pc''.PayloadFits rb.payloadSize := by
    intro idx stores pc'' hpc''
    obtain ⟨st, rest, -, rfl⟩ := ReadPc.ofStores_eq_some.mp hpc''
    exact trivial
  have hone : ∀ {ev : Event W R}, ev.Proper N rb.payloadSize →
      ∀ ev' ∈ [ev], ev'.Proper N rb.payloadSize := by
    intro ev hev ev' hev'
    obtain rfl := List.mem_singleton.mp hev'
    exact hev
  cases pc with
  | loadProducerIdx | loadCurrent | loadOperation | storeReading =>
    exact ⟨hnil, hsome trivial⟩
  | loadConsumerIdx producerIdx =>
    unfold readStep
    dsimp only
    split
    · exact ⟨hone trivial, hnone⟩
    · exact ⟨hnil, hsome trivial⟩
  | compareExchange current =>
    rw [readStep_compareExchange (h.slotCount.symm ▸ hslots)
      (h.slotCount.symm ▸ hpc current (Or.inr rfl))]
    split
    · exact ⟨hone trivial, hsome trivial⟩
    · exact ⟨hnil, hsome trivial⟩
  | checkReady idx | recheckReady idx =>
    unfold readStep
    dsimp only
    split
    · exact ⟨hnil, hsome trivial⟩
    · exact ⟨hnil, hreset idx Slot.resetStores⟩
  | loadSize idx kind =>
    -- The size that is compared is the one that is copied, whatever the slot says by then.
    unfold readStep
    dsimp only
    split
    · exact ⟨hnil, hsome fun bytes hbytes => by cases hbytes⟩
    · rename_i hsize
      exact ⟨hnil, hsome (Nat.not_lt.mp hsize)⟩
  | copy idx kind size =>
    refine ⟨hnil, hsome ?_⟩
    rintro bytes ⟨⟩
    calc ((m.slots idx).data.take size).length ≤ size := List.length_take_le _ _
      _ ≤ rb.payloadSize := hfits
  | storeComplete idx kind data =>
    cases data with
    | none => exact ⟨hnil, hreset idx Slot.resetStores⟩
    | some data => exact ⟨hnil, hsome (hfits data rfl)⟩
  | increment idx msg => exact ⟨hone hfits, hnone⟩
  | resetting idx st rest =>
    cases rest with
    | nil => exact ⟨hone trivial, hnone⟩
    | cons st' rest => exact ⟨hnil, hreset idx (st' :: rest)⟩

namespace System

variable [DecidableEq W] [DecidableEq R] {s s' : System W R}

/-- Every step keeps the results proper. -/
theorem Proper.step (h : s.Proper N rb.payloadSize) (hslots : SlotsFit rb.slotSize N)
    (hrange : s.InRange N (· < N)) {a : Action W R} (hstep : s.step rb a = some s') :
    s'.Proper N rb.payloadSize := by
  have hhistory : ∀ {events : List (Event W R)}, (∀ ev ∈ events, ev.Proper N rb.payloadSize) →
      ∀ ev ∈ s.history ++ events, ev.Proper N rb.payloadSize := by
    intro events hevents ev hev
    rcases List.mem_append.mp hev with hold | hnew
    · exact h.history ev hold
    · exact hevents ev hnew
  rcases step_cases hstep with ⟨w, call, -, -, rfl⟩ | ⟨w, spurious, call, pc, -, hw, rfl⟩ |
    ⟨r, -, -, rfl⟩ | ⟨r, spurious, pc, -, hr, rfl⟩
  · obtain ⟨hevents, hfits⟩ :=
      writeCall_proper (R := R) (N := N) (m := s.memory) hslots.slotSize_ge w call
    refine ⟨fun w' call' pc' hw' => ?_, h.reader, hhistory hevents⟩
    rcases afterWrite_writer.mp hw' with ⟨-, rfl, hpc⟩ | ⟨-, hold⟩
    · exact hfits pc' hpc
    · exact h.writer w' call' pc' hold
  · have hevents := writeStep_proper (R := R) hslots hrange.header (hrange.writer w call pc hw) w
      (h.writer w call pc hw) spurious
    refine ⟨fun w' call' pc' hw' => ?_, h.reader, hhistory hevents⟩
    rcases afterWrite_writer.mp hw' with ⟨-, rfl, -⟩ | ⟨-, hold⟩
    · exact h.writer w call' pc hw
    · exact h.writer w' call' pc' hold
  · refine ⟨h.writer, fun r' pc' hr' => ?_, hhistory ?_⟩
    · rcases afterRead_reader.mp hr' with ⟨-, hpc⟩ | ⟨-, hold⟩
      · obtain rfl := Option.some.inj hpc
        exact trivial
      · exact h.reader r' pc' hold
    · intro ev hev
      obtain rfl := List.mem_singleton.mp hev
      exact trivial
  · obtain ⟨hevents, hpcs⟩ := readStep_proper (W := W) hslots hrange.header
      (hrange.reader r pc hr) (h.reader r pc hr) r spurious
    refine ⟨h.writer, fun r' pc' hr' => ?_, hhistory hevents⟩
    rcases afterRead_reader.mp hr' with ⟨-, hpc⟩ | ⟨-, hold⟩
    · exact hpcs pc' hpc
    · exact h.reader r' pc' hold

end System

end

/-! ## Disturbances -/

namespace MappedSystem

variable {W R : Type}

/-- Another process has written to the file. -/
def disturb (s : MappedSystem W R) (m : Mapping) : MappedSystem W R := { s with mapping := m }

/-- What the other processes keep: the length of the file, the number of slots, and indices that are
those of slots. -/
def KeepsIndices (order : ByteOrder) (N : ℕ) (s : MappedSystem W R) (m : Mapping) : Prop :=
  m.bytes.length = s.mapping.bytes.length ∧ (m.header order).slotCount = N ∧
    (m.header order).producerIdx < N ∧ (m.header order).consumerIdx < N

instance (order : ByteOrder) (N : ℕ) (s : MappedSystem W R) (m : Mapping) :
    Decidable (KeepsIndices order N s m) :=
  inferInstanceAs (Decidable (_ ∧ _))

/-- What holds in every state of a run under interference. -/
structure Safe (order : ByteOrder) (rb : RingBuffer) (N : ℕ) (s : MappedSystem W R) : Prop where
  /-- The system is sound. -/
  sound : Sound order rb N s
  /-- The results are proper. -/
  proper : (s.words order rb).Proper N rb.payloadSize
  /-- The attempts and the stores that are left are bounded. -/
  bounded : (s.words order rb).Bounded

variable {order : ByteOrder} {rb : RingBuffer} {N : ℕ} {s s' : MappedSystem W R}

/-- A file with room for its slots, whose indices are those of slots. -/
theorem Safe.start {m : Mapping} (hspacious : m.Spacious rb N)
    (hheader : (m.header order).InRange N (· < N)) :
    Safe order rb N (MappedSystem.start m : MappedSystem W R) where
  sound := Sound.start hspacious hheader
  proper := ⟨by simp [words, MappedSystem.start], by simp [words, MappedSystem.start],
    by simp [words, MappedSystem.start]⟩
  bounded := ⟨by simp [words, MappedSystem.start], by simp [words, MappedSystem.start]⟩

/-- No disturbance breaks that. -/
theorem Safe.disturb (h : Safe order rb N s) {m : Mapping} (hm : KeepsIndices order N s m) :
    Safe order rb N (s.disturb m) := by
  obtain ⟨hlength, hcount, hproducer, hconsumer⟩ := hm
  have hrange := h.sound.inRange
  have hwords := h.sound.wellFormed
  exact {
    sound := {
      spacious := h.sound.spacious.congr hlength
      inRange := ⟨⟨hcount, hproducer, hconsumer⟩, hrange.writer, hrange.reader, hrange.history⟩
      wellFormed := ⟨hwords.writing, hwords.resetting⟩
      payloadsFit := ⟨h.sound.payloadsFit.writer, h.sound.payloadsFit.reader⟩ }
    proper := ⟨h.proper.writer, h.proper.reader, h.proper.history⟩
    bounded := ⟨h.bounded.writer, h.bounded.reader⟩ }

variable [DecidableEq W] [DecidableEq R]

/-- A step is the step on the words. -/
theorem Safe.step_words (h : Safe order rb N s) {a : Action W R}
    (hstep : s.step order rb a = some s') :
    (s.words order rb).step rb a = some (s'.words order rb) := by
  rw [← (h.sound.step_words a).1, hstep]
  rfl

/-- No step breaks it. -/
theorem Safe.step (h : Safe order rb N s) {a : Action W R}
    (hstep : s.step order rb a = some s') : Safe order rb N s' where
  sound := h.sound.step hstep
  proper := h.proper.step h.sound.spacious.fits h.sound.inRange (h.step_words hstep)
  bounded := h.bounded.step (h.step_words hstep)

/-- It holds in every run under interference. -/
theorem Safe.of_reaches {m : Mapping} (hspacious : m.Spacious rb N)
    (hheader : (m.header order).InRange N (· < N))
    (hrun : Reaches (interfered (MappedSystem.step order rb) MappedSystem.disturb)
      (Promised Always (KeepsIndices order N)) (MappedSystem.start m) s) : Safe order rb N s :=
  hrun.invariant_interfered (Safe.start hspacious hheader)
    (fun _ _ _ ht _ hstep => ht.step hstep) fun _ _ ht hm => ht.disturb hm

end MappedSystem

/-- Whatever the other processes do to a file with room for its slots, as long as they keep its
length, the number of slots and indices below it: in every state of every run, a thread in a call
can take its next step, a step changes no other bytes than those of the indices, of the counter and
of the slots, and itself keeps what the others keep, and the results so far are proper. An access
may be at any byte: slot sizes that misalign the metadata of the slots are outside the model. -/
theorem memory_safe {W R : Type} [DecidableEq W] [DecidableEq R] {order : ByteOrder}
    {rb : RingBuffer} {N : ℕ} {m : Mapping} (hspacious : m.Spacious rb N)
    (hheader : (m.header order).InRange N (· < N)) {s : MappedSystem W R}
    (hrun : Reaches (interfered (MappedSystem.step order rb) MappedSystem.disturb)
      (Promised Always (MappedSystem.KeepsIndices order N)) (MappedSystem.start m) s) :
    (∀ w spurious, s.writer w ≠ none → ∃ s', s.step order rb (.stepWrite w spurious) = some s') ∧
    (∀ r spurious, s.reader r ≠ none → ∃ s', s.step order rb (.stepRead r spurious) = some s') ∧
    (∀ a s', s.step order rb a = some s' → s.mapping.Kept rb.slotSize N s'.mapping ∧
      MappedSystem.KeepsIndices order N s s'.mapping) ∧
    ∀ ev ∈ s.history, ev.Proper N rb.payloadSize := by
  have h := MappedSystem.Safe.of_reaches hspacious hheader hrun
  -- A step that is possible on the words is possible on the bytes.
  have hpossible : ∀ {a : Action W R} {t}, (s.words order rb).step rb a = some t →
      ∃ s', s.step order rb a = some s' := by
    intro a t ht
    rw [← (h.sound.step_words a).1] at ht
    obtain ⟨s', hs', -⟩ := Option.map_eq_some_iff.mp ht
    exact ⟨s', hs'⟩
  refine ⟨fun w spurious hw => ?_, fun r spurious hr => ?_,
    fun a s' hstep => ?_, h.proper.history⟩
  · obtain ⟨⟨call, pc⟩, hw⟩ := Option.ne_none_iff_exists'.mp hw
    have hwords : (s.words order rb).step rb (.stepWrite w spurious) =
        some ((s.words order rb).afterWrite w call
          (writeStep rb w call (s.words order rb).memory spurious pc)) :=
      congrArg (Option.map _) hw
    exact hpossible hwords
  · obtain ⟨pc, hr⟩ := Option.ne_none_iff_exists'.mp hr
    have hwords : (s.words order rb).step rb (.stepRead r spurious) =
        some ((s.words order rb).afterRead r
          (readStep rb r (s.words order rb).memory spurious pc)) :=
      congrArg (Option.map _) hr
    exact hpossible hwords
  · have hkept := (h.sound.step_words a).2 s' hstep
    have hheader := (h.step hstep).sound.inRange.header
    exact ⟨hkept, hkept.length, hheader.slotCount, hheader.producerIdx, hheader.consumerIdx⟩

/-- A file of two slots whose bytes are all the same. -/
def Mapping.filled (producerIdx consumerIdx : ℕ) (byte : UInt8) : Mapping where
  bytes := RingHeader.toBytes .little ⟨RingHeader.MAGIC, RingHeader.VERSION, 336, 72, 2,
    producerIdx, consumerIdx, 1, 0, 0, 0⟩ (.replicate 44 0) ++ List.replicate 144 byte
  length_lt := by
    rw [List.length_append, RingHeader.length_toBytes, List.length_replicate]
    decide

/-- After a `read` has compared the size of a slot, another process makes all bytes of both slots
255. The call returns one byte. -/
theorem memory_safe_overwritten : ∃ s : MappedSystem Unit Unit,
    Reaches (interfered (MappedSystem.step .little ⟨336, 72, true⟩) MappedSystem.disturb)
      (Promised Always (MappedSystem.KeepsIndices .little 2))
      (MappedSystem.start (Mapping.filled 0 0 0)) s ∧
    deliveries s.history = [(0, ⟨.custom, [255]⟩)] ∧ ∀ ev ∈ s.history, ev.Proper 2 8 := by
  have hspacious : (Mapping.filled 0 0 0).Spacious ⟨336, 72, true⟩ 2 :=
    ⟨by decide +kernel, by decide, by decide +kernel⟩
  have hheader : ((Mapping.filled 0 0 0).header .little).InRange 2 (· < 2) := by
    constructor <;> decide +kernel
  obtain ⟨s, hrun, hhistory⟩ : ∃ s : MappedSystem Unit Unit,
      Reaches (interfered (MappedSystem.step .little ⟨336, 72, true⟩) MappedSystem.disturb)
        (Promised Always (MappedSystem.KeepsIndices .little 2))
        (MappedSystem.start (Mapping.filled 0 0 0)) s ∧
      deliveries s.history = [(0, ⟨.custom, [255]⟩)] := by
    refine ⟨_, Reaches.get_runWhere (.inl (.callWrite () ⟨.custom, [7], Uuid.nil, 0⟩) ::
      List.replicate 23 (.inl (.stepWrite () false)) ++ .inl (.callRead ()) ::
      List.replicate 9 (.inl (.stepRead () false)) ++ .inr (Mapping.filled 1 1 255) ::
      List.replicate 3 (.inl (.stepRead () false))) (by decide +kernel), ?_⟩
    decide +kernel
  obtain ⟨-, -, -, hproper⟩ := memory_safe hspacious hheader hrun
  exact ⟨s, hrun, hhistory, hproper⟩

namespace MappedSystem

variable {W R : Type} [Fintype W] [Fintype R]

/-- What another process writes to the file costs every thread an exchange at most. -/
theorem potential_disturb (order : ByteOrder) (rb : RingBuffer) (s : MappedSystem W R)
    (m : Mapping) :
    ((s.disturb m).words order rb).potential ≤
      (s.words order rb).potential + (Fintype.card W + Fintype.card R) := by
  have hwriters : ∑ w, ((s.disturb m).words order rb).writeOwed w ≤
      ∑ w, (s.words order rb).writeOwed w + Fintype.card W := by
    calc ∑ w, ((s.disturb m).words order rb).writeOwed w
        ≤ ∑ w, ((s.words order rb).writeOwed w + 1) :=
          Finset.sum_le_sum fun w _ => writeShare_le _ _ _ _
      _ = ∑ w, (s.words order rb).writeOwed w + Fintype.card W := by
          rw [Finset.sum_add_distrib, Finset.sum_const_nat fun _ _ => rfl, Finset.card_univ,
            Nat.mul_one]
  have hreaders : ∑ r, ((s.disturb m).words order rb).readOwed r ≤
      ∑ r, (s.words order rb).readOwed r + Fintype.card R := by
    calc ∑ r, ((s.disturb m).words order rb).readOwed r
        ≤ ∑ r, ((s.words order rb).readOwed r + 1) :=
          Finset.sum_le_sum fun r _ => readShare_le _ _ _ _
      _ = ∑ r, (s.words order rb).readOwed r + Fintype.card R := by
          rw [Finset.sum_add_distrib, Finset.sum_const_nat fun _ _ => rfl, Finset.card_univ,
            Nat.mul_one]
  unfold System.potential
  omega

end MappedSystem

/-- In any part of any such run, the threads take no more steps than the calls that return in it pay
for, one more call for each thread, the exchanges that fail spuriously, and one for each thread and
each disturbance. -/
theorem lock_free_disturbed {W R : Type} [Fintype W] [Fintype R] [DecidableEq W] [DecidableEq R]
    {order : ByteOrder} {rb : RingBuffer} {N : ℕ} {m : Mapping} (hspacious : m.Spacious rb N)
    (hheader : (m.header order).InRange N (· < N)) {s s' : MappedSystem W R}
    {xs : List (Action W R ⊕ Mapping)}
    (hreached : Reaches (interfered (MappedSystem.step order rb) MappedSystem.disturb)
      (Promised Always (MappedSystem.KeepsIndices order N)) (MappedSystem.start m) s)
    (hrun : runWhere (interfered (MappedSystem.step order rb) MappedSystem.disturb)
      (Promised Always (MappedSystem.KeepsIndices order N)) s xs = some s') :
    xs.countP Sum.isLeft + writeCost (Fintype.card W) * writesReturned s.history +
        readCost (Fintype.card R) * readsReturned s.history ≤
      writeCost (Fintype.card W) * (writesReturned s'.history + Fintype.card W) +
        readCost (Fintype.card R) * (readsReturned s'.history + Fintype.card R) +
        xs.countP (Sum.elim Action.spurious fun _ => false) +
        (Fintype.card W + Fintype.card R) * xs.countP Sum.isRight := by
  have hsafe := MappedSystem.Safe.of_reaches hspacious hheader hreached
  have hbound := System.potential_le hsafe.bounded
  -- Every step is paid for, and a disturbance adds one for each thread at most.
  have hpaid := own_length_le (I := MappedSystem.Safe order rb N)
    (fun s => (s.words order rb).potential) (fun s => (s.words order rb).earned) Action.price
    (Fintype.card W + Fintype.card R)
    (fun t a t' ht _ hstep => System.pays (ht.step_words hstep))
    (fun t m' => by
      have hle := MappedSystem.potential_disturb order rb t m'
      have hsame : ((t.disturb m').words order rb).earned = (t.words order rb).earned := rfl
      omega)
    (fun t a t' ht _ hstep => ht.step hstep) (fun t m' ht hm => ht.disturb hm) hsafe hrun
  have hearned : (s.words order rb).earned = writeCost (Fintype.card W) *
      writesReturned s.history + readCost (Fintype.card R) * readsReturned s.history := rfl
  have hearned' : (s'.words order rb).earned = writeCost (Fintype.card W) *
      writesReturned s'.history + readCost (Fintype.card R) * readsReturned s'.history := rfl
  have hprice : ownPrice Action.price xs = xs.countP (Sum.elim Action.spurious fun _ => false) :=
    ownPrice_ite Action.spurious xs
  rw [Nat.mul_add, Nat.mul_add]
  omega

/-- Another process moves the producer index to and fro, so that two exchanges fail. -/
theorem lock_free_disturbed_twice : ∃ s' : MappedSystem Unit Unit,
    runWhere (interfered (MappedSystem.step .little ⟨336, 72, true⟩) MappedSystem.disturb)
      (Promised Always (MappedSystem.KeepsIndices .little 2))
      (MappedSystem.start (Mapping.filled 0 0 0))
      (.inl (.callWrite () ⟨.custom, [7], Uuid.nil, 0⟩) ::
        List.replicate 3 (.inl (.stepWrite () false)) ++
        [.inr (Mapping.filled 1 0 0), .inl (.stepWrite () false), .inr (Mapping.filled 0 0 0),
          .inl (.stepWrite () false)]) = some s' ∧
    claims s'.history = [] ∧ 6 ≤ writeCost 1 + readCost 1 + 2 * 2 := by
  have hspacious : (Mapping.filled 0 0 0).Spacious ⟨336, 72, true⟩ 2 :=
    ⟨by decide +kernel, by decide, by decide +kernel⟩
  have hheader : ((Mapping.filled 0 0 0).header .little).InRange 2 (· < 2) := by
    constructor <;> decide +kernel
  obtain ⟨s', hrun, hclaims, hwrites, hreads⟩ : ∃ s' : MappedSystem Unit Unit,
      runWhere (interfered (MappedSystem.step .little ⟨336, 72, true⟩) MappedSystem.disturb)
        (Promised Always (MappedSystem.KeepsIndices .little 2))
        (MappedSystem.start (Mapping.filled 0 0 0))
        (.inl (.callWrite () ⟨.custom, [7], Uuid.nil, 0⟩) ::
          List.replicate 3 (.inl (.stepWrite () false)) ++
          [.inr (Mapping.filled 1 0 0), .inl (.stepWrite () false), .inr (Mapping.filled 0 0 0),
            .inl (.stepWrite () false)]) = some s' ∧
      claims s'.history = [] ∧ writesReturned s'.history = 0 ∧ readsReturned s'.history = 0 := by
    refine ⟨_, (Option.some_get (by decide +kernel)).symm, ?_⟩
    decide +kernel
  have hbound := lock_free_disturbed hspacious hheader (Reaches.refl _) hrun
  rw [hwrites, hreads] at hbound
  exact ⟨s', hrun, hclaims, hbound⟩

end Elgate.Ring
