import Elgate.Ring.Create
import Elgate.Ring.Steps

/-!
# Indices in range

What the arithmetic of `wait_for_slot` and the assertion of `get_slot` need of the indices, in every
run of any number of threads. The two indices that `wait_for_slot` combines are loaded at different
moments, so the invariant bounds every value that a thread has loaded as well as the present ones
(`System.InRange`). It is stated over a set `P` of producer indices that no step leaves
(`Closed`): the indices of slots, or the one index from which no call ever claims. While it
holds, no call panics and every slot that a thread accesses is a slot of the ring. In a created ring
it holds for the indices of slots (`indices_safe`).
-/

namespace Elgate.Ring

open Transition

/-- The slot whose memory the next step of a call of `write` accesses. -/
def WritePc.visits : WritePc → Option ℕ
  | checkEmpty _ idx | checkComplete _ idx | storing idx _ _ => some idx
  | loadProducerIdx _ | loadConsumerIdx _ _ | loadCurrent _ | compareExchange _ _ => none

/-- The slot whose memory the next step of a call of `read` accesses. -/
def ReadPc.visits : ReadPc → Option ℕ
  | checkReady idx | loadOperation idx | recheckReady idx _ | storeReading idx _ | loadSize idx _
  | copy idx _ _ | storeComplete idx _ _ | resetting idx _ _ => some idx
  | loadProducerIdx | loadConsumerIdx _ | loadCurrent | compareExchange _ | increment _ _ => none

/-- A call has ended in a panic. -/
def Event.Panics {W R : Type} : Event W R → Prop
  | .writeReturned _ _ (.error (.panic _)) => True
  | .readReturned _ _ (.error (.panic _)) => True
  | _ => False

/-! ## What the steps keep -/

section
variable {W R : Type} (header : RingHeader → Prop) (writePc : WritePc → Prop)
  (readPc : ReadPc → Prop) (event : Event W R → Prop)

/-- What holds of a step: of the header after it, of the place of the call, and of its events. -/
structure Effect.Within {Pc : Type} (pc : Pc → Prop) (e : Effect W R Pc) : Prop where
  /-- What holds of the header. -/
  header : header e.memory.header
  /-- What holds of the place of the call. -/
  pc : ∀ pc' ∈ e.pc, pc pc'
  /-- What holds of the events. -/
  events : ∀ ev ∈ e.events, event ev

/-- What holds of a state: of the header, of the places of the calls, and of what has happened. -/
structure System.Within (s : System W R) : Prop where
  /-- What holds of the header. -/
  header : header s.memory.header
  /-- What holds of the calls of `write`. -/
  writer : ∀ w call pc, s.writer w = some (call, pc) → writePc pc
  /-- What holds of the calls of `read`. -/
  reader : ∀ r pc, s.reader r = some pc → readPc pc
  /-- What holds of what has happened. -/
  history : ∀ ev ∈ s.history, event ev

/-- The steps of the calls keep it. -/
structure StepsKeep (rb : RingBuffer) : Prop where
  /-- The start of a call of `write`. -/
  writeCall : ∀ {m : RingMemory}, header m.header → ∀ w call,
    (writeCall rb w call m : Effect W R WritePc).Within header event writePc
  /-- A step of `write`. -/
  writeStep : ∀ {m : RingMemory}, header m.header → ∀ {pc}, writePc pc → ∀ w call spurious,
    (writeStep rb w call m spurious pc : Effect W R WritePc).Within header event writePc
  /-- The start of a call of `read`. -/
  readCall : readPc .loadProducerIdx ∧ ∀ r, event (.readCalled r)
  /-- A step of `read`. -/
  readStep : ∀ {m : RingMemory}, header m.header → ∀ {pc}, readPc pc → ∀ r spurious,
    (readStep rb r m spurious pc : Effect W R ReadPc).Within header event readPc

end

namespace System

variable {W R : Type} {header : RingHeader → Prop} {writePc : WritePc → Prop}
  {readPc : ReadPc → Prop} {event : Event W R → Prop} {s : System W R}

/-- A step of a call of `write`. -/
theorem Within.afterWrite [DecidableEq W] (h : s.Within header writePc readPc event) {w : W}
    {call : WriteCall} {e : Effect W R WritePc} (he : e.Within header event writePc) :
    (s.afterWrite w call e).Within header writePc readPc event where
  header := he.header
  writer w' call' pc' hw' := by
    rcases afterWrite_writer.mp hw' with ⟨-, -, hpc⟩ | ⟨-, hold⟩
    · exact he.pc pc' hpc
    · exact h.writer w' call' pc' hold
  reader := h.reader
  history ev hev := by
    rcases List.mem_append.mp hev with hold | hnew
    · exact h.history ev hold
    · exact he.events ev hnew

/-- A step of a call of `read`. -/
theorem Within.afterRead [DecidableEq R] (h : s.Within header writePc readPc event) {r : R}
    {e : Effect W R ReadPc} (he : e.Within header event readPc) :
    (s.afterRead r e).Within header writePc readPc event where
  header := he.header
  writer := h.writer
  reader r' pc' hr' := by
    rcases afterRead_reader.mp hr' with ⟨-, hpc⟩ | ⟨-, hold⟩
    · exact he.pc pc' hpc
    · exact h.reader r' pc' hold
  history ev hev := by
    rcases List.mem_append.mp hev with hold | hnew
    · exact h.history ev hold
    · exact he.events ev hnew

variable [DecidableEq W] [DecidableEq R] {rb : RingBuffer}

/-- Every step keeps what the steps of the calls keep. -/
theorem Within.step (hsteps : StepsKeep header writePc readPc event rb)
    (h : s.Within header writePc readPc event) {a : Action W R} {s' : System W R}
    (hstep : s.step rb a = some s') : s'.Within header writePc readPc event := by
  rcases step_cases hstep with ⟨w, call, -, -, rfl⟩ | ⟨w, spurious, call, pc, -, hw, rfl⟩ |
    ⟨r, -, -, rfl⟩ | ⟨r, spurious, pc, -, hr, rfl⟩
  · exact h.afterWrite (hsteps.writeCall h.header w call)
  · exact h.afterWrite (hsteps.writeStep h.header (h.writer w call pc hw) w call spurious)
  · obtain ⟨hpc, hevent⟩ := hsteps.readCall
    refine h.afterRead ⟨h.header, ?_, ?_⟩
    · rintro pc ⟨⟩
      exact hpc
    · intro ev hev
      obtain rfl := List.mem_singleton.mp hev
      exact hevent r
  · exact h.afterRead (hsteps.readStep h.header (h.reader r pc hr) r spurious)

/-- So it holds in every run where it holds of the header at the start. -/
theorem Within.of_reaches (hsteps : StepsKeep header writePc readPc event rb) {m : RingMemory}
    (h : header m.header) (hrun : Reaches (System.step rb) Always (System.start m) s) :
    s.Within header writePc readPc event := by
  have hstart : (System.start m : System W R).Within header writePc readPc event := {
    header := h
    writer := by rintro w call pc ⟨⟩
    reader := by rintro r pc ⟨⟩
    history := by simp [System.start] }
  exact hrun.invariant hstart fun _ _ _ ht _ hstep => ht.step hsteps hstep

end System

/-! ## Indices in range -/

/-- A set of producer indices of a ring of `N` slots that no step leaves, and where
`available_slots` is defined. Where it is not zero, they are all indices of slots. -/
structure Closed (N : ℕ) (P : ℕ → Prop) : Prop where
  /-- `available_slots` is defined. -/
  available : ∀ p, P p → ∀ c < N, ∃ k, availableSlots N p c = .ok k ∧
    (0 < k → ∀ p', P p' → p' < N)
  /-- A claim leads to an index of the set. -/
  next : ∀ p, P p → p < N → P ((p + 1) % N)

/-- The indices of the slots. -/
theorem closed_lt (N : ℕ) : Closed N (· < N) where
  available p hp c hc := by
    obtain ⟨k, hk, -, -⟩ := availableSlots_eq hp hc
    exact ⟨k, hk, fun _ _ h => h⟩
  next p hp _ := Nat.mod_lt _ (Nat.zero_lt_of_lt hp)

/-- The index past the end of a ring of one slot: the ring then counts as full for ever. -/
theorem closed_one : Closed 1 (· = 1) where
  available p hp c hc := by
    obtain rfl : p = 1 := hp
    obtain rfl : c = 0 := by omega
    exact ⟨0, by decide, fun h => absurd h (lt_irrefl 0)⟩
  next p hp hlt := by
    obtain rfl : p = 1 := hp
    exact absurd hlt (lt_irrefl 1)

section
variable (N : ℕ) (P : ℕ → Prop)

/-- The header's indices are in range. -/
structure RingHeader.InRange (header : RingHeader) : Prop where
  /-- There are `N` slots. -/
  slotCount : header.slotCount = N
  /-- The producer index is in the set. -/
  producerIdx : P header.producerIdx
  /-- The consumer index is that of a slot. -/
  consumerIdx : header.consumerIdx < N

/-- What a call of `write` has loaded is in range: past the check of `available_slots` a claim is
possible, and past the claim the call has the index of a slot. -/
def WritePc.InRange : WritePc → Prop
  | loadProducerIdx _ => True
  | loadConsumerIdx _ producerIdx => P producerIdx
  | loadCurrent _ => ∀ p, P p → p < N
  | compareExchange _ current => current < N ∧ ∀ p, P p → p < N
  | checkEmpty _ idx | checkComplete _ idx | storing idx _ _ => idx < N

/-- The slot of a call of `read` is a slot of the ring, and so is the one that it expects to
pass. -/
def ReadPc.InRange (pc : ReadPc) : Prop :=
  ∀ idx, pc.visits = some idx ∨ pc = .compareExchange idx → idx < N

/-- What holds of a step: the header stays in range, so does the call, and it does not panic. -/
abbrev Effect.InRange {W R Pc : Type} (pcInRange : Pc → Prop) (e : Effect W R Pc) : Prop :=
  e.Within (RingHeader.InRange N P) (fun ev => ¬ ev.Panics) pcInRange

/-- What holds in every state of a run: the header and the calls are in range, and no call has
panicked. -/
abbrev System.InRange {W R : Type} (s : System W R) : Prop :=
  s.Within (RingHeader.InRange N P) (WritePc.InRange N P) (ReadPc.InRange N) fun ev => ¬ ev.Panics

end

variable {W R : Type} {N : ℕ} {P : ℕ → Prop} {rb : RingBuffer} {m : RingMemory}

/-- The slot of a call of `write` in range is a slot of the ring. -/
theorem WritePc.InRange.visits_lt {pc : WritePc} (h : pc.InRange N P) {idx : ℕ}
    (hidx : pc.visits = some idx) : idx < N := by
  cases pc with
  | checkEmpty | checkComplete | storing =>
    obtain rfl := Option.some.inj hidx
    exact h
  | loadProducerIdx | loadConsumerIdx | loadCurrent | compareExchange => cases hidx

/-- The stores that are left are to the slot. -/
theorem WritePc.ofStores_inRange {idx : ℕ} (h : idx < N) (stores : List Store) :
    ∀ pc ∈ WritePc.ofStores idx stores, pc.InRange N P := by
  intro pc hpc
  obtain ⟨st, rest, -, rfl⟩ := WritePc.ofStores_eq_some.mp hpc
  exact h

/-- The stores that are left are to the slot. -/
theorem ReadPc.ofStores_inRange {idx : ℕ} (h : idx < N) (stores : List Store) :
    ∀ pc ∈ ReadPc.ofStores idx stores, pc.InRange N := by
  intro pc hpc idx' hidx'
  obtain ⟨st, rest, -, rfl⟩ := ReadPc.ofStores_eq_some.mp hpc
  rcases hidx' with hidx' | hidx'
  · exact Option.some.inj hidx' ▸ h
  · cases hidx'

/-- The start of a call of `write` through a handle whose slots have room for their metadata. -/
theorem writeCall_inRange (h64 : sizeOfSlotMetadata ≤ rb.slotSize)
    (h : m.header.InRange N P) (w : W) (call : WriteCall) :
    (writeCall rb w call m : Effect W R WritePc).InRange N P (WritePc.InRange N P) := by
  unfold writeCall
  rw [maxPayloadSize_eq h64]
  dsimp only
  split
  · exact ⟨h, by simp, by simp [Event.Panics]⟩
  · exact ⟨h, by simp [WritePc.InRange], by simp [Event.Panics]⟩

/-- The end of an attempt. -/
theorem nextAttempt_inRange (h : m.header.InRange N P) (w : W) (call : WriteCall)
    (attempts : ℕ) :
    (nextAttempt w call m attempts : Effect W R WritePc).InRange N P (WritePc.InRange N P) := by
  cases attempts with
  | zero => exact ⟨h, by simp [nextAttempt], by simp [nextAttempt, Event.Panics]⟩
  | succ attempts =>
    exact ⟨h, by simp [nextAttempt, WritePc.InRange], by simp [nextAttempt]⟩

/-- A step of `write` keeps the range, and does not panic. -/
theorem writeStep_inRange (hP : Closed N P) (hfits : SlotsFit rb.slotSize N)
    (h : m.header.InRange N P) {pc : WritePc} (hpc : pc.InRange N P) (w : W) (call : WriteCall)
    (spurious : Bool) :
    (writeStep rb w call m spurious pc : Effect W R WritePc).InRange N P
      (WritePc.InRange N P) := by
  cases pc with
  | loadProducerIdx attempts =>
    refine ⟨h, ?_, by simp [writeStep]⟩
    rintro pc' ⟨⟩
    exact h.producerIdx
  | loadConsumerIdx attempts producerIdx =>
    -- The producer index may be older than the consumer index; both are in range.
    obtain ⟨k, hk, hclaim⟩ := hP.available producerIdx hpc _ h.consumerIdx
    simp only [writeStep, h.slotCount, hk]
    split
    · -- A slot is available, so that a claim is possible.
      rename_i hpos
      refine ⟨h, ?_, by simp⟩
      rintro pc' ⟨⟩
      exact hclaim hpos
    · exact nextAttempt_inRange h w call attempts
  | loadCurrent attempts =>
    refine ⟨h, ?_, by simp [writeStep]⟩
    rintro pc' ⟨⟩
    exact ⟨hpc _ h.producerIdx, hpc⟩
  | compareExchange attempts current =>
    obtain ⟨hlt, hclaim⟩ := hpc
    rw [writeStep_compareExchange (h.slotCount.symm ▸ hfits) (h.slotCount.symm ▸ hlt)]
    split
    · -- The claim succeeds: `get_slot` asserts that the old index is that of a slot.
      rename_i hcurrent
      obtain ⟨rfl, -⟩ := hcurrent
      refine ⟨⟨h.slotCount, ?_, h.consumerIdx⟩, ?_, by simp [Event.Panics]⟩
      · rw [RingMemory.setProducerIdx_producerIdx, h.slotCount]
        exact hP.next _ h.producerIdx hlt
      · rintro pc' ⟨⟩
        exact hlt
    · refine ⟨h, ?_, by simp⟩
      rintro pc' ⟨⟩
      exact ⟨hclaim _ h.producerIdx, hclaim⟩
  | checkEmpty attempts idx =>
    simp only [writeStep]
    split
    · exact ⟨h, WritePc.ofStores_inRange hpc call.program, by simp⟩
    · refine ⟨h, ?_, by simp⟩
      rintro pc' ⟨⟩
      exact hpc
  | checkComplete attempts idx =>
    simp only [writeStep]
    split
    · exact ⟨h, WritePc.ofStores_inRange hpc call.program, by simp⟩
    · exact nextAttempt_inRange h w call attempts
  | storing idx st rest =>
    refine ⟨h, WritePc.ofStores_inRange hpc rest, ?_⟩
    intro ev hev
    rcases storeEvents_mem hev with rfl | rfl <;> exact id

/-- A step of `read` keeps the range, and does not panic. -/
theorem readStep_inRange (hfits : SlotsFit rb.slotSize N)
    (h : m.header.InRange N P) {pc : ReadPc} (hpc : pc.InRange N) (r : R) (spurious : Bool) :
    (readStep rb r m spurious pc : Effect W R ReadPc).InRange N P (ReadPc.InRange N) := by
  -- A step that goes on at a place with the same slot, or with none.
  have hgoes : ∀ {pc' : ReadPc}, (∀ idx, pc'.visits = some idx → pc.visits = some idx) →
      (∀ idx, pc' ≠ .compareExchange idx) → ∀ pc'' ∈ some pc', pc''.InRange N := by
    rintro pc' hsame hnext pc'' ⟨⟩ idx (hidx | hidx)
    · exact hpc idx (Or.inl (hsame idx hidx))
    · exact absurd hidx (hnext idx)
  -- A step that loads the consumer index.
  have hloads : ∀ pc' ∈ some (ReadPc.compareExchange m.header.consumerIdx), pc'.InRange N := by
    rintro pc' ⟨⟩ idx (hidx | hidx)
    · cases hidx
    · cases hidx
      exact h.consumerIdx
  have hnone : ∀ {idx : ℕ} {p : Prop}, (none : Option ℕ) = some idx → p :=
    fun hidx => by cases hidx
  cases pc with
  | loadProducerIdx => exact ⟨h, hgoes (fun _ hidx => hnone hidx) (by simp), by simp [readStep]⟩
  | loadConsumerIdx producerIdx =>
    simp only [readStep]
    split
    · exact ⟨h, by simp, by simp [Event.Panics]⟩
    · exact ⟨h, hgoes (fun _ hidx => hnone hidx) (by simp), by simp⟩
  | loadCurrent => exact ⟨h, hloads, by simp [readStep]⟩
  | compareExchange current =>
    rw [readStep_compareExchange (h.slotCount.symm ▸ hfits)
      (h.slotCount.symm ▸ hpc current (Or.inr rfl))]
    split
    · -- So does it when a slot is passed.
      rename_i hcurrent
      obtain ⟨rfl, -⟩ := hcurrent
      refine ⟨⟨h.slotCount, h.producerIdx, ?_⟩, ?_, by simp [Event.Panics]⟩
      · rw [RingMemory.setConsumerIdx_consumerIdx, h.slotCount]
        exact Nat.mod_lt _ (Nat.zero_lt_of_lt h.consumerIdx)
      · rintro pc' ⟨⟩ idx (hidx | hidx)
        · cases hidx
          exact h.consumerIdx
        · cases hidx
    · exact ⟨h, hloads, by simp⟩
  | checkReady idx =>
    simp only [readStep]
    split
    · exact ⟨h, hgoes (fun _ => id) (by simp), by simp⟩
    · exact ⟨h, ReadPc.ofStores_inRange (hpc idx (Or.inl rfl)) Slot.resetStores, by simp⟩
  | loadOperation idx => exact ⟨h, hgoes (fun _ => id) (by simp), by simp [readStep]⟩
  | recheckReady idx kind =>
    simp only [readStep]
    split
    · exact ⟨h, hgoes (fun _ => id) (by simp), by simp⟩
    · exact ⟨h, ReadPc.ofStores_inRange (hpc idx (Or.inl rfl)) Slot.resetStores, by simp⟩
  | storeReading idx kind => exact ⟨h, hgoes (fun _ => id) (by simp), by simp [readStep]⟩
  | loadSize idx kind =>
    simp only [readStep]
    split
    · exact ⟨h, hgoes (fun _ => id) (by simp), by simp⟩
    · exact ⟨h, hgoes (fun _ => id) (by simp), by simp⟩
  | copy idx kind size => exact ⟨h, hgoes (fun _ => id) (by simp), by simp [readStep]⟩
  | storeComplete idx kind data =>
    -- A size that is too large has left no payload.
    cases data with
    | none =>
      exact ⟨h, ReadPc.ofStores_inRange (hpc idx (Or.inl rfl)) Slot.resetStores, by simp [readStep]⟩
    | some data => exact ⟨h, hgoes (fun _ hidx => hnone hidx) (by simp), by simp [readStep]⟩
  | increment idx msg =>
    exact ⟨⟨h.slotCount, h.producerIdx, h.consumerIdx⟩, by simp [readStep],
      by simp [readStep, Event.Panics]⟩
  | resetting idx st rest =>
    refine ⟨h, ReadPc.ofStores_inRange (hpc idx (Or.inl rfl)) rest, ?_⟩
    cases rest with
    | nil => simp [readStep, Event.Panics]
    | cons st' rest => simp [readStep]

/-- The steps of the calls keep the range. -/
theorem stepsKeep_inRange (hP : Closed N P) (hfits : SlotsFit rb.slotSize N) :
    StepsKeep (W := W) (R := R) (RingHeader.InRange N P) (WritePc.InRange N P) (ReadPc.InRange N)
      (fun ev => ¬ ev.Panics) rb where
  writeCall h := writeCall_inRange hfits.slotSize_ge h
  writeStep h _ hpc := writeStep_inRange hP hfits h hpc
  readCall := by
    refine ⟨?_, fun r => id⟩
    rintro idx (hidx | hidx) <;> cases hidx
  readStep h _ hpc := readStep_inRange hfits h hpc

namespace System

variable {s : System W R}

/-- Every step keeps the range. -/
theorem InRange.step [DecidableEq W] [DecidableEq R] (hP : Closed N P)
    (hfits : SlotsFit rb.slotSize N) (h : s.InRange N P) {a : Action W R}
    {s' : System W R} (hstep : s.step rb a = some s') : s'.InRange N P :=
  Within.step (stepsKeep_inRange hP hfits) h hstep

/-- In range at the start, and so in every run. -/
theorem InRange.of_reaches [DecidableEq W] [DecidableEq R] (hP : Closed N P)
    (hfits : SlotsFit rb.slotSize N) (h : m.header.InRange N P)
    (hrun : Reaches (System.step rb) Always (System.start m) s) : s.InRange N P :=
  Within.of_reaches (stepsKeep_inRange hP hfits) h hrun

end System

/-! ## Created rings -/

/-- The arithmetic on the indices does no harm in a state of a ring of `N` slots. -/
structure System.SafeIndices {W R : Type} (rb : RingBuffer) (N : ℕ) (s : System W R) : Prop where
  /-- There are `N` slots. -/
  slotCount : s.memory.header.slotCount = N
  /-- The producer index is that of a slot. -/
  producerIdx : s.memory.header.producerIdx < N
  /-- So is the consumer index. -/
  consumerIdx : s.memory.header.consumerIdx < N
  /-- A call that has loaded the producer index, however long ago, finds a slot available, and goes
  on to claim one. -/
  available : ∀ w call attempts producerIdx,
    s.writer w = some (call, .loadConsumerIdx attempts producerIdx) →
    (∃ k, availableSlots N producerIdx s.memory.header.consumerIdx = .ok k ∧ 1 ≤ k ∧ k ≤ N) ∧
      ∀ spurious, (writeStep rb w call s.memory spurious (.loadConsumerIdx attempts producerIdx) :
        Effect W R WritePc) = ⟨s.memory, some (.loadCurrent attempts), []⟩
  /-- `get_slot` returns the slot of an index that is claimed. -/
  getSlot_claimed : ∃ slot,
    getSlot s.memory.header s.memory.header.producerIdx rb.slotSize = .ok slot
  /-- It returns the slot of an index that a `read` passes. -/
  getSlot_passed : ∃ slot,
    getSlot s.memory.header s.memory.header.consumerIdx rb.slotSize = .ok slot
  /-- It returns every slot that a call of `write` accesses. -/
  getSlot_write : ∀ w call pc idx, s.writer w = some (call, pc) → pc.visits = some idx →
    ∃ slot, getSlot s.memory.header idx rb.slotSize = .ok slot
  /-- It returns every slot that a call of `read` accesses. -/
  getSlot_read : ∀ r pc idx, s.reader r = some pc → pc.visits = some idx →
    ∃ slot, getSlot s.memory.header idx rb.slotSize = .ok slot
  /-- A call is refused by the status of a slot that it has claimed, and by nothing else. -/
  refusal : ∀ w call pc spurious e, s.writer w = some (call, pc) →
    .writeReturned w call (.error e) ∈
      (writeStep rb w call s.memory spurious pc : Effect W R WritePc).events →
    e = .err (.ringBufferFull maxAttempts) ∧ ∃ idx < N, pc = .checkComplete 0 idx ∧
      (s.memory.slots idx).getStatus ≠ .complete
  /-- No call has panicked. -/
  history : ∀ ev ∈ s.history, ¬ ev.Panics

/-- The step of `write` that compares the indices, when they are those of slots. -/
theorem writeStep_loadConsumerIdx {p : ℕ} (h : m.header.InRange N (· < N)) (hp : p < N) (w : W)
    (call : WriteCall) (attempts : ℕ) :
    (∃ k, availableSlots N p m.header.consumerIdx = .ok k ∧ 1 ≤ k ∧ k ≤ N) ∧
      ∀ spurious, (writeStep rb w call m spurious (.loadConsumerIdx attempts p) :
        Effect W R WritePc) = ⟨m, some (.loadCurrent attempts), []⟩ := by
  obtain ⟨k, hk, hpos, hle⟩ := availableSlots_eq hp h.consumerIdx
  refine ⟨⟨k, hk, hpos, hle⟩, fun spurious => ?_⟩
  unfold writeStep
  dsimp only
  rw [h.slotCount, hk]
  exact if_pos hpos

/-- A step at which `write` fails is the last check of a status. -/
theorem writeStep_refusal (hfits : SlotsFit rb.slotSize N)
    (h : m.header.InRange N (· < N)) {pc : WritePc} (hpc : pc.InRange N (· < N)) {w : W}
    {call : WriteCall} {spurious : Bool} {e : Fault}
    (he : .writeReturned w call (.error e) ∈
      (writeStep rb w call m spurious pc : Effect W R WritePc).events) :
    e = .err (.ringBufferFull maxAttempts) ∧ ∃ idx < N, pc = .checkComplete 0 idx ∧
      (m.slots idx).getStatus ≠ .complete := by
  cases pc with
  | loadProducerIdx | loadCurrent => cases he
  | loadConsumerIdx attempts p =>
    -- `available_slots` is not zero on indices of slots, so that the first check passes.
    rw [(writeStep_loadConsumerIdx h hpc w call attempts).2 spurious] at he
    cases he
  | compareExchange attempts current =>
    rw [writeStep_compareExchange (h.slotCount.symm ▸ hfits) (h.slotCount.symm ▸ hpc.1)] at he
    split at he
    · simp at he
    · cases he
  | checkEmpty attempts idx =>
    unfold writeStep at he
    dsimp only at he
    split at he <;> cases he
  | checkComplete attempts idx =>
    unfold writeStep at he
    dsimp only at he
    split at he
    · cases he
    · rename_i hstatus
      cases attempts with
      | zero =>
        have heq : Event.writeReturned w call (.error e) =
            (.writeReturned w call (.error (.err (.ringBufferFull maxAttempts))) : Event W R) :=
          List.mem_singleton.mp he
        injection heq with _ _ hresult
        exact ⟨Except.error.inj hresult, idx, hpc, rfl, hstatus⟩
      | succ attempts => cases he
  | storing idx st rest =>
    rcases storeEvents_mem he with hev | hev <;> cases hev

/-- In every state of a run on a created ring, the indices are those of slots. The number of slots
that `available_slots` makes of two indices, loaded in any two states, is between one and all. -/
theorem indices_safe [DecidableEq W] [DecidableEq R] {options : RingBufferOptions}
    (hc : Created options m rb) (hN : 0 < m.header.slotCount) {s : System W R}
    (hrun : Reaches (System.step rb) Always (System.start m) s) :
    s.SafeIndices rb m.header.slotCount ∧
      ∀ s' : System W R, Reaches (System.step rb) Always (System.start m) s' →
        ∃ k, availableSlots m.header.slotCount s.memory.header.producerIdx
          s'.memory.header.consumerIdx = .ok k ∧ 1 ≤ k ∧ k ≤ m.header.slotCount := by
  have hfits := hc.slotsFit hN
  have hfresh := hc.fresh.1
  have hheader : m.header.InRange m.header.slotCount (· < m.header.slotCount) :=
    ⟨rfl, by rwa [hfresh.producerIdx], by rwa [hfresh.consumerIdx]⟩
  -- The invariant holds in both states, and so for an index of each.
  have hrange : ∀ {s : System W R}, Reaches (System.step rb) Always (System.start m) s →
      s.InRange m.header.slotCount (· < m.header.slotCount) :=
    System.InRange.of_reaches (closed_lt _) hfits hheader
  have h := hrange hrun
  have hget : ∀ {idx : ℕ}, idx < m.header.slotCount →
      ∃ slot, getSlot s.memory.header idx rb.slotSize = .ok slot := by
    intro idx hidx
    exact ⟨_, hfits.getSlot_eq h.header.slotCount hidx⟩
  refine ⟨{
    slotCount := h.header.slotCount
    producerIdx := h.header.producerIdx
    consumerIdx := h.header.consumerIdx
    available := fun w call attempts p hw =>
      writeStep_loadConsumerIdx h.header (h.writer w call _ hw) w call attempts
    getSlot_claimed := hget h.header.producerIdx
    getSlot_passed := hget h.header.consumerIdx
    getSlot_write := fun w call pc idx hw hidx => hget ((h.writer w call pc hw).visits_lt hidx)
    getSlot_read := fun r pc idx hr hidx => hget (h.reader r pc hr idx (Or.inl hidx))
    refusal := fun w call pc spurious e hw he =>
      writeStep_refusal hfits h.header (h.writer w call pc hw) he
    history := h.history }, fun s' hrun' => ?_⟩
  exact availableSlots_eq h.header.producerIdx (hrange hrun').header.consumerIdx

/-- A producer index from before the first of two slots was written and read, and the consumer index
from after that. -/
theorem indices_safe_stale : ∃ m rb s, Created ⟨448, 128⟩ m rb ∧
    Reaches (System.step rb) Always (System.start m : System Unit Unit) s ∧
    m.header.producerIdx = 0 ∧ s.memory.header.consumerIdx = 1 ∧
    ∃ k, availableSlots 2 0 1 = .ok k ∧ 1 ≤ k := by
  obtain ⟨m, rb, s, hc, hrun, hcount, hp, hconsumer⟩ : ∃ m rb s, Created ⟨448, 128⟩ m rb ∧
      Reaches (System.step rb) Always (System.start m : System Unit Unit) s ∧
      m.header.slotCount = 2 ∧ m.header.producerIdx = 0 ∧ s.memory.header.consumerIdx = 1 := by
    refine ⟨_, _, _, ⟨0, Or.inl rfl⟩, Reaches.get_runWhere
      (.callWrite () ⟨.custom, [1], Uuid.nil, 0⟩ :: List.replicate 23 (.stepWrite () false) ++
        .callRead () :: List.replicate 4 (.stepRead () false)) (by decide +kernel), ?_⟩
    decide +kernel
  have hN : 0 < m.header.slotCount := by
    rw [hcount]
    decide
  obtain ⟨k, hk, hpos, -⟩ := (indices_safe hc hN (Reaches.refl _)).2 s hrun
  rw [hcount, hconsumer] at hk
  exact ⟨m, rb, s, hc, hrun, hp, hconsumer, k, hp ▸ hk, hpos⟩

end Elgate.Ring
