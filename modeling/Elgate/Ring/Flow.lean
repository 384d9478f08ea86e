import Elgate.Ring.Rotation
import Elgate.Ring.Undisturbed

/-!
# Messages in flight

As long as the reader finds every slot that it passes `Ready`, and fewer slots than the ring has are
claimed and not yet passed, the claims of the writers and the reads work on the two ends of one
list: the messages of the claimed slots that no read has returned yet, in the order of the claims
(`System.Flow`). A slot on the list holds its message, or the call that has claimed it is still
writing, or the reader is reading it. No slot has two of these parties in it. A claim appends its
message to the list, and a read takes the first one (`Flow.step`). When no call is in progress the
ring is that of a single thread (`Flow.rotation`).
-/

namespace Elgate.Ring

namespace System

variable {W : Type}

/-- The thread is in a call that has claimed the slot and not filled it. -/
def Claims (s : System W Unit) (w : W) (call : WriteCall) (idx : ℕ) : Prop :=
  ∃ pc, s.writer w = some (call, pc) ∧ pc.claimed = some idx

/-- The reader is reading the slot. -/
def Reading (s : System W Unit) (idx : ℕ) : Prop :=
  ∃ pc, s.reader () = some pc ∧ pc.reading = some idx

/-- How many slots the reader has passed in the call that it is in. -/
def passed (s : System W Unit) : ℕ := (s.reader ()).elim 0 ReadPc.passed

/-- The slot is that of the message: it holds it, or is going to, or the reader is reading it. -/
def Keeps (s : System W Unit) (idx : ℕ) (msg : Message) : Prop :=
  s.Reading idx ∨ (s.memory.slots idx).Holds msg ∨
    ∃ w call, s.Claims w call idx ∧ call.message = msg

/-- The slot is available, and nobody is in it. -/
def Free (s : System W Unit) (idx : ℕ) : Prop :=
  (s.memory.slots idx).available = true ∧ (∀ w call, ¬ s.Claims w call idx) ∧ ¬ s.Reading idx

/-- The ring has `N` slots. The messages that are claimed and not yet returned are `l`, the first
one at position `c`. -/
structure Flow (rb : RingBuffer) (N c : ℕ) (l : List Message) (s : System W Unit) : Prop
    extends WellFormed s where
  /-- The slots fit. -/
  slotsFit : SlotsFit rb.slotSize N
  /-- There is a slot. -/
  slotCount_pos : 0 < N
  /-- There are `N` slots. -/
  slotCount : s.memory.header.slotCount = N
  /-- The producer index is after the last message. -/
  producerIdx : s.memory.header.producerIdx = (c + l.length) % N
  /-- The consumer index is that of the first message, or the next one when its slot is passed. -/
  consumerIdx : s.memory.header.consumerIdx = (c + s.passed) % N
  /-- Fewer slots than the ring has are claimed and not passed. -/
  room : l.length < N + s.passed
  /-- The messages are in consecutive slots, and the others are free. -/
  layout : Cyclic.Layout s.Keeps s.Free N c l
  /-- The messages fit. -/
  fits : ∀ msg ∈ l, msg.data.length ≤ rb.payloadSize
  /-- So do those of the calls. -/
  callFits : ∀ w call pc, s.writer w = some (call, pc) → call.data.length ≤ rb.payloadSize
  /-- What the calls of `write` rely on. -/
  writer : ∀ w call pc, s.writer w = some (call, pc) → pc.Sees s.memory call
  /-- A slot is claimed by one call. -/
  unique : ∀ w w' call call' idx, s.Claims w call idx → s.Claims w' call' idx → w = w'
  /-- It is not the slot that is read. -/
  apart : ∀ w call idx, s.Claims w call idx → ¬ s.Reading idx
  /-- What the call of `read` relies on. -/
  reader : ∀ pc, s.reader () = some pc → pc.Sees s.memory N c l

/-- A thread is in one call. -/
theorem Claims.unique {s : System W Unit} {w : W} {call call' : WriteCall} {idx idx' : ℕ}
    (h : s.Claims w call idx) (h' : s.Claims w call' idx') : call = call' ∧ idx = idx' := by
  obtain ⟨pc, hw, hclaimed⟩ := h
  obtain ⟨pc', hw', hclaimed'⟩ := h'
  obtain ⟨rfl, rfl⟩ := Prod.mk.inj (Option.some.inj (hw.symm.trans hw'))
  exact ⟨rfl, Option.some.inj (hclaimed.symm.trans hclaimed')⟩

/-- The reader passes at most one slot in a call. -/
theorem passed_le (s : System W Unit) : s.passed ≤ 1 := by
  unfold passed
  cases s.reader () with
  | none => exact Nat.zero_le _
  | some pc => exact pc.passed_le

/-- The slots that are claimed after a step of `write`. -/
theorem afterWrite_claims [DecidableEq W] {s : System W Unit} {w w' : W} {call call' : WriteCall}
    {e : Effect W Unit WritePc} {idx : ℕ} :
    (s.afterWrite w call e).Claims w' call' idx ↔
      (w' = w ∧ call' = call ∧ ∃ pc ∈ e.pc, pc.claimed = some idx) ∨
        (w' ≠ w ∧ s.Claims w' call' idx) := by
  simp only [Claims, afterWrite_writer]
  constructor
  · rintro ⟨pc, ⟨rfl, rfl, hpc⟩ | ⟨hne, hw⟩, hclaimed⟩
    · exact Or.inl ⟨rfl, rfl, pc, hpc, hclaimed⟩
    · exact Or.inr ⟨hne, pc, hw, hclaimed⟩
  · rintro (⟨rfl, rfl, pc, hpc, hclaimed⟩ | ⟨hne, pc, hw, hclaimed⟩)
    · exact ⟨pc, Or.inl ⟨rfl, rfl, hpc⟩, hclaimed⟩
    · exact ⟨pc, Or.inr ⟨hne, hw⟩, hclaimed⟩

/-- What a step does to the list: `c'` and `l'` are its position and its messages afterwards. -/
inductive Moved [DecidableEq W] (N : ℕ) (s : System W Unit) (c : ℕ) (l : List Message) :
    System W Unit → ℕ → List Message → Prop
  /-- A call of `write` starts. -/
  | writeCalled (w : W) (call : WriteCall) (hw : s.writer w = none) :
    Moved N s c l (s.afterWrite w call
      ⟨s.memory, some (.loadProducerIdx maxAttempts), [.writeCalled w call]⟩) c l
  /-- A call of `write` takes a step that changes nothing but its place. -/
  | writeMoved (w : W) (call : WriteCall) (pc pc' : WritePc) (hw : s.writer w = some (call, pc))
    (hclaimed : pc'.claimed = pc.claimed) :
    Moved N s c l (s.afterWrite w call ⟨s.memory, some pc', []⟩) c l
  /-- A call of `write` claims the slot after the messages. -/
  | claimed (w : W) (call : WriteCall) (pc : WritePc) (m' : RingMemory) (attempts : ℕ)
    (hw : s.writer w = some (call, pc)) (hclaimed : pc.claimed = none) :
    Moved N s c l (s.afterWrite w call ⟨m', some (.checkEmpty attempts ((c + l.length) % N)),
      [.claimed w call ((c + l.length) % N)]⟩) c (l ++ [call.message])
  /-- A call of `write` stores to the slot that it has claimed. -/
  | stored (w : W) (call : WriteCall) (m' : RingMemory) (idx : ℕ) (st : Store) (rest : List Store)
    (hw : s.writer w = some (call, .storing idx st rest)) :
    Moved N s c l (s.afterWrite w call
      ⟨m', WritePc.ofStores idx rest, storeEvents w idx st ++ returnEvents w call idx rest⟩) c l
  /-- A call of `read` starts, or takes a step that returns no message. -/
  | readMoved (e : Effect W Unit ReadPc) (he : ReadMove s.memory N c l (s.reader ()) e)
    (hof : OfRead e.events) : Moved N s c l (s.afterRead () e) c l
  /-- A call of `read` returns the first message. -/
  | returned (m' : RingMemory) (msg : Message) (l' : List Message) (hl : l = msg :: l')
    (hr : s.reader () = some (.increment (c % N) msg)) :
    Moved N s c l (s.afterRead ()
      ⟨m', none, [.readReturned () (some (c % N)) (.ok (some msg))]⟩) (c + 1) l'

namespace Flow

variable {rb : RingBuffer} {N c : ℕ} {l : List Message} {s : System W Unit}

/-- The handle and the indices are valid. -/
theorem valid (h : Flow rb N c l s) : Valid rb s.memory where
  fits := h.slotCount ▸ h.slotsFit
  producerIdx_lt := by
    rw [h.producerIdx, h.slotCount]
    exact Nat.mod_lt _ h.slotCount_pos
  consumerIdx_lt := by
    rw [h.consumerIdx, h.slotCount]
    exact Nat.mod_lt _ h.slotCount_pos

/-- A ring that one thread has used, with a slot to spare. -/
theorem start {m : RingMemory} (h : Rotation rb.payloadSize c l.length l m)
    (hfits : SlotsFit rb.slotSize m.header.slotCount) (hroom : l.length < m.header.slotCount) :
    Flow rb m.header.slotCount c l (System.start m : System W Unit) where
  toWellFormed := WellFormed.start m
  slotsFit := hfits
  slotCount_pos := h.slotCount_pos
  slotCount := rfl
  producerIdx := h.producerIdx
  consumerIdx := h.consumerIdx
  room := hroom
  layout := h.layout.mono (fun _ _ hmsg => Or.inr (Or.inl hmsg.1)) fun _ hav =>
    ⟨hav, by simp [Claims, System.start], by simp [Reading, System.start]⟩
  fits msg hmsg := by
    obtain ⟨i, hi, rfl⟩ := List.mem_iff_getElem.mp hmsg
    exact (h.layout.holds i hi).2
  callFits _ _ _ hw := by simp [System.start] at hw
  writer _ _ _ hw := by simp [System.start] at hw
  unique _ _ _ _ _ hcl := by simp [Claims, System.start] at hcl
  apart _ _ _ hcl := by simp [Claims, System.start] at hcl
  reader _ hr := by simp [System.start] at hr

/-- When no call is in progress, the ring is that of a single thread. -/
theorem rotation (h : Flow rb N c l s) (hw : ∀ w, s.writer w = none) (hr : s.reader () = none) :
    Rotation rb.payloadSize c l.length l s.memory ∧ l.length < s.memory.header.slotCount := by
  have hpassed : s.passed = 0 := by simp [passed, hr]
  have hroom := h.room
  have hconsumer := h.consumerIdx
  rw [hpassed] at hroom hconsumer
  have hholds : ∀ i (hi : i < l.length), Deliverable rb.payloadSize
      (s.memory.slots ((c + i) % N)) l[i] := by
    intro i hi
    refine ⟨?_, h.fits _ (List.getElem_mem hi)⟩
    -- Without a call in progress the slot of a message holds it.
    rcases h.layout.holds i hi with ⟨pc, hr', -⟩ | hholds | ⟨w, call, ⟨pc, hw', -⟩, -⟩
    · rw [hr] at hr'
      cases hr'
    · exact hholds
    · rw [hw] at hw'
      cases hw'
  rw [h.slotCount]
  refine ⟨⟨?_, ?_, ?_, ?_, le_rfl⟩, hroom⟩
  · rw [h.slotCount]
    exact ⟨h.layout.length_le, hholds, fun i hi hN => (h.layout.free i hi hN).1⟩
  · rw [h.slotCount]
    exact h.slotCount_pos
  · rw [h.slotCount]
    exact hconsumer
  · rw [h.slotCount]
    exact h.producerIdx

/-- A slot that is claimed is not `Ready`. -/
theorem not_ready (h : Flow rb N c l s) {w : W} {call : WriteCall} {idx : ℕ}
    (hclaims : s.Claims w call idx) : (s.memory.slots idx).getStatus ≠ .ready := by
  obtain ⟨pc, hw, hclaimed⟩ := hclaims
  exact (h.writer _ _ _ hw).not_ready hclaimed

section
variable [DecidableEq W]

/-! ## The writers -/

/-- The messages of the calls fit after a step of a call whose message does. -/
theorem callFits_afterWrite (h : Flow rb N c l s) {w : W} {call : WriteCall}
    {e : Effect W Unit WritePc} (hfit : call.data.length ≤ rb.payloadSize) :
    ∀ w' call' pc, (s.afterWrite w call e).writer w' = some (call', pc) →
      call'.data.length ≤ rb.payloadSize := by
  intro w' call' pc hw'
  rcases afterWrite_writer.mp hw' with ⟨-, rfl, -⟩ | ⟨-, hold⟩
  · exact hfit
  · exact h.callFits _ _ _ hold

/-- A call starts, or takes a step that changes nothing but its place. -/
theorem write_move (h : Flow rb N c l s) {w : W} {call : WriteCall} {pc' : WritePc}
    {events : List (Event W Unit)} (hfit : call.data.length ≤ rb.payloadSize)
    (hsees : pc'.Sees s.memory call)
    (hclaims : ∀ idx, pc'.claimed = some idx ↔ s.Claims w call idx)
    (hcall : ∀ call' idx, s.Claims w call' idx → call' = call)
    (hwf : WellFormed (s.afterWrite w call ⟨s.memory, some pc', events⟩)) :
    Flow rb N c l (s.afterWrite w call ⟨s.memory, some pc', events⟩) := by
  -- The claimed slots are the same, and so is all that the invariant says of them.
  have hsame : ∀ w' call' idx,
      (s.afterWrite w call ⟨s.memory, some pc', events⟩).Claims w' call' idx ↔
        s.Claims w' call' idx := by
    intro w' call' idx
    rw [afterWrite_claims]
    constructor
    · rintro (⟨rfl, rfl, pc, hpc, hclaimed⟩ | ⟨-, hold⟩)
      · obtain rfl := Option.some.inj hpc
        exact (hclaims idx).mp hclaimed
      · exact hold
    · intro hold
      by_cases hne : w' = w
      · subst hne
        obtain rfl := hcall _ _ hold
        exact Or.inl ⟨rfl, rfl, pc', rfl, (hclaims idx).mpr hold⟩
      · exact Or.inr ⟨hne, hold⟩
  refine { h with
    toWellFormed := hwf
    layout := h.layout.mono ?_ ?_
    callFits := h.callFits_afterWrite hfit
    writer := ?_
    unique := fun w' w'' call' call'' idx h' h'' =>
      h.unique _ _ _ _ _ ((hsame _ _ _).mp h') ((hsame _ _ _).mp h'')
    apart := fun w' call' idx h' => h.apart _ _ _ ((hsame _ _ _).mp h') }
  · rintro idx msg (hread | hholds | ⟨w', call', hcl, hmsg⟩)
    · exact Or.inl hread
    · exact Or.inr (Or.inl hholds)
    · exact Or.inr (Or.inr ⟨w', call', (hsame _ _ _).mpr hcl, hmsg⟩)
  · rintro idx ⟨hav, hfree, hread⟩
    exact ⟨hav, fun w' call' hcl => hfree _ _ ((hsame _ _ _).mp hcl), hread⟩
  · intro w' call' pc hw'
    rcases afterWrite_writer.mp hw' with ⟨-, rfl, hpc⟩ | ⟨-, hold⟩
    · obtain rfl := Option.some.inj hpc
      exact hsees
    · exact h.writer _ _ _ hold

/-- A claim appends the message of the call. -/
theorem write_claim (h : Flow rb N c l s) {w : W} {call : WriteCall} {pc : WritePc}
    {attempts : ℕ} (hw : s.writer w = some (call, pc)) (hclaimed : pc.claimed = none)
    (hroom : l.length + 1 < N + s.passed)
    (hwf : WellFormed (s.afterWrite w call
      ⟨s.memory.setProducerIdx ((s.memory.header.producerIdx + 1) % s.memory.header.slotCount),
        some (.checkEmpty attempts s.memory.header.producerIdx),
        [.claimed w call s.memory.header.producerIdx]⟩)) :
    Flow rb N c (l ++ [call.message]) (s.afterWrite w call
      ⟨s.memory.setProducerIdx ((s.memory.header.producerIdx + 1) % s.memory.header.slotCount),
        some (.checkEmpty attempts s.memory.header.producerIdx),
        [.claimed w call s.memory.header.producerIdx]⟩) := by
  have hle := s.passed_le
  have hl : l.length < N := by omega
  have hnone : ∀ call' idx, ¬ s.Claims w call' idx := by
    rintro call' idx ⟨pc', hw', hclaimed'⟩
    obtain ⟨-, rfl⟩ := Prod.mk.inj (Option.some.inj (hw.symm.trans hw'))
    rw [hclaimed] at hclaimed'
    cases hclaimed'
  -- The slot of the producer index is the first one after the messages, and there it is free.
  obtain ⟨hav, hunclaimed, hunread⟩ := h.layout.free l.length le_rfl hl
  rw [← h.producerIdx] at hav hunclaimed hunread
  have hnew : ∀ w' call' idx, (s.afterWrite w call
      ⟨s.memory.setProducerIdx ((s.memory.header.producerIdx + 1) % s.memory.header.slotCount),
        some (.checkEmpty attempts s.memory.header.producerIdx),
        [.claimed w call s.memory.header.producerIdx]⟩).Claims w' call' idx →
      (w' = w ∧ call' = call ∧ idx = s.memory.header.producerIdx) ∨ s.Claims w' call' idx := by
    intro w' call' idx hcl
    rcases afterWrite_claims.mp hcl with ⟨rfl, rfl, pc', hpc, hidx⟩ | ⟨-, hold⟩
    · obtain rfl := Option.some.inj hpc
      exact Or.inl ⟨rfl, rfl, (Option.some.inj hidx).symm⟩
    · exact Or.inr hold
  refine { h with
    toWellFormed := hwf
    producerIdx := ?_
    room := by rw [List.length_append]; exact hroom
    layout := h.layout.push hl ?_ ?_ ?_
    fits := ?_
    callFits := h.callFits_afterWrite (h.callFits _ _ _ hw)
    writer := ?_
    unique := ?_
    apart := ?_
    reader := fun pc' hr => (h.reader pc' hr).append (fun _ _ => rfl) _ }
  · show (s.memory.header.producerIdx + 1) % s.memory.header.slotCount = _
    rw [h.producerIdx, h.slotCount, Cyclic.mod_succ, List.length_append]
    rfl
  · -- The new message is that of the call which has claimed its slot.
    rw [← h.producerIdx]
    exact Or.inr (Or.inr ⟨w, call, afterWrite_claims.mpr (Or.inl ⟨rfl, rfl, _, rfl, rfl⟩), rfl⟩)
  · -- The other slots keep their messages: the call had claimed none before.
    rintro idx - msg (hread | hholds | ⟨w', call', hcl, hmsg⟩)
    · exact Or.inl hread
    · exact Or.inr (Or.inl hholds)
    · have hne : w' ≠ w := by
        rintro rfl
        exact hnone _ _ hcl
      exact Or.inr (Or.inr ⟨w', call', afterWrite_claims.mpr (Or.inr ⟨hne, hcl⟩), hmsg⟩)
  · -- No other slot is claimed by the step.
    rintro idx hne ⟨hav', hfree, hread⟩
    refine ⟨hav', fun w' call' hcl => ?_, hread⟩
    rcases hnew _ _ _ hcl with ⟨-, -, rfl⟩ | hold
    · exact hne h.producerIdx
    · exact hfree _ _ hold
  · intro msg hmsg
    rcases List.mem_append.mp hmsg with hold | hlast
    · exact h.fits msg hold
    · obtain rfl := List.mem_singleton.mp hlast
      exact h.callFits _ _ _ hw
  · intro w' call' pc' hw'
    rcases afterWrite_writer.mp hw' with ⟨-, rfl, hpc⟩ | ⟨-, hold⟩
    · obtain rfl := Option.some.inj hpc
      exact hav
    · exact (h.writer _ _ _ hold).congr rfl fun _ _ => rfl
  · -- The new claim and an old one are of different slots.
    intro w' w'' call' call'' idx h' h''
    rcases hnew _ _ _ h' with ⟨rfl, rfl, rfl⟩ | hold <;>
      rcases hnew _ _ _ h'' with ⟨rfl, rfl, hidx⟩ | hold'
    · rfl
    · exact absurd hold' (hunclaimed _ _)
    · subst hidx
      exact absurd hold (hunclaimed _ _)
    · exact h.unique _ _ _ _ _ hold hold'
  · intro w' call' idx h'
    rcases hnew _ _ _ h' with ⟨rfl, rfl, rfl⟩ | hold
    · exact hunread
    · exact h.apart _ _ _ hold

/-- A store to a claimed slot leaves the message to be stored, or after the last store holds it. -/
theorem write_store (h : Flow rb N c l s) {w : W} {call : WriteCall} {idx : ℕ} {st : Store}
    {rest : List Store} {events : List (Event W Unit)}
    (hw : s.writer w = some (call, .storing idx st rest))
    (hwf : WellFormed (s.afterWrite w call
      ⟨s.memory.setSlot idx ((s.memory.slots idx).store st), WritePc.ofStores idx rest, events⟩)) :
    Flow rb N c l (s.afterWrite w call
      ⟨s.memory.setSlot idx ((s.memory.slots idx).store st), WritePc.ofStores idx rest,
        events⟩) := by
  obtain ⟨hready, hholds⟩ := h.writer _ _ _ hw
  have hown : s.Claims w call idx := ⟨_, hw, rfl⟩
  have hother : ∀ {i : ℕ}, i ≠ idx →
      (s.memory.setSlot idx ((s.memory.slots idx).store st)).slots i = s.memory.slots i :=
    fun hi => Function.update_of_ne hi _ _
  have hself : (s.memory.setSlot idx ((s.memory.slots idx).store st)).slots idx =
      (s.memory.slots idx).store st := Function.update_self _ _ _
  -- The step claims nothing, and the last store gives the claim up.
  have hold : ∀ w' call' i, (s.afterWrite w call
      ⟨s.memory.setSlot idx ((s.memory.slots idx).store st), WritePc.ofStores idx rest,
        events⟩).Claims w' call' i → s.Claims w' call' i := by
    intro w' call' i hcl
    rcases afterWrite_claims.mp hcl with ⟨rfl, rfl, pc', hpc, hi⟩ | ⟨-, hold⟩
    · obtain ⟨st', rest', -, rfl⟩ := WritePc.ofStores_eq_some.mp hpc
      obtain rfl := Option.some.inj hi
      exact hown
    · exact hold
  refine { h with
    toWellFormed := hwf
    layout := h.layout.mono ?_ ?_
    callFits := h.callFits_afterWrite (h.callFits _ _ _ hw)
    writer := ?_
    unique := fun w' w'' call' call'' i h' h'' =>
      h.unique _ _ _ _ _ (hold _ _ _ h') (hold _ _ _ h'')
    apart := fun w' call' i h' => h.apart _ _ _ (hold _ _ _ h')
    reader := fun pc' hr => ?_ }
  · rintro i msg (hread | hmsg | ⟨w', call', hcl, hmsg⟩)
    · exact Or.inl hread
    · -- A slot that holds its message is `Ready`, and a claimed one is not.
      have hi : i ≠ idx := by
        rintro rfl
        exact hready hmsg.ready
      refine Or.inr (Or.inl ?_)
      show ((s.memory.setSlot idx ((s.memory.slots idx).store st)).slots i).Holds msg
      rw [hother hi]
      exact hmsg
    · by_cases hne : w' = w
      · subst hne
        obtain ⟨rfl, rfl⟩ := hcl.unique hown
        -- The slot holds the message once the last store is made.
        cases rest with
        | nil =>
          refine Or.inr (Or.inl ?_)
          show ((s.memory.setSlot i ((s.memory.slots i).store st)).slots i).Holds msg
          rw [hself, ← hmsg]
          exact hholds
        | cons st' rest =>
          exact Or.inr (Or.inr ⟨w', call',
            afterWrite_claims.mpr (Or.inl ⟨rfl, rfl, _, rfl, rfl⟩), hmsg⟩)
      · exact Or.inr (Or.inr ⟨w', call', afterWrite_claims.mpr (Or.inr ⟨hne, hcl⟩), hmsg⟩)
  · -- A free slot is not the one that is stored to, which is claimed.
    rintro i ⟨hav, hfree, hread⟩
    have hi : i ≠ idx := by
      rintro rfl
      exact hfree _ _ hown
    refine ⟨?_, fun w' call' hcl => hfree _ _ (hold _ _ _ hcl), hread⟩
    show ((s.memory.setSlot idx ((s.memory.slots idx).store st)).slots i).available = true
    rw [hother hi]
    exact hav
  · intro w' call' pc' hw'
    rcases afterWrite_writer.mp hw' with ⟨rfl, rfl, hpc⟩ | ⟨hne, hold'⟩
    · obtain ⟨st', rest', rfl, rfl⟩ := WritePc.ofStores_eq_some.mp hpc
      show ((s.memory.setSlot idx ((s.memory.slots idx).store st)).slots idx).getStatus ≠ _ ∧
        (((s.memory.setSlot idx ((s.memory.slots idx).store st)).slots idx).storeAll _).Holds _
      rw [hself]
      refine ⟨fun hst => ?_, hholds⟩
      -- Only the last store makes the slot `Ready`.
      cases st with
      | status status =>
        rw [Slot.getStatus_store_status] at hst
        subst hst
        cases (ready_iff_last (h.writing _ _ _ _ _ hw)).mp rfl
      | operation | size | id | timestamp | payload => exact hready hst
    · -- The other calls are in other slots.
      refine (h.writer _ _ _ hold').congr rfl fun i hi => hother ?_
      rintro rfl
      exact hne (h.unique _ _ _ _ _ ⟨_, hold', hi⟩ hown)
  · -- So is the reader.
    rw [← List.append_nil l]
    refine (h.reader pc' hr).append (fun i hi => hother ?_) []
    rintro rfl
    exact h.apart _ _ _ hown ⟨pc', hr, hi⟩

end

/-! ## The reader -/

/-- A step of the reader that returns no message. -/
theorem read_move (h : Flow rb N c l s) {e : Effect W Unit ReadPc}
    (he : ReadMove s.memory N c l (s.reader ()) e) (hwf : WellFormed (s.afterRead () e)) :
    Flow rb N c l (s.afterRead () e) := by
  -- What `ReadMove` says of the program counter is about the slot that is being read.
  have hreading : ∀ idx, s.Reading idx ↔ (s.reader ()).bind ReadPc.reading = some idx :=
    fun idx => Option.bind_eq_some_iff.symm
  have hreading' : ∀ idx, (s.afterRead () e).Reading idx ↔ e.pc.bind ReadPc.reading = some idx := by
    intro idx
    rw [Option.bind_eq_some_iff]
    simp [Reading, afterRead]
  have hpassed : (s.afterRead () e).passed = e.pc.elim 0 ReadPc.passed := by
    simp [passed, afterRead]
  have hle : s.passed ≤ e.pc.elim 0 ReadPc.passed :=
    Nat.le.intro ((Nat.add_comm _ _).trans he.passes)
  have hslots : ∀ idx, ¬ s.Reading idx → e.memory.slots idx = s.memory.slots idx :=
    fun idx hidx => he.slots idx (mt (hreading idx).mpr hidx)
  have hnew : ∀ idx, (s.afterRead () e).Reading idx →
      s.Reading idx ∨ (s.memory.slots idx).getStatus = .ready :=
    fun idx hidx => (he.reading idx ((hreading' idx).mp hidx)).imp_left (hreading idx).mpr
  refine { h with
    toWellFormed := hwf
    slotCount := he.slotCount.trans h.slotCount
    producerIdx := he.producerIdx.trans h.producerIdx
    consumerIdx := by rw [hpassed]; exact he.consumerIdx
    room := by rw [hpassed]; exact Nat.lt_of_lt_of_le h.room (Nat.add_le_add_left hle N)
    layout := h.layout.mono ?_ ?_
    writer := fun w call pc hw => (h.writer w call pc hw).congr he.slotCount fun idx hidx =>
      hslots idx (h.apart _ _ _ ⟨pc, hw, hidx⟩)
    apart := ?_
    reader := fun pc hr => he.sees pc (by simpa [afterRead] using hr) }
  · -- The step changes the slot that is being read only, which the call goes on reading.
    intro idx msg hkeeps
    by_cases hread : s.Reading idx
    · exact Or.inl ((hreading' idx).mpr (he.still idx ((hreading idx).mp hread)))
    · rcases hkeeps with hread' | hholds | hcl
      · exact absurd hread' hread
      · refine Or.inr (Or.inl ?_)
        show (e.memory.slots idx).Holds msg
        rw [hslots idx hread]
        exact hholds
      · exact Or.inr (Or.inr hcl)
  · -- A free slot is available, and the call starts to read one that is `Ready`.
    rintro idx ⟨hav, hfree, hread⟩
    refine ⟨?_, hfree, fun hread' => ?_⟩
    · show (e.memory.slots idx).available = true
      rw [hslots idx hread]
      exact hav
    · rcases hnew idx hread' with hold | hready
      · exact hread hold
      · simp [Slot.available, hready] at hav
  · -- Nor is that slot claimed.
    intro w call idx hcl hread
    rcases hnew idx hread with hold | hready
    · exact h.apart _ _ _ hcl hold
    · exact h.not_ready hcl hready

/-- The return of a message frees its slot. -/
theorem read_return (h : Flow rb N c l s) {idx : ℕ} {msg : Message}
    {events : List (Event W Unit)} (hr : s.reader () = some (.increment idx msg))
    (hwf : WellFormed (s.afterRead () ⟨s.memory.incrementCompleted, none, events⟩)) :
    ∃ l', l = msg :: l' ∧ idx = c % N ∧
      Flow rb N (c + 1) l' (s.afterRead () ⟨s.memory.incrementCompleted, none, events⟩) := by
  obtain ⟨rfl, hmsg, hav⟩ := h.reader _ hr
  cases l with
  | nil => cases hmsg
  | cons msg' l =>
    obtain rfl := Option.some.inj hmsg
    refine ⟨l, rfl, rfl, ?_⟩
    -- The message that is returned is the first, and no other slot is being read.
    have hown : s.Reading (c % N) := ⟨_, hr, rfl⟩
    have honly : ∀ idx, s.Reading idx → idx = c % N := by
      rintro idx ⟨pc, hr', hidx⟩
      exact (h.reader pc hr').reading_eq hidx
    have hnone : ∀ idx, ¬ (s.afterRead () ⟨s.memory.incrementCompleted, none,
        events⟩ : System W Unit).Reading idx := by
      rintro idx ⟨pc, hr', -⟩
      simp [afterRead] at hr'
    have hpassed : s.passed = 1 := by simp [passed, hr, ReadPc.passed]
    have hpassed' : (s.afterRead () ⟨s.memory.incrementCompleted, none, events⟩).passed = 0 := by
      simp [passed, afterRead]
    have hlen := h.room
    rw [hpassed, List.length_cons] at hlen
    refine { h with
      toWellFormed := hwf
      producerIdx := ?_
      consumerIdx := ?_
      room := by rw [hpassed']; omega
      layout := h.layout.pop ⟨hav, fun w call hcl => h.apart _ _ _ hcl hown, hnone _⟩ ?_ ?_
      fits := fun m hm => h.fits m (List.mem_cons_of_mem _ hm)
      apart := fun w call i _ => hnone i
      reader := fun pc hr' => by simp [afterRead] at hr' }
    · show s.memory.header.producerIdx = _
      rw [h.producerIdx, List.length_cons]
      congr 1
      omega
    · rw [hpassed']
      show s.memory.header.consumerIdx = _
      rw [h.consumerIdx, hpassed]
    · -- Only the slot of the first message is being read.
      rintro i hi m (hread | hholds | hcl)
      · exact absurd (honly i hread) hi
      · exact Or.inr (Or.inl hholds)
      · exact Or.inr (Or.inr hcl)
    · rintro i hi ⟨hav', hfree, -⟩
      exact ⟨hav', hfree, hnone i⟩

/-! ## Steps and runs -/

section
variable [DecidableEq W]

/-- Every step moves the list on, if the payload of a call that starts fits and the reader finds the
slot that it has passed `Ready`. The list keeps its form as long as it leaves room. -/
theorem step (h : Flow rb N c l s) {a : Action W Unit} {s' : System W Unit}
    (hfit : ∀ w call, a = .callWrite w call → Fits rb call)
    (hready : ∀ spurious idx, a = .stepRead () spurious → s.reader () = some (.checkReady idx) →
      (s.memory.slots idx).getStatus = .ready)
    (hstep : s.step rb a = some s') :
    ∃ c' l', Moved N s c l s' c' l' ∧ (l'.length < N + s'.passed → Flow rb N c' l' s') := by
  have hwf := h.toWellFormed.step hstep
  rcases step_cases hstep with ⟨w, call, rfl, hw, rfl⟩ | ⟨w, spurious, call, pc, rfl, hw, rfl⟩ |
    ⟨⟨⟩, rfl, hr, rfl⟩ | ⟨⟨⟩, spurious, pc, rfl, hr, rfl⟩
  · -- A call of `write` starts.
    obtain ⟨-, hlen⟩ := hfit w call rfl
    have hcall : (writeCall rb w call s.memory : Effect W Unit WritePc) =
        ⟨s.memory, some (.loadProducerIdx maxAttempts), [.writeCalled w call]⟩ := by
      simp [writeCall, maxPayloadSize_eq h.slotsFit.slotSize_ge, hlen]
    rw [hcall] at hwf ⊢
    have hnone : ∀ call' idx, ¬ s.Claims w call' idx := by
      rintro call' idx ⟨pc, hw', -⟩
      rw [hw] at hw'
      cases hw'
    exact ⟨c, l, .writeCalled w call hw, fun _ => h.write_move hlen trivial
      (fun idx => ⟨fun hidx => (by cases hidx), fun hcl => absurd hcl (hnone _ _)⟩)
      (fun call' idx hcl => absurd hcl (hnone _ _)) hwf⟩
  · -- A call of `write` takes a step: it changes its place, claims a slot, or stores.
    rcases writeStep_of_sees (R := Unit) h.valid (h.writer _ _ _ hw) w spurious with
      ⟨pc', he, hclaimed, hsees⟩ | ⟨hclaimed, attempts, he⟩ | ⟨idx, st, rest, rfl⟩
    · rw [he] at hwf ⊢
      refine ⟨c, l, .writeMoved w call pc pc' hw hclaimed, fun _ =>
        h.write_move (h.callFits _ _ _ hw) hsees (fun idx => ?_) (fun call' idx hcl => ?_) hwf⟩
      · rw [hclaimed]
        refine ⟨fun hidx => ⟨pc, hw, hidx⟩, ?_⟩
        rintro ⟨pc'', hw', hidx⟩
        obtain ⟨-, rfl⟩ := Prod.mk.inj (Option.some.inj (hw.symm.trans hw'))
        exact hidx
      · obtain ⟨pc'', hw', -⟩ := hcl
        exact (Prod.mk.inj (Option.some.inj (hw'.symm.trans hw))).1
    · rw [he] at hwf ⊢
      refine ⟨c, l ++ [call.message], ?_, fun hroom => ?_⟩
      · rw [h.producerIdx]
        exact .claimed w call pc _ attempts hw hclaimed
      · rw [List.length_append] at hroom
        exact h.write_claim hw hclaimed hroom hwf
    · exact ⟨c, l, .stored w call _ idx st rest hw, fun _ => h.write_store hw hwf⟩
  · -- A call of `read` starts.
    have he : ReadMove s.memory N c l (s.reader ())
        (⟨s.memory, some .loadProducerIdx, [.readCalled ()]⟩ : Effect W Unit ReadPc) := by
      rw [hr]
      have hconsumer := h.consumerIdx
      simp only [passed, hr] at hconsumer
      refine ⟨rfl, rfl, hconsumer, rfl, rfl, fun _ _ => rfl, by simp, by simp [ReadPc.reading], ?_⟩
      rintro pc' ⟨⟩
      trivial
    exact ⟨c, l, .readMoved _ he (ofRead_readCalled ()), fun _ => h.read_move he hwf⟩
  · -- A call of `read` takes a step.
    have hconsumer := h.consumerIdx
    simp only [passed, hr] at hconsumer
    have hunread : pc.reading = none → ¬ s.Reading (c % N) := by
      rintro hpc ⟨pc', hr', hidx⟩
      obtain rfl := Option.some.inj (hr.symm.trans hr')
      rw [hpc] at hidx
      cases hidx
    have hlayout : pc.reading = none → ∀ msg ∈ l.head?,
        (s.memory.slots (c % N)).getStatus = .ready → (s.memory.slots (c % N)).Holds msg := by
      intro hpc msg hmsg hst
      cases l with
      | nil => cases hmsg
      | cons msg' l =>
        obtain rfl := Option.some.inj hmsg
        -- A slot that is `Ready` is not claimed, and the call is not reading yet.
        rcases h.layout.head with hread | hholds | ⟨w, call, hcl, -⟩
        · exact absurd hread (hunread hpc)
        · exact hholds
        · exact absurd hst (h.not_ready hcl)
    rcases readStep_of_sees (W := W) h.valid h.slotCount h.producerIdx hconsumer hlayout h.fits
      (h.reader pc hr) (fun idx hpc => hready spurious idx rfl (hpc ▸ hr)) () spurious with
      ⟨idx, msg, rfl⟩ | he
    · obtain ⟨l', rfl, rfl, hflow⟩ := h.read_return hr hwf
      exact ⟨c + 1, l', .returned _ msg l' rfl hr, fun _ => hflow⟩
    · rw [← hr] at he
      exact ⟨c, l, .readMoved _ he (readStep_events rb () s.memory spurious pc).1,
        fun _ => h.read_move he hwf⟩

end

end Flow

end System

end Elgate.Ring
