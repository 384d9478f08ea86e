import Mathlib.Data.Fintype.Basic
import Elgate.Ring.Create
import Elgate.Ring.Steps

/-!
# What a read returns has been written

The kind, the size, and the payload of a message are stored one after the other, and `reset` clears
the kind and the size after it has stored `Empty`. A message is taken apart when two calls of
`write` store to one slot, or when the reader, resetting a slot that it has found not `Ready`,
clears the kind or the size after a call has stored it. In a run in which neither happens
(`System.Unmixed`), every message that a read returns is that of a call of `write` that started
before (`messages_intact`).
-/

namespace Elgate.Ring

open Transition

section
variable {W R : Type}

/-- A call of `write` with this message has started. -/
def Sent (h : List (Event W R)) (msg : Message) : Prop :=
  ∃ w call, (w, call) ∈ calls h ∧ call.message = msg

/-- A call has started after more events, too. -/
theorem Sent.append {h : List (Event W R)} {msg : Message} (hsent : Sent h msg)
    (h' : List (Event W R)) : Sent (h ++ h') msg := by
  obtain ⟨w, call, hmem, hmsg⟩ := hsent
  refine ⟨w, call, ?_, hmsg⟩
  rw [calls_append]
  exact List.mem_append_left _ hmem

/-- Every message that a read has returned had been sent. -/
def OnlySent (h : List (Event W R)) : Prop :=
  ∀ before ev after, h = before ++ ev :: after → ∀ delivery ∈ ev.delivery, Sent before delivery.2

/-- A message that has been returned has been sent. -/
theorem OnlySent.sent_of_mem {h : List (Event W R)} (honly : OnlySent h) {delivery : ℕ × Message}
    (hmem : delivery ∈ deliveries h) : Sent h delivery.2 := by
  obtain ⟨ev, hev, hdelivery⟩ := List.mem_filterMap.mp hmem
  obtain ⟨before, after, rfl⟩ := List.append_of_mem hev
  exact (honly before ev after rfl delivery hdelivery).append _

/-- More events that return only messages that have been sent. -/
theorem OnlySent.append {h es : List (Event W R)} (honly : OnlySent h)
    (hes : ∀ ev ∈ es, ∀ delivery ∈ ev.delivery, Sent h delivery.2) : OnlySent (h ++ es) := by
  intro before ev after heq delivery hdel
  rcases List.append_eq_append_iff.mp heq with ⟨l, rfl, hes'⟩ | ⟨l, hl, hes'⟩
  · exact (hes ev (by simp [hes']) delivery hdel).append l
  · cases l with
    | nil =>
      rw [List.nil_append] at hes'
      rw [List.append_nil] at hl
      exact hl ▸ hes ev (by simp [← hes']) delivery hdel
    | cons ev' l =>
      obtain ⟨rfl, -⟩ := List.cons.inj hes'
      exact honly before ev l hl delivery hdel

end

namespace System

variable {W : Type}

/-- The step takes no slot that another call has taken. If it is the store of a kind or a size by
the reader's `reset`, the slot is not `Ready`, and a call that has taken it stores that word later.
-/
def Unmixed (s : System W Unit) : Action W Unit → Prop
  | .stepWrite w _ =>
    match s.writer w with
    | some (_, pc) => ∀ idx ∈ pc.accepts s.memory, ∀ w', w' ≠ w → s.remaining w' idx = none
    | none => True
  | .stepRead _ _ =>
    match s.reader () with
    | some (.resetting idx st _) => st.Erases →
      (s.memory.slots idx).getStatus ≠ .ready ∧
        ∀ w, ∀ stores ∈ s.remaining w idx, ∃ later ∈ stores, st.OverwrittenBy later
    | _ => True
  | _ => True

instance [Fintype W] [DecidableEq W] (s : System W Unit) (a : Action W Unit) :
    Decidable (s.Unmixed a) := by
  unfold Unmixed
  split
  · split <;> infer_instance
  · split <;> infer_instance
  · infer_instance

/-- What the reader has loaded belongs to a message that has been sent. -/
def ReaderHas (m : RingMemory) (h : List (Event W Unit)) : Option ReadPc → Prop
  | some (.loadOperation idx) => (m.slots idx).getStatus = .ready
  | some (.recheckReady idx kind) =>
    (m.slots idx).getStatus = .ready ∧ kind = (m.slots idx).getOperation
  | some (.storeReading idx kind) =>
    (m.slots idx).getStatus = .ready ∧ kind = (m.slots idx).getOperation
  | some (.loadSize idx kind) =>
    (m.slots idx).getStatus = .reading ∧
      ∃ msg, Sent h msg ∧ (m.slots idx).Contains msg ∧ kind = msg.kind
  | some (.copy idx kind size) =>
    (m.slots idx).getStatus = .reading ∧
      ∃ msg, Sent h msg ∧ (m.slots idx).Contains msg ∧ kind = msg.kind ∧ size = msg.data.length
  | some (.storeComplete idx kind data) =>
    (m.slots idx).getStatus = .reading ∧ ∀ bytes ∈ data, Sent h ⟨kind, bytes⟩
  | some (.increment _ msg) => Sent h msg
  | _ => True

/-- What holds of a system whose steps are all unmixed. -/
structure Intact (s : System W Unit) : Prop extends WellFormed s where
  /-- A slot that is taken is not the reader's. -/
  status_ne : ∀ w call idx st rest, s.writer w = some (call, .storing idx st rest) →
    (s.memory.slots idx).getStatus ≠ .ready ∧ (s.memory.slots idx).getStatus ≠ .reading
  /-- The stores that are left to a slot that is taken complete the message. -/
  contains : ∀ w call idx st rest, s.writer w = some (call, .storing idx st rest) →
    ((s.memory.slots idx).storeAll (st :: rest)).Contains call.message
  /-- A slot is taken by one call. -/
  unique : ∀ w w' call call' idx st st' rest rest',
    s.writer w = some (call, .storing idx st rest) →
    s.writer w' = some (call', .storing idx st' rest') → w = w'
  /-- The calls have started. -/
  called : ∀ w call pc, s.writer w = some (call, pc) → (w, call) ∈ calls s.history
  /-- A slot that is ready contains a message that has been sent. -/
  ready : ∀ idx, (s.memory.slots idx).getStatus = .ready →
    ∃ msg, Sent s.history msg ∧ (s.memory.slots idx).Contains msg
  /-- So does what the reader has loaded. -/
  reader : ReaderHas s.memory s.history (s.reader ())
  /-- The messages that have been returned have been sent. -/
  delivered : OnlySent s.history

/-! ## The reader -/

variable {m : RingMemory} {h : List (Event W Unit)} {pc : Option ReadPc}

/-- A change to a slot that the reader is not in. -/
theorem ReaderHas.setSlot (hread : ReaderHas m h pc) {idx : ℕ}
    (hready : (m.slots idx).getStatus ≠ .ready) (hreading : (m.slots idx).getStatus ≠ .reading)
    (slot : Slot) : ReaderHas (m.setSlot idx slot) h pc := by
  have hne : ∀ {i : ℕ} {status : SlotStatus}, (m.slots i).getStatus = status →
      (m.slots idx).getStatus ≠ status → (m.setSlot idx slot).slots i = m.slots i := by
    intro i status hi hidx
    exact Function.update_of_ne (fun heq : i = idx => hidx (heq ▸ hi)) _ _
  cases pc with
  | none => trivial
  | some pc =>
    cases pc with
    | loadOperation i =>
      rw [ReaderHas, hne hread hready]
      exact hread
    | recheckReady i kind | storeReading i kind =>
      rw [ReaderHas, hne hread.1 hready]
      exact hread
    | loadSize | copy | storeComplete =>
      rw [ReaderHas, hne hread.1 hreading]
      exact hread
    | increment | loadProducerIdx | loadConsumerIdx | loadCurrent | compareExchange | checkReady
      | resetting => exact hread

/-- A change to the header, and more events. -/
theorem ReaderHas.append (hread : ReaderHas m h pc) {m' : RingMemory} (hm : m'.slots = m.slots)
    (h' : List (Event W Unit)) : ReaderHas m' (h ++ h') pc := by
  cases pc with
  | none => trivial
  | some pc =>
    cases pc with
    | loadOperation | recheckReady | storeReading =>
      simp only [ReaderHas, hm] at hread ⊢
      exact hread
    | loadSize | copy =>
      simp only [ReaderHas, hm] at hread ⊢
      obtain ⟨hstatus, msg, hsent, hrest⟩ := hread
      exact ⟨hstatus, msg, hsent.append h', hrest⟩
    | storeComplete i kind data =>
      simp only [ReaderHas, hm] at hread ⊢
      exact ⟨hread.1, fun bytes hbytes => (hread.2 bytes hbytes).append h'⟩
    | increment i msg => exact Sent.append hread h'
    | loadProducerIdx | loadConsumerIdx | loadCurrent | compareExchange | checkReady
      | resetting => trivial

/-- A step of the reader, when the slots that are ready contain messages that have been sent. -/
theorem ReaderHas.readStep (rb : RingBuffer) (spurious : Bool) {pc : ReadPc}
    (hread : ReaderHas m h (some pc))
    (hready : ∀ idx, (m.slots idx).getStatus = .ready →
      ∃ msg, Sent h msg ∧ (m.slots idx).Contains msg) :
    ReaderHas (readStep rb () m spurious pc : Effect W Unit ReadPc).memory h
      (readStep rb () m spurious pc : Effect W Unit ReadPc).pc := by
  cases pc with
  | loadProducerIdx | loadCurrent | increment => trivial
  | loadConsumerIdx =>
    simp only [Ring.readStep]
    split <;> trivial
  | compareExchange current =>
    simp only [Ring.readStep]
    repeat' split
    all_goals trivial
  | checkReady idx =>
    simp only [Ring.readStep]
    split
    · assumption
    · trivial
  | loadOperation idx => exact ⟨hread, rfl⟩
  | recheckReady idx kind =>
    simp only [Ring.readStep]
    split
    · exact hread
    · trivial
  | storeReading idx kind =>
    -- The slot is `Ready` here, so that a message that has been sent is in it.
    obtain ⟨hstatus, hkind⟩ := hread
    obtain ⟨msg, hsent, hcontains⟩ := hready idx hstatus
    simp only [Ring.readStep, ReaderHas, RingMemory.setSlot_slots, Function.update_self]
    exact ⟨Slot.getStatus_store_status _ _, msg, hsent,
      Slot.contains_store_status hcontains _, hkind.trans hcontains.operation⟩
  | loadSize idx kind =>
    obtain ⟨hstatus, msg, hsent, hcontains, hkind⟩ := hread
    simp only [Ring.readStep]
    split
    · exact ⟨hstatus, by simp⟩
    · exact ⟨hstatus, msg, hsent, hcontains, hkind, hcontains.size⟩
  | copy idx kind size =>
    obtain ⟨hstatus, msg, hsent, hcontains, hkind, hsize⟩ := hread
    refine ⟨hstatus, fun bytes hbytes => ?_⟩
    obtain rfl := Option.some.inj hbytes
    rw [hkind, hsize, hcontains.data]
    exact hsent
  | storeComplete idx kind data =>
    cases data with
    | none => trivial
    | some bytes => exact hread.2 bytes rfl
  | resetting idx st rest => cases rest <;> trivial

/-! ## The invariant -/

namespace Intact

variable {s : System W Unit}

/-- A created ring has no slot that is ready. -/
theorem start {options : RingBufferOptions} {m : RingMemory} {rb : RingBuffer}
    (hc : Created options m rb) : Intact (System.start m : System W Unit) where
  toWellFormed := WellFormed.start m
  status_ne _ _ _ _ _ h := by simp [System.start] at h
  contains _ _ _ _ _ h := by simp [System.start] at h
  unique _ _ _ _ _ _ _ _ _ h := by simp [System.start] at h
  called _ _ _ h := by simp [System.start] at h
  ready idx h := by
    rw [System.start, hc.fresh.1.getStatus_eq idx] at h
    cases h
  reader := trivial
  delivered before ev after h := by simp [System.start] at h

/-- A call has started, whatever happens after that. -/
theorem called_append (h : Intact s) {w : W} {call : WriteCall} {pc : WritePc}
    (hw : s.writer w = some (call, pc)) (events : List (Event W Unit)) :
    (w, call) ∈ calls (s.history ++ events) := by
  rw [calls_append]
  exact List.mem_append_left _ (h.called _ _ _ hw)

/-- The calls have started after a step of a call that has. -/
theorem called_afterWrite [DecidableEq W] (h : Intact s) {w : W} {call : WriteCall}
    {e : Effect W Unit WritePc} (hcalled : (w, call) ∈ calls (s.history ++ e.events)) :
    ∀ w' call' pc, (s.afterWrite w call e).writer w' = some (call', pc) →
      (w', call') ∈ calls (s.afterWrite w call e).history := by
  intro w' call' pc hw'
  rcases afterWrite_writer.mp hw' with ⟨rfl, rfl, -⟩ | ⟨-, hold⟩
  · exact hcalled
  · exact h.called_append hold e.events

/-- The message of a slot that is ready has been sent, whatever happens after that. -/
theorem ready_append (h : Intact s) {idx : ℕ} (hready : (s.memory.slots idx).getStatus = .ready)
    (events : List (Event W Unit)) :
    ∃ msg, Sent (s.history ++ events) msg ∧ (s.memory.slots idx).Contains msg := by
  obtain ⟨msg, hsent, hcontains⟩ := h.ready idx hready
  exact ⟨msg, hsent.append events, hcontains⟩

/-- A step of `read` that erases nothing that is not stored again. -/
theorem read_step (h : Intact s) {rb : RingBuffer} {spurious : Bool} {pc : ReadPc}
    (hr : s.reader () = some pc)
    (hguard : ∀ idx st rest, pc = .resetting idx st rest → st.Erases →
      (s.memory.slots idx).getStatus ≠ .ready ∧
        ∀ w, ∀ stores ∈ s.remaining w idx, ∃ later ∈ stores, st.OverwrittenBy later) :
    Intact (s.afterRead () (readStep rb () s.memory spurious pc)) := by
  obtain ⟨-, hdel, -⟩ := readStep_events (W := W) rb () s.memory spurious pc
  have hslot := readStep_slot (W := W) rb () s.memory spurious pc
  have hread := h.reader
  rw [hr] at hread
  have hnext := hread.readStep rb spurious h.ready
  have hwf : WellFormed (s.afterRead () (readStep rb () s.memory spurious pc)) :=
    h.toWellFormed.afterRead hr
  generalize readStep rb () s.memory spurious pc = e at hdel hslot hnext hwf ⊢
  -- A slot that is taken changes by a store of `reset` at most.
  have htaken : ∀ w call idx st rest, s.writer w = some (call, .storing idx st rest) →
      e.memory.slots idx = s.memory.slots idx ∨ ∃ st' rest', pc = .resetting idx st' rest' ∧
        st' ∈ Slot.resetStores ∧ e.memory.slots idx = (s.memory.slots idx).store st' := by
    intro w call idx st rest hw
    obtain ⟨hready, hreading⟩ := h.status_ne _ _ _ _ _ hw
    refine (hslot idx).imp_right fun ⟨st', hstore, heq⟩ => ?_
    rcases ReadPc.store_eq_some hstore with ⟨kind, rfl, -⟩ | ⟨kind, data, rfl, -⟩ | ⟨rest', rfl⟩
    · exact absurd hread.1 hready
    · exact absurd hread.1 hreading
    · exact ⟨st', rest', rfl, (h.resetting () _ _ _ hr).subset List.mem_cons_self, heq⟩
  refine ⟨hwf, ?_, ?_, h.unique, fun w call pc' hw => h.called_append hw e.events, ?_, ?_, ?_⟩
  · -- `reset` makes no slot `Ready` or `Reading`.
    intro w call idx st rest hw
    show (e.memory.slots idx).getStatus ≠ .ready ∧ (e.memory.slots idx).getStatus ≠ .reading
    rcases htaken w call idx st rest hw with heq | ⟨st', rest', -, hmem, heq⟩
    · rw [heq]
      exact h.status_ne _ _ _ _ _ hw
    · rw [heq]
      rcases getStatus_store_of_mem_resetStores hmem (s.memory.slots idx) with hs | hs
      · rw [hs]
        exact h.status_ne _ _ _ _ _ hw
      · simp [hs]
  · -- What `reset` erases is stored again by one of the stores that are left.
    intro w call idx st rest hw
    show ((e.memory.slots idx).storeAll (st :: rest)).Contains call.message
    rcases htaken w call idx st rest hw with heq | ⟨st', rest', hpc, hmem, heq⟩
    · rw [heq]
      exact h.contains _ _ _ _ _ hw
    · rw [heq]
      exact Slot.contains_storeAll_store (h.contains _ _ _ _ _ hw) hmem fun herases =>
        (hguard idx st' rest' hpc herases).2 w _ (remaining_eq hw)
  · intro idx hready
    have hready : (e.memory.slots idx).getStatus = .ready := hready
    show ∃ msg, Sent (s.history ++ e.events) msg ∧ (e.memory.slots idx).Contains msg
    rcases hslot idx with heq | ⟨st, hstore, heq⟩
    · rw [heq] at hready ⊢
      exact h.ready_append hready e.events
    · -- A slot that is `Ready` after a store of the reader was so before.
      rw [heq] at hready ⊢
      rcases ReadPc.store_eq_some hstore with ⟨kind, rfl, rfl⟩ | ⟨kind, data, rfl, rfl⟩ |
        ⟨rest, rfl⟩
      · simp at hready
      · simp at hready
      · have hmem := (h.resetting () _ _ _ hr).subset List.mem_cons_self
        have hold : (s.memory.slots idx).getStatus = .ready := by
          rcases getStatus_store_of_mem_resetStores hmem (s.memory.slots idx) with hs | hs
          · rw [← hs, hready]
          · rw [hs] at hready
            cases hready
        obtain ⟨msg, hsent, hcontains⟩ := h.ready_append hold e.events
        refine ⟨msg, hsent, ?_⟩
        -- The store erases neither the kind nor the size of such a slot.
        cases st with
        | operation kind => exact absurd hold (hguard idx _ rest rfl trivial).1
        | size size => exact absurd hold (hguard idx _ rest rfl trivial).1
        | status | id | timestamp => exact hcontains.congr rfl rfl rfl
        | payload data => simp [Slot.resetStores, Slot.setId] at hmem
  · show ReaderHas e.memory (s.history ++ e.events) (Function.update s.reader () e.pc ())
    rw [Function.update_self]
    exact hnext.append rfl _
  · refine h.delivered.append fun ev hev delivery hdelivery => ?_
    have hmem : delivery ∈ deliveries e.events := List.mem_filterMap.mpr ⟨ev, hev, hdelivery⟩
    rw [hdel, Option.mem_toList] at hmem
    obtain rfl := ReadPc.delivery_eq_some.mp hmem
    exact hread

variable [DecidableEq W]

/-- A step that is private to a call of `write`. -/
theorem private_step (h : Intact s) {w : W} {call : WriteCall} {e : Effect W Unit WritePc}
    (he : e.Private s.memory) (hwf : WellFormed (s.afterWrite w call e))
    (hcalled : (w, call) ∈ calls (s.history ++ e.events)) : Intact (s.afterWrite w call e) := by
  have hslots : (s.afterWrite w call e).memory.slots = s.memory.slots := he.slots
  refine ⟨hwf, ?_, ?_, TakenOnce.of_private h.unique he, h.called_afterWrite hcalled, ?_,
    h.reader.append he.slots _, ?_⟩
  · intro w' call' idx st rest hw'
    rw [hslots]
    exact h.status_ne _ _ _ _ _ (storing_of_private he hw').2
  · intro w' call' idx st rest hw'
    rw [hslots]
    exact h.contains _ _ _ _ _ (storing_of_private he hw').2
  · intro idx hready
    rw [hslots] at hready ⊢
    exact h.ready_append hready e.events
  · exact h.delivered.append fun ev hev delivery hdelivery => by
      rw [he.delivery_eq ev hev] at hdelivery
      cases hdelivery

/-- A check that takes a slot that no other call has taken. -/
theorem accept_step (h : Intact s) {w : W} {call : WriteCall} {pc : WritePc} {idx : ℕ}
    (hw : s.writer w = some (call, pc)) (haccepts : pc.accepts s.memory = some idx)
    (hguard : ∀ w', w' ≠ w → s.remaining w' idx = none)
    (hwf : WellFormed (s.afterWrite w call ⟨s.memory, WritePc.ofStores idx call.program, []⟩)) :
    Intact (s.afterWrite w call ⟨s.memory, WritePc.ofStores idx call.program, []⟩) := by
  -- The guard says that no other call has stores left to the slot.
  have hfree : ∀ w' call' st rest, w' ≠ w →
      s.writer w' ≠ some (call', .storing idx st rest) := by
    intro w' call' st rest hne hw'
    have hnone := hguard w' hne
    rw [remaining_eq hw'] at hnone
    cases hnone
  have hhist : (s.afterWrite w call ⟨s.memory, WritePc.ofStores idx call.program, []⟩).history =
      s.history := List.append_nil _
  have honce : s.TakenOnce := h.unique
  refine ⟨hwf, ?_, ?_, honce.ofStores hfree, h.called_afterWrite (h.called_append hw []), ?_, ?_,
    ?_⟩
  · intro w' call' idx' st rest hw'
    rcases storing_of_ofStores hw' with ⟨rfl, rfl, rfl, -⟩ | ⟨-, hold⟩
    · show (s.memory.slots idx').getStatus ≠ .ready ∧ (s.memory.slots idx').getStatus ≠ .reading
      rcases WritePc.getStatus_of_accepts haccepts with hs | hs <;> simp [hs]
    · exact h.status_ne _ _ _ _ _ hold
  · intro w' call' idx' st rest hw'
    rcases storing_of_ofStores hw' with ⟨rfl, rfl, rfl, hrest⟩ | ⟨-, hold⟩
    · show ((s.memory.slots idx').storeAll (st :: rest)).Contains call'.message
      rw [← hrest, WriteCall.program, Slot.storeAll_append]
      exact (holds_stores _ call').toContains
    · exact h.contains _ _ _ _ _ hold
  · rw [hhist]
    exact h.ready
  · rw [hhist]
    exact h.reader
  · rw [hhist]
    exact h.delivered

/-- A store by `write`. -/
theorem store_step (h : Intact s) {rb : RingBuffer} {w : W} {call : WriteCall}
    {spurious : Bool} {idx : ℕ} {st : Store} {rest : List Store}
    (hw : s.writer w = some (call, .storing idx st rest)) :
    Intact (s.afterWrite w call
      (writeStep rb w call s.memory spurious (.storing idx st rest))) := by
  have hsuffix := h.writing _ _ _ _ _ hw
  obtain ⟨hready, hreading⟩ := h.status_ne _ _ _ _ _ hw
  have hown : (((s.memory.slots idx).store st).storeAll rest).Contains call.message :=
    h.contains _ _ _ _ _ hw
  have hcalled := h.called _ _ _ hw
  have honce : s.TakenOnce := h.unique
  refine ⟨h.toWellFormed.afterWrite hw, ?_, ?_,
    honce.ofStores fun _ _ _ _ hne hold => honce.idx_ne hw hold hne rfl,
    h.called_afterWrite (h.called_append hw _), ?_,
    (h.reader.setSlot hready hreading _).append rfl _, ?_⟩
  · intro w' call' idx' st' rest' hw'
    show (Function.update s.memory.slots idx ((s.memory.slots idx).store st) idx').getStatus ≠ _ ∧
      (Function.update s.memory.slots idx ((s.memory.slots idx).store st) idx').getStatus ≠ _
    rcases storing_of_ofStores hw' with ⟨rfl, rfl, rfl, hrest⟩ | ⟨hne, hold⟩
    · rw [Function.update_self]
      -- A `Ready` store is the last one, and here another is left.
      cases st with
      | status status =>
        rw [Slot.getStatus_store_status]
        rcases program_status hsuffix with ⟨rfl, -⟩ | ⟨rfl, -, -⟩ | ⟨-, hnil⟩
        · simp
        · simp
        · rw [hnil] at hrest
          cases hrest
      | operation | size | id | timestamp | payload => exact ⟨hready, hreading⟩
    · rw [honce.slots_update hw hne hold]
      exact h.status_ne _ _ _ _ _ hold
  · intro w' call' idx' st' rest' hw'
    show ((Function.update s.memory.slots idx ((s.memory.slots idx).store st) idx').storeAll
      (st' :: rest')).Contains call'.message
    rcases storing_of_ofStores hw' with ⟨rfl, rfl, rfl, hrest⟩ | ⟨hne, hold⟩
    · rw [Function.update_self, ← hrest]
      exact hown
    · rw [honce.slots_update hw hne hold]
      exact h.contains _ _ _ _ _ hold
  · intro idx' hidx'
    show ∃ msg, Sent (s.history ++ _) msg ∧ _
    by_cases heq : idx' = idx
    · subst heq
      have hidx' : (Function.update s.memory.slots idx' ((s.memory.slots idx').store st)
        idx').getStatus = .ready := hidx'
      refine ⟨call.message, Sent.append ⟨w, call, hcalled, rfl⟩ _, ?_⟩
      show (Function.update s.memory.slots idx' ((s.memory.slots idx').store st) idx').Contains _
      rw [Function.update_self] at hidx' ⊢
      -- The slot was not `Ready`, so this is the last store.
      obtain rfl : st = .status .ready := by
        cases st with
        | status status =>
          rw [Slot.getStatus_store_status] at hidx'
          rw [hidx']
        | operation | size | id | timestamp | payload => exact absurd hidx' hready
      obtain rfl := (ready_iff_last hsuffix).mp rfl
      exact hown
    · have hsame : (s.afterWrite w call
          (writeStep rb w call s.memory spurious (.storing idx st rest))).memory.slots idx' =
          s.memory.slots idx' := Function.update_of_ne heq _ _
      rw [hsame] at hidx' ⊢
      exact h.ready_append hidx' _
  · refine h.delivered.append fun ev hev delivery hdelivery => ?_
    rcases storeEvents_mem hev with rfl | rfl <;> cases hdelivery

/-- Every unmixed step keeps the messages intact. -/
theorem step (h : Intact s) {rb : RingBuffer} {a : Action W Unit} {s' : System W Unit}
    (hok : s.Unmixed a) (hstep : s.step rb a = some s') : Intact s' := by
  have hwf := h.toWellFormed.step hstep
  rcases step_cases hstep with ⟨w, call, rfl, -, rfl⟩ | ⟨w, spurious, call, pc, rfl, hw, rfl⟩ |
    ⟨⟨⟩, rfl, hr, rfl⟩ | ⟨⟨⟩, spurious, pc, rfl, hr, rfl⟩
  · -- A call of `write` starts.
    refine h.private_step (writeCall_private rb w call s.memory) hwf ?_
    rw [calls_append, calls_writeCall]
    exact List.mem_append_right _ List.mem_cons_self
  · -- A call of `write` stores, takes a slot, or does neither.
    rcases writeStep_cases (R := Unit) rb w call s.memory spurious pc with
      ⟨idx, st, rest, rfl⟩ | ⟨idx, haccepts, he⟩ | ⟨-, hpriv⟩
    · exact h.store_step hw
    · rw [he] at hwf ⊢
      simp only [Unmixed, hw] at hok
      exact h.accept_step hw haccepts (hok idx haccepts) hwf
    · exact h.private_step hpriv hwf (h.called_append hw _)
  · -- A call of `read` starts.
    refine ⟨hwf, h.status_ne, h.contains, h.unique, fun w call pc hw => h.called_append hw _,
      fun idx hready => h.ready_append hready _, trivial, ?_⟩
    refine h.delivered.append fun ev hev delivery hdelivery => ?_
    obtain rfl := List.mem_singleton.mp hev
    cases hdelivery
  · -- A call of `read` takes a step.
    refine h.read_step hr ?_
    rintro idx st rest rfl
    simp only [Unmixed, hr] at hok
    exact hok

end Intact

end System

/-- In a run in which no call of `write` takes a slot that another call has taken, and the reader's
`reset` clears no kind or size that a call has stored, every message that a read returns is that of
a call of `write` that started before. -/
theorem messages_intact {W : Type} [DecidableEq W] {options : RingBufferOptions} {m : RingMemory}
    {rb : RingBuffer} {s : System W Unit} (hc : Created options m rb)
    (hrun : Reaches (System.step rb) System.Unmixed (System.start m) s) :
    OnlySent s.history :=
  (hrun.invariant (System.Intact.start hc) fun _ _ _ h hok hstep => h.step hok hstep).delivered

/-- A call has taken the first slot of a ring of two and not stored to it. Another thread fills the
second slot and the first one, and the kind of its message is read with the payload of the call. -/
theorem messages_intact_fails : ∃ m rb s, Created ⟨448, 128⟩ m rb ∧
    Reaches (System.step rb) Always (System.start m : System Bool Unit) s ∧
    ¬ OnlySent s.history := by
  obtain ⟨m, rb, s, hc, hrun, hdel, hcalls⟩ : ∃ m rb s, Created ⟨448, 128⟩ m rb ∧
      Reaches (System.step rb) Always (System.start m : System Bool Unit) s ∧
      deliveries s.history = [(0, ⟨.diskRead, [1]⟩)] ∧
      ∀ c ∈ calls s.history, c.2.message ≠ ⟨.diskRead, [1]⟩ := by
    refine ⟨_, _, _, ⟨0, Or.inl rfl⟩, Reaches.get_runWhere
      (.callWrite false ⟨.diskWrite, [1], Uuid.nil, 0⟩ ::
        List.replicate 5 (.stepWrite false false) ++
        .callWrite true ⟨.custom, [9], Uuid.nil, 0⟩ :: List.replicate 23 (.stepWrite true false) ++
        .callWrite true ⟨.diskRead, [2], Uuid.nil, 0⟩ ::
        List.replicate 5 (.stepWrite true false) ++ List.replicate 16 (.stepWrite false false) ++
        List.replicate 17 (.stepWrite true false) ++ List.replicate 2 (.stepWrite false false) ++
        .callRead () :: List.replicate 12 (.stepRead () false))
      (by decide +kernel), ?_⟩
    decide +kernel
  refine ⟨m, rb, s, hc, hrun, fun honly => ?_⟩
  obtain ⟨w, call, hmem, hmsg⟩ := honly.sent_of_mem (by rw [hdel]; exact List.mem_singleton_self _)
  exact hcalls _ hmem hmsg

/-- A message is written and read. -/
theorem messages_intact_oneMessage : ∃ m rb s, Created ⟨448, 128⟩ m rb ∧
    Reaches (System.step rb) System.Unmixed (System.start m : System Bool Unit) s ∧
    deliveries s.history = [(0, ⟨.custom, [1]⟩)] ∧ OnlySent s.history := by
  obtain ⟨m, rb, s, hc, hrun, hdel⟩ : ∃ m rb s, Created ⟨448, 128⟩ m rb ∧
      Reaches (System.step rb) System.Unmixed (System.start m : System Bool Unit) s ∧
      deliveries s.history = [(0, ⟨.custom, [1]⟩)] := by
    refine ⟨_, _, _, ⟨0, Or.inl rfl⟩, Reaches.get_runWhere
      (.callWrite false ⟨.custom, [1], Uuid.nil, 0⟩ :: List.replicate 23 (.stepWrite false false) ++
        .callRead () :: List.replicate 12 (.stepRead () false))
      (by decide +kernel), ?_⟩
    decide +kernel
  exact ⟨m, rb, s, hc, hrun, hdel, messages_intact hc hrun⟩

end Elgate.Ring
