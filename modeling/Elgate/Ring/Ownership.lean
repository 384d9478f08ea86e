import Mathlib.Data.Fintype.Basic
import Elgate.Ring.Create
import Elgate.Ring.Steps

/-!
# One writer in a slot

A call of `write` takes a slot when it finds it `Empty` or `Complete`, and marks it with its
`Writing` store only after it has reset it. Two things can let another call take the slot in the
meantime: the call has not marked the slot yet, or the reader, which resets a slot that is not
`Ready`, has wiped the mark. In a run in which neither happens (`System.Guarded`), no two calls of
`write` are ever in one slot (`slots_exclusive`).
-/

namespace Elgate.Ring

open Transition

namespace System

variable {W R : Type}

/-- The thread is in a call of `write` that has taken the slot and has not marked it yet. -/
def Unmarked (s : System W R) (w : W) (idx : ℕ) : Prop :=
  ∃ stores ∈ s.remaining w idx, .status .writing ∈ stores

/-- The thread is in a call of `write` that has marked the slot and has not stored `Ready` yet. -/
def Marked (s : System W R) (w : W) (idx : ℕ) : Prop :=
  ∃ stores ∈ s.remaining w idx, .status .writing ∉ stores

instance (s : System W R) (w : W) (idx : ℕ) : Decidable (s.Unmarked w idx) := by
  unfold Unmarked
  infer_instance

instance (s : System W R) (w : W) (idx : ℕ) : Decidable (s.Marked w idx) := by
  unfold Marked
  infer_instance

/-- The thread is in a call of `write` that has returned from `wait_for_slot` with the slot and has
not stored `Ready` yet. -/
def InWrite (s : System W R) (w : W) (idx : ℕ) : Prop :=
  match s.writer w with
  | some (call, .storing i st rest) => i = idx ∧ st :: rest <:+ call.stores
  | _ => False

/-- Such a call stores to the slot next. -/
theorem InWrite.storing {s : System W R} {w : W} {idx : ℕ} (h : s.InWrite w idx) :
    ∃ call st rest, s.writer w = some (call, .storing idx st rest) := by
  unfold InWrite at h
  split at h
  · rename_i call i st rest hw
    obtain ⟨rfl, -⟩ := h
    exact ⟨call, st, rest, hw⟩
  · exact h.elim

instance (s : System W R) (w : W) (idx : ℕ) : Decidable (s.InWrite w idx) := by
  unfold InWrite
  split <;> infer_instance

/-- The step takes no slot that another call has taken and not marked, and it is not the reset of a
marked slot. -/
def Guarded (s : System W Unit) : Action W Unit → Prop
  | .stepWrite w _ =>
    match s.writer w with
    | some (_, pc) => ∀ idx ∈ pc.accepts s.memory, ∀ w', w' ≠ w → ¬ s.Unmarked w' idx
    | none => True
  | .stepRead _ _ =>
    match s.reader () with
    | some (.resetting idx (.status _) _) => ∀ w, ¬ s.Marked w idx
    | _ => True
  | _ => True

instance [Fintype W] [DecidableEq W] (s : System W Unit) (a : Action W Unit) :
    Decidable (s.Guarded a) := by
  unfold Guarded
  match a with
  | .stepWrite w _ =>
    dsimp only
    match s.writer w with
    | some (_, pc) =>
      exact inferInstanceAs
        (Decidable (∀ idx ∈ pc.accepts s.memory, ∀ w', w' ≠ w → ¬ s.Unmarked w' idx))
    | none => exact isTrue trivial
  | .stepRead _ _ =>
    dsimp only
    match s.reader () with
    | some (.resetting idx (.status _) _) =>
      exact inferInstanceAs (Decidable (∀ w, ¬ s.Marked w idx))
    | none | some .loadProducerIdx | some (.loadConsumerIdx _) | some .loadCurrent
    | some (.compareExchange _) | some (.checkReady _) | some (.loadOperation _)
    | some (.recheckReady _ _) | some (.storeReading _ _) | some (.loadSize _ _)
    | some (.copy _ _ _) | some (.storeComplete _ _ _) | some (.increment _ _)
    | some (.resetting _ (.operation _) _) | some (.resetting _ (.size _) _)
    | some (.resetting _ (.id _ _) _) | some (.resetting _ (.timestamp _) _)
    | some (.resetting _ (.payload _) _) => exact isTrue trivial
  | .callWrite .. | .callRead .. => exact isTrue trivial

/-- What the reader relies on: the slot that it is about to take is `Ready`, and the slot that it
has taken is `Reading`. -/
def ReaderOk (m : RingMemory) : Option ReadPc → Prop
  | some (.storeReading idx _) => (m.slots idx).getStatus = .ready
  | some (.loadSize idx _) => (m.slots idx).getStatus = .reading
  | some (.copy idx _ _) => (m.slots idx).getStatus = .reading
  | some (.storeComplete idx _ _) => (m.slots idx).getStatus = .reading
  | _ => True

/-- What holds of a system whose steps are all guarded. -/
structure Exclusive (s : System W Unit) : Prop extends WellFormed s where
  /-- A slot that is taken and not marked is available. -/
  unmarked : ∀ w call idx st rest, s.writer w = some (call, .storing idx st rest) →
    .status .writing ∈ st :: rest →
      (s.memory.slots idx).getStatus = .empty ∨ (s.memory.slots idx).getStatus = .complete
  /-- A slot that is marked is `Writing`. -/
  marked : ∀ w call idx st rest, s.writer w = some (call, .storing idx st rest) →
    .status .writing ∉ st :: rest → (s.memory.slots idx).getStatus = .writing
  /-- A slot is taken by one call. -/
  unique : ∀ w w' call call' idx st st' rest rest',
    s.writer w = some (call, .storing idx st rest) →
    s.writer w' = some (call', .storing idx st' rest') → w = w'
  /-- The reader's slot is not taken. -/
  reader : ReaderOk s.memory (s.reader ())

/-! ## The reader -/

/-- A change to a slot that the reader is not in. -/
theorem ReaderOk.setSlot {m : RingMemory} {pc : Option ReadPc} (h : ReaderOk m pc) {idx : ℕ}
    (hready : (m.slots idx).getStatus ≠ .ready) (hreading : (m.slots idx).getStatus ≠ .reading)
    (slot : Slot) : ReaderOk (m.setSlot idx slot) pc := by
  have hne : ∀ {i : ℕ} {status : SlotStatus}, (m.slots i).getStatus = status →
      (m.slots idx).getStatus ≠ status → ((m.setSlot idx slot).slots i).getStatus = status := by
    intro i status hi hidx
    have hi' : i ≠ idx := fun heq => hidx (heq ▸ hi)
    rw [RingMemory.setSlot_slots, Function.update_of_ne hi', hi]
  cases pc with
  | none => trivial
  | some pc =>
    cases pc with
    | storeReading => exact hne h hready
    | loadSize | copy | storeComplete => exact hne h hreading
    | _ => trivial

/-- A change to the header. -/
theorem ReaderOk.of_slots_eq {m m' : RingMemory} {pc : Option ReadPc} (h : ReaderOk m pc)
    (hm : m'.slots = m.slots) : ReaderOk m' pc := by
  unfold ReaderOk at h ⊢
  rw [hm]
  exact h

/-- A step of the reader. -/
theorem ReaderOk.readStep (rb : RingBuffer) {m : RingMemory} (spurious : Bool) {pc : ReadPc}
    (h : ReaderOk m (some pc)) :
    ReaderOk (readStep rb () m spurious pc : Effect W Unit ReadPc).memory
      (readStep rb () m spurious pc : Effect W Unit ReadPc).pc := by
  cases pc with
  | loadProducerIdx | loadCurrent | loadOperation | increment => trivial
  | copy => exact h
  | loadConsumerIdx =>
    simp only [Ring.readStep]
    split <;> trivial
  | compareExchange current =>
    simp only [Ring.readStep]
    repeat' split
    all_goals trivial
  | checkReady idx =>
    simp only [Ring.readStep]
    split <;> trivial
  | recheckReady idx kind =>
    simp only [Ring.readStep]
    split
    · assumption
    · trivial
  | storeReading idx kind => simp [Ring.readStep, ReaderOk]
  | loadSize idx kind =>
    simp only [Ring.readStep]
    split <;> exact h
  | storeComplete idx kind data => cases data <;> trivial
  | resetting idx st rest => cases rest <;> trivial

/-! ## The invariant -/

namespace Exclusive

variable {s : System W Unit}

/-- Nothing is taken at the start. -/
theorem start (m : RingMemory) : Exclusive (System.start m : System W Unit) where
  toWellFormed := WellFormed.start m
  unmarked _ _ _ _ _ h := by simp [System.start] at h
  marked _ _ _ _ _ h := by simp [System.start] at h
  unique _ _ _ _ _ _ _ _ _ h := by simp [System.start] at h
  reader := trivial

/-- A slot that is taken is not the reader's. -/
theorem status_ne (h : Exclusive s) {w : W} {call : WriteCall} {idx : ℕ} {st : Store}
    {rest : List Store} (hw : s.writer w = some (call, .storing idx st rest)) :
    (s.memory.slots idx).getStatus ≠ .ready ∧ (s.memory.slots idx).getStatus ≠ .reading := by
  by_cases hmark : .status .writing ∈ st :: rest
  · rcases h.unmarked _ _ _ _ _ hw hmark with hs | hs <;> simp [hs]
  · simp [h.marked _ _ _ _ _ hw hmark]

/-- A step of `read` that does not reset a marked slot. -/
theorem read_step (h : Exclusive s) {rb : RingBuffer} {spurious : Bool} {pc : ReadPc}
    (hr : s.reader () = some pc)
    (hguard : ∀ idx status rest, pc = .resetting idx (.status status) rest →
      ∀ w, ¬ s.Marked w idx) :
    Exclusive (s.afterRead () (readStep rb () s.memory spurious pc)) := by
  have hslots := readStep_slots (W := W) rb () s.memory spurious pc
  have hreader := h.reader
  rw [hr] at hreader
  have hreader' := hreader.readStep (W := W) rb spurious
  rw [← Function.update_self () (readStep rb () s.memory spurious pc : Effect W Unit ReadPc).pc
    s.reader] at hreader'
  -- The status of a slot that is taken does not change, unless to `Empty` before it is marked.
  have hstatus : ∀ w call idx st rest, s.writer w = some (call, .storing idx st rest) →
      ((readStep rb () s.memory spurious pc : Effect W Unit ReadPc).memory.slots idx).getStatus =
        (s.memory.slots idx).getStatus ∨
      (((readStep rb () s.memory spurious pc : Effect W Unit ReadPc).memory.slots idx).getStatus =
        .empty ∧ .status .writing ∈ st :: rest) := by
    intro w call idx st rest hw
    obtain ⟨hready, hreading⟩ := h.status_ne hw
    rw [hslots]
    cases hstore : pc.store with
    | none => exact Or.inl rfl
    | some store =>
      obtain ⟨i, st'⟩ := store
      rw [Option.elim_some]
      by_cases hi : idx = i
      · subst hi
        rw [Function.update_self]
        -- A slot that the reader marks is its own, so this is a store of `reset`.
        rcases ReadPc.store_eq_some hstore with ⟨kind, rfl, -⟩ | ⟨kind, data, rfl, -⟩ |
          ⟨rest', rfl⟩
        · exact absurd hreader hready
        · exact absurd hreader hreading
        · cases st' with
          | status status =>
            have hempty := status_eq_empty_of_mem_resetStores
              ((h.resetting () _ _ _ hr).subset List.mem_cons_self)
            by_cases hmark : .status .writing ∈ st :: rest
            · exact Or.inr ⟨by rw [Slot.getStatus_store_status, hempty], hmark⟩
            · exact absurd ⟨_, remaining_eq hw, hmark⟩ (hguard _ _ _ rfl w)
          | operation | size | id | timestamp | payload => exact Or.inl rfl
      · exact Or.inl (by rw [Function.update_of_ne hi])
  refine ⟨h.toWellFormed.afterRead hr, ?_, ?_, h.unique, hreader'⟩
  · intro w call idx st rest hw hmark
    rcases hstatus w call idx st rest hw with hs | ⟨hs, -⟩
    · exact (h.unmarked _ _ _ _ _ hw hmark).imp hs.trans hs.trans
    · exact Or.inl hs
  · intro w call idx st rest hw hmark
    rcases hstatus w call idx st rest hw with hs | ⟨-, hmem⟩
    · exact hs.trans (h.marked _ _ _ _ _ hw hmark)
    · exact absurd hmem hmark

variable [DecidableEq W]

/-- A step that is private to a call of `write`. -/
theorem private_step (h : Exclusive s) {w : W} {call : WriteCall} {e : Effect W Unit WritePc}
    (he : e.Private s.memory) (hwf : WellFormed (s.afterWrite w call e)) :
    Exclusive (s.afterWrite w call e) where
  toWellFormed := hwf
  unmarked w' call' idx st rest hw' := by
    show _ → (e.memory.slots idx).getStatus = .empty ∨ (e.memory.slots idx).getStatus = .complete
    rw [he.slots]
    exact h.unmarked _ _ _ _ _ (storing_of_private he hw').2
  marked w' call' idx st rest hw' := by
    show _ → (e.memory.slots idx).getStatus = .writing
    rw [he.slots]
    exact h.marked _ _ _ _ _ (storing_of_private he hw').2
  unique := TakenOnce.of_private h.unique he
  reader := h.reader.of_slots_eq he.slots

/-- A check that takes a slot that no other call has taken and not marked. -/
theorem accept_step (h : Exclusive s) {w : W} {call : WriteCall} {pc : WritePc} {idx : ℕ}
    (haccepts : pc.accepts s.memory = some idx) (hguard : ∀ w', w' ≠ w → ¬ s.Unmarked w' idx)
    (hwf : WellFormed (s.afterWrite w call ⟨s.memory, WritePc.ofStores idx call.program, []⟩)) :
    Exclusive (s.afterWrite w call ⟨s.memory, WritePc.ofStores idx call.program, []⟩) := by
  have hstatus := WritePc.getStatus_of_accepts haccepts
  -- Another call in the slot has not marked it, by its status, and is excluded by the guard.
  have hfree : ∀ w' call' st rest, w' ≠ w →
      s.writer w' ≠ some (call', .storing idx st rest) := by
    intro w' call' st rest hne hw'
    by_cases hmark : .status .writing ∈ st :: rest
    · exact hguard w' hne ⟨_, remaining_eq hw', hmark⟩
    · have hwriting := h.marked _ _ _ _ _ hw' hmark
      rw [hwriting] at hstatus
      simp at hstatus
  have honce : s.TakenOnce := h.unique
  refine ⟨hwf, ?_, ?_, honce.ofStores hfree, h.reader⟩
  · intro w' call' idx' st rest hw' hmark
    rcases storing_of_ofStores hw' with ⟨rfl, rfl, rfl, -⟩ | ⟨-, hold⟩
    · exact hstatus
    · exact h.unmarked _ _ _ _ _ hold hmark
  · intro w' call' idx' st rest hw' hmark
    rcases storing_of_ofStores hw' with ⟨rfl, rfl, rfl, hrest⟩ | ⟨-, hold⟩
    · -- All the stores of the call are left, that of `Writing` among them.
      rw [← hrest] at hmark
      exact absurd (writing_mem_program call') hmark
    · exact h.marked _ _ _ _ _ hold hmark

/-- A store by `write`. -/
theorem store_step (h : Exclusive s) {rb : RingBuffer} {w : W} {call : WriteCall}
    {spurious : Bool} {idx : ℕ} {st : Store} {rest : List Store}
    (hw : s.writer w = some (call, .storing idx st rest)) :
    Exclusive (s.afterWrite w call
      (writeStep rb w call s.memory spurious (.storing idx st rest))) := by
  have hsuffix := h.writing _ _ _ _ _ hw
  obtain ⟨hready, hreading⟩ := h.status_ne hw
  have honce : s.TakenOnce := h.unique
  refine ⟨h.toWellFormed.afterWrite hw, ?_, ?_,
    honce.ofStores fun _ _ _ _ hne hold => honce.idx_ne hw hold hne rfl,
    h.reader.setSlot hready hreading _⟩
  · intro w' call' idx' st' rest' hw' hmark
    show (Function.update s.memory.slots idx ((s.memory.slots idx).store st) idx').getStatus = _ ∨
      (Function.update s.memory.slots idx ((s.memory.slots idx).store st) idx').getStatus = _
    rcases storing_of_ofStores hw' with ⟨rfl, rfl, rfl, hrest⟩ | ⟨hne, hold⟩
    · rw [Function.update_self]
      rw [← hrest] at hmark
      cases st with
      | status status =>
        rw [Slot.getStatus_store_status]
        -- The `Writing` store is still to come, so this one is that of `Empty`.
        rcases program_status hsuffix with ⟨rfl, -⟩ | ⟨-, hnot, -⟩ | ⟨-, hnil⟩
        · exact Or.inl rfl
        · exact absurd hmark hnot
        · rw [hnil] at hmark
          cases hmark
      | operation | size | id | timestamp | payload =>
        exact h.unmarked _ _ _ _ _ hw (List.mem_cons_of_mem _ hmark)
    · rw [honce.slots_update hw hne hold]
      exact h.unmarked _ _ _ _ _ hold hmark
  · intro w' call' idx' st' rest' hw' hmark
    show (Function.update s.memory.slots idx ((s.memory.slots idx).store st) idx').getStatus = _
    rcases storing_of_ofStores hw' with ⟨rfl, rfl, rfl, hrest⟩ | ⟨hne, hold⟩
    · rw [Function.update_self]
      rw [← hrest] at hmark
      cases st with
      | status status =>
        rw [Slot.getStatus_store_status]
        -- The `Writing` store is this one: none is left, and `Ready` is the last.
        rcases program_status hsuffix with ⟨-, hmem⟩ | ⟨rfl, -, -⟩ | ⟨-, hnil⟩
        · exact absurd hmem hmark
        · rfl
        · rw [hnil] at hrest
          cases hrest
      | operation | size | id | timestamp | payload =>
        refine h.marked _ _ _ _ _ hw fun hmem => hmark ?_
        exact (List.mem_cons.mp hmem).resolve_left (by simp)
    · rw [honce.slots_update hw hne hold]
      exact h.marked _ _ _ _ _ hold hmark

/-- Every guarded step keeps the slots exclusive. -/
theorem step (h : Exclusive s) {rb : RingBuffer} {a : Action W Unit} {s' : System W Unit}
    (hok : s.Guarded a) (hstep : s.step rb a = some s') : Exclusive s' := by
  have hwf := h.toWellFormed.step hstep
  rcases step_cases hstep with ⟨w, call, rfl, -, rfl⟩ | ⟨w, spurious, call, pc, rfl, hw, rfl⟩ |
    ⟨⟨⟩, rfl, hr, rfl⟩ | ⟨⟨⟩, spurious, pc, rfl, hr, rfl⟩
  · exact h.private_step (writeCall_private rb w call s.memory) hwf
  · rcases writeStep_cases (R := Unit) rb w call s.memory spurious pc with
      ⟨idx, st, rest, rfl⟩ | ⟨idx, haccepts, he⟩ | ⟨-, hpriv⟩
    · exact h.store_step hw
    · rw [he] at hwf ⊢
      simp only [Guarded, hw] at hok
      exact h.accept_step haccepts (hok idx haccepts) hwf
    · exact h.private_step hpriv hwf
  · exact ⟨hwf, h.unmarked, h.marked, h.unique, trivial⟩
  · refine h.read_step hr ?_
    rintro idx status rest rfl
    simp only [Guarded, hr] at hok
    exact hok

end Exclusive

end System

/-- In a run in which no slot is taken that another call has taken and not marked yet, and in which
the reader resets no slot that is marked, no two calls of `write` that have returned from
`wait_for_slot` with one slot are before their `Ready` store. -/
theorem slots_exclusive {W : Type} [DecidableEq W] {rb : RingBuffer} {m : RingMemory}
    {s : System W Unit} (hrun : Reaches (System.step rb) System.Guarded (System.start m) s) :
    ∀ w w' idx, s.InWrite w idx → s.InWrite w' idx → w = w' := by
  intro w w' idx h h'
  obtain ⟨call, st, rest, hw⟩ := h.storing
  obtain ⟨call', st', rest', hw'⟩ := h'.storing
  have hinv := hrun.invariant (System.Exclusive.start m) fun _ _ _ h hok hstep => h.step hok hstep
  exact hinv.unique _ _ _ _ _ _ _ _ _ hw hw'

/-- A call of `write` has taken the first slot of a ring of two and not marked it. Another thread
writes to the second slot, goes round the ring, and takes the first slot as well. -/
theorem slots_exclusive_fails : ∃ m rb s, Created ⟨448, 128⟩ m rb ∧
    Reaches (System.step rb) Always (System.start m : System Bool Unit) s ∧
    s.InWrite false 0 ∧ s.InWrite true 0 := by
  refine ⟨_, _, _, ⟨0, Or.inl rfl⟩, Reaches.get_runWhere
    (.callWrite false ⟨.custom, [1], Uuid.nil, 0⟩ :: List.replicate 13 (.stepWrite false false) ++
      .callWrite true ⟨.custom, [2], Uuid.nil, 0⟩ :: List.replicate 23 (.stepWrite true false) ++
      .callWrite true ⟨.custom, [3], Uuid.nil, 0⟩ :: List.replicate 13 (.stepWrite true false))
    (by decide +kernel), ?_⟩
  decide +kernel

/-- Two threads write to the two slots of a ring at the same time. -/
theorem slots_exclusive_twoSlots : ∃ m rb s, Created ⟨448, 128⟩ m rb ∧
    Reaches (System.step rb) System.Guarded (System.start m : System Bool Unit) s ∧
    s.InWrite false 0 ∧ s.InWrite true 1 ∧
    ∀ w w' idx, s.InWrite w idx → s.InWrite w' idx → w = w' := by
  obtain ⟨m, rb, s, hc, hrun, hfalse, htrue⟩ : ∃ m rb s, Created ⟨448, 128⟩ m rb ∧
      Reaches (System.step rb) System.Guarded (System.start m : System Bool Unit) s ∧
      s.InWrite false 0 ∧ s.InWrite true 1 := by
    refine ⟨_, _, _, ⟨0, Or.inl rfl⟩, Reaches.get_runWhere
      (.callWrite false ⟨.custom, [1], Uuid.nil, 0⟩ :: List.replicate 13 (.stepWrite false false) ++
        .callWrite true ⟨.custom, [2], Uuid.nil, 0⟩ :: List.replicate 13 (.stepWrite true false))
      (by decide +kernel), ?_⟩
    decide +kernel
  exact ⟨m, rb, s, hc, hrun, hfalse, htrue, slots_exclusive hrun⟩

end Elgate.Ring
