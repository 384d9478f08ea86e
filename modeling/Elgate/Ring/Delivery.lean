import Elgate.Foundation.Matching
import Elgate.Ring.Create
import Elgate.Ring.Steps

/-!
# No message is delivered twice

Whatever the threads do, a slot is `Ready` because of a `Ready` store, and a `read` that returns a
message has turned a `Ready` slot into a `Reading` one. Counted for each slot, the reads that have
returned a message from it and the one that is about to are never more than the `Ready` stores to it
(`System.Accounted`), with one reader and any number of writers, even when the writers share a slot
or the reader overtakes them. So each such read can be assigned an earlier `Ready` store to its slot
that no other read is assigned.
-/

namespace Elgate.Ring

open Transition

/-- One if the slot is `Ready`. -/
def SlotStatus.readyCount (status : SlotStatus) : ℕ := if status = .ready then 1 else 0

/-- How many `Ready` stores to the slot `idx` are still of use to the reader: one from the check
that finds the slot `Ready` to the return, and one if the slot is `Ready` again or still is. -/
def credit (status : SlotStatus) (idx : ℕ) : Option ReadPc → ℕ
  | some (.storeReading i _) => if i = idx then 1 else status.readyCount
  | some (.loadSize i _) => (if i = idx then 1 else 0) + status.readyCount
  | some (.copy i _ _) => (if i = idx then 1 else 0) + status.readyCount
  | some (.storeComplete i _ _) => (if i = idx then 1 else 0) + status.readyCount
  | some (.increment i _) => (if i = idx then 1 else 0) + status.readyCount
  | _ => status.readyCount

/-- The credit is largest with a `Ready` slot. -/
theorem credit_le (status : SlotStatus) (idx : ℕ) (pc : Option ReadPc) :
    credit status idx pc ≤ credit .empty idx pc + 1 := by
  have hle : status.readyCount ≤ 1 := by
    unfold SlotStatus.readyCount
    split <;> omega
  unfold credit
  split <;> simp only [SlotStatus.readyCount] at hle ⊢ <;> split <;> simp <;> omega

/-- The credit is smallest with any other slot. -/
theorem credit_of_ne_ready {status status' : SlotStatus} (h : status ≠ .ready) (idx : ℕ)
    (pc : Option ReadPc) : credit status idx pc ≤ credit status' idx pc := by
  have h0 : status.readyCount = 0 := if_neg h
  unfold credit
  split <;> rw [h0] <;> first | omega | (split <;> omega)

/-- A store of anything but `Ready` does not add to the credit. -/
theorem credit_store_of_ne (slot : Slot) {st : Store} (h : st ≠ .status .ready) (idx : ℕ)
    (pc : Option ReadPc) :
    credit (slot.store st).getStatus idx pc ≤ credit slot.getStatus idx pc := by
  cases st with
  | status status =>
    rw [Slot.getStatus_store_status]
    exact credit_of_ne_ready (fun heq => h (by rw [heq])) idx pc
  | operation | size | id | timestamp | payload => exact le_rfl

/-- A store adds to the credit no more than to the `Ready` stores. -/
theorem credit_store {W R : Type} (w : W) (slot : Slot) (st : Store) (idx : ℕ)
    (pc : Option ReadPc) :
    credit (slot.store st).getStatus idx pc ≤ credit slot.getStatus idx pc +
      (readyStores (storeEvents w idx st : List (Event W R))).count idx := by
  by_cases h : st = .status .ready
  · -- The store is recorded, and pays for the credit of the slot that becomes `Ready`.
    subst h
    have h1 := credit_le .ready idx pc
    have h2 : credit .empty idx pc ≤ credit slot.getStatus idx pc :=
      credit_of_ne_ready (by simp) idx pc
    have h3 : (readyStores (storeEvents w idx (.status .ready) : List (Event W R))).count idx = 1 :=
      List.count_singleton_self
    rw [Slot.getStatus_store_status, h3]
    omega
  · exact Nat.le_add_right_of_le (credit_store_of_ne slot h idx pc)

/-- A step of `read` uses the credit: what it delivers and what is left are no more than before. -/
theorem credit_readStep {W : Type} (rb : RingBuffer) (m : RingMemory) (spurious : Bool)
    {pc : ReadPc} (hreset : ∀ i st rest, pc = .resetting i st rest → st ∈ Slot.resetStores)
    (idx : ℕ) :
    let e : Effect W Unit ReadPc := readStep rb () m spurious pc
    ((deliveries e.events).map Prod.fst).count idx +
        credit (e.memory.slots idx).getStatus idx e.pc ≤
      credit (m.slots idx).getStatus idx (some pc) := by
  have hdeliveries := (readStep_events (W := W) rb () m spurious pc).2.1
  simp only [hdeliveries]
  cases pc with
  | loadProducerIdx | loadCurrent | loadOperation | copy =>
    simp [readStep, credit, ReadPc.delivery]
  | loadConsumerIdx | compareExchange | loadSize =>
    simp only [readStep]
    repeat' split
    all_goals simp [credit, ReadPc.delivery]
  | checkReady i =>
    -- Only the second check takes the credit.
    simp only [readStep]
    split <;> simp [credit, ReadPc.delivery, ReadPc.ofStores, Slot.resetStores]
  | recheckReady i kind =>
    simp only [readStep]
    split
    · -- The credit of the `Ready` slot passes to the call that reads it.
      rename_i hready
      by_cases hi : i = idx
      · subst hi
        simp [credit, ReadPc.delivery, SlotStatus.readyCount, hready]
      · simp [credit, ReadPc.delivery, hi]
    · simp [credit, ReadPc.delivery, ReadPc.ofStores, Slot.resetStores]
  | storeReading i kind =>
    by_cases hi : i = idx
    · subst hi
      simp [readStep, credit, ReadPc.delivery, SlotStatus.readyCount]
    · simp [readStep, credit, ReadPc.delivery, hi, Function.update_of_ne (Ne.symm hi)]
  | storeComplete i kind data =>
    by_cases hi : i = idx
    · subst hi
      cases data <;>
        simp [readStep, credit, ReadPc.delivery, SlotStatus.readyCount, ReadPc.ofStores,
          Slot.resetStores]
    · cases data <;>
        simp [readStep, credit, ReadPc.delivery, hi, Function.update_of_ne (Ne.symm hi),
          ReadPc.ofStores, Slot.resetStores]
  | increment i msg =>
    -- The credit of the call is its delivery.
    by_cases hi : i = idx <;> simp [readStep, credit, ReadPc.delivery, hi]
  | resetting i st rest =>
    have hst : st ≠ .status .ready := by
      rintro rfl
      cases status_eq_empty_of_mem_resetStores (hreset i _ rest rfl)
    -- A reset stores no `Ready`.
    have hpc : ∀ status, credit status idx (ReadPc.ofStores i rest) = status.readyCount := by
      intro status
      cases rest <;> rfl
    simp only [readStep, ReadPc.delivery, hpc]
    by_cases hi : i = idx
    · subst hi
      simpa [credit] using credit_store_of_ne (m.slots i) hst i none
    · simp [credit, Function.update_of_ne (Ne.symm hi)]

namespace System

/-- What holds of any system of a created ring with one reader. -/
structure Accounted {W : Type} (s : System W Unit) : Prop extends WellFormed s where
  /-- The deliveries from a slot are paid for by `Ready` stores to it. -/
  count : ∀ idx, ((deliveries s.history).map Prod.fst).count idx +
    credit (s.memory.slots idx).getStatus idx (s.reader ()) ≤ (readyStores s.history).count idx
  /-- Each delivery has an earlier `Ready` store to the same slot of its own. -/
  matching : ∃ f, Matching.Matches Event.readyStore (fun ev => ev.delivery.map Prod.fst) s.history f
  /-- The completed operations are the deliveries. -/
  operationsCompleted :
    s.memory.header.operationsCompleted = (deliveries s.history).length % 2^64
  /-- A call of `write` stores `Ready` once, before it returns `Ok`. -/
  readyStores : (readyStores s.history).length = (okReturns s.history).length

variable {W : Type} {s : System W Unit}

/-- A created ring has nothing to deliver. -/
theorem Accounted.start {options : RingBufferOptions} {m : RingMemory} {rb : RingBuffer}
    (hc : Created options m rb) : Accounted (System.start m : System W Unit) where
  toWellFormed := WellFormed.start m
  count idx := by
    have hstatus := hc.fresh.1.getStatus_eq idx
    simp [System.start, deliveries, hstatus, credit, SlotStatus.readyCount]
  matching := ⟨id, Matching.Matches.nil id⟩
  operationsCompleted := hc.fresh.1.operationsCompleted
  readyStores := rfl

/-- A step of `read`. -/
theorem Accounted.afterRead (h : Accounted s) {rb : RingBuffer} {spurious : Bool} {pc : ReadPc}
    (hr : s.reader () = some pc) :
    Accounted (s.afterRead () (readStep rb () s.memory spurious pc)) := by
  obtain ⟨hof, hdel, hops⟩ := readStep_events (W := W) rb () s.memory spurious pc
  have hreset : ∀ i st rest, pc = .resetting i st rest → st ∈ Slot.resetStores := by
    rintro i st rest rfl
    exact (h.resetting () i st rest hr).subset (List.mem_cons_self)
  refine ⟨h.toWellFormed.afterRead hr, fun idx => ?_, ?_, ?_, ?_⟩
  · -- What the step delivers is paid for with the credit that it uses.
    have hcount := h.count idx
    have hcredit := credit_readStep (W := W) rb s.memory spurious hreset idx
    rw [hr] at hcount
    simp only [System.afterRead, deliveries_append, readyStores_append, hof.readyStores,
      List.append_nil, List.map_append, List.count_append, Function.update_self] at hcredit ⊢
    omega
  · obtain ⟨f, hf⟩ := h.matching
    cases hpc : pc.delivery with
    | none =>
      rw [hpc] at hdel
      have hnone := List.filterMap_eq_nil_iff.mp hdel
      exact ⟨f, hf.append fun ev hev => by simp [hnone ev hev]⟩
    | some delivery =>
      obtain ⟨idx, msg⟩ := delivery
      obtain rfl := ReadPc.delivery_eq_some.mp hpc
      -- The `Ready` store that the reader has found is not assigned to another delivery.
      refine hf.snoc_take (i := idx) rfl ?_
      have hcount := h.count idx
      rw [hr, credit, if_pos rfl, deliveries, List.map_filterMap] at hcount
      exact Nat.lt_of_succ_le (Nat.le_trans (by omega) hcount)
  · -- The counter wraps, and so does the number of deliveries.
    simp only [System.afterRead, deliveries_append, hdel, hops, List.length_append]
    cases pc.delivery with
    | none => exact h.operationsCompleted
    | some delivery =>
      rw [h.operationsCompleted, Nat.mod_add_mod]
      rfl
  · simpa only [System.afterRead, readyStores_append, okReturns_append, hof.readyStores,
      hof.okReturns, List.append_nil] using h.readyStores

variable [DecidableEq W]

/-- A step of `write` that stores nothing. -/
theorem Accounted.private (h : Accounted s) {w : W} {call : WriteCall}
    {e : Effect W Unit WritePc} (he : e.Private s.memory)
    (hwf : WellFormed (s.afterWrite w call e)) : Accounted (s.afterWrite w call e) where
  toWellFormed := hwf
  count idx := by
    have hdel : deliveries e.events = [] := List.filterMap_eq_nil_iff.mpr he.delivery_eq
    simpa [afterWrite, hdel, he.readyStores_eq, he.slots] using h.count idx
  matching := by
    obtain ⟨f, hf⟩ := h.matching
    exact ⟨f, hf.append fun ev hev => by simp [he.delivery_eq ev hev]⟩
  operationsCompleted := by
    have hdel : deliveries e.events = [] := List.filterMap_eq_nil_iff.mpr he.delivery_eq
    simpa [afterWrite, hdel, he.operationsCompleted] using h.operationsCompleted
  readyStores := by
    simpa [afterWrite, he.readyStores_eq, he.okReturns_eq] using h.readyStores

/-- A store by `write`. -/
theorem Accounted.store (h : Accounted s) {rb : RingBuffer} {w : W} {call : WriteCall}
    {spurious : Bool} {idx : ℕ} {st : Store} {rest : List Store}
    (hw : s.writer w = some (call, .storing idx st rest)) :
    Accounted (s.afterWrite w call
      (writeStep rb w call s.memory spurious (.storing idx st rest))) := by
  have hnone : ∀ ev ∈ (storeEvents w idx st ++ returnEvents w call idx rest : List (Event W Unit)),
      ev.delivery = none := by
    intro ev hev
    rcases storeEvents_mem hev with rfl | rfl <;> rfl
  have hdel : deliveries
      (storeEvents w idx st ++ returnEvents w call idx rest : List (Event W Unit)) = [] :=
    List.filterMap_eq_nil_iff.mpr hnone
  refine ⟨h.toWellFormed.afterWrite hw, fun idx' => ?_, ?_, ?_, ?_⟩
  · have hcount := h.count idx'
    simp only [afterWrite, writeStep, deliveries_append s.history, hdel, List.append_nil,
      readyStores_append, List.count_append, RingMemory.setSlot_slots]
    -- A store to another slot makes no difference.
    by_cases hidx : idx' = idx
    · subst hidx
      have hcredit := credit_store (R := Unit) w (s.memory.slots idx') st idx' (s.reader ())
      rw [Function.update_self]
      omega
    · rw [Function.update_of_ne hidx]
      omega
  · obtain ⟨f, hf⟩ := h.matching
    exact ⟨f, hf.append fun ev hev => by simp [hnone ev hev]⟩
  · simpa only [afterWrite, writeStep, deliveries_append s.history, hdel, List.append_nil,
      RingMemory.setSlot_header] using h.operationsCompleted
  · -- The last store is that of `Ready`, with which the call returns.
    have hstore := storeEvents_count (R := Unit) w idx (h.writing _ _ _ _ _ hw)
    simp only [afterWrite, writeStep, readyStores_append s.history, okReturns_append s.history,
      List.length_append, h.readyStores, hstore]

/-- Every step keeps the account. -/
theorem Accounted.step (h : Accounted s) {rb : RingBuffer} {a : Action W Unit}
    {s' : System W Unit} (hstep : s.step rb a = some s') : Accounted s' := by
  have hwf := h.toWellFormed.step hstep
  rcases step_cases hstep with ⟨w, call, rfl, -, rfl⟩ | ⟨w, spurious, call, pc, rfl, hw, rfl⟩ |
    ⟨⟨⟩, rfl, hr, rfl⟩ | ⟨⟨⟩, spurious, pc, rfl, hr, rfl⟩
  · exact h.private (writeCall_private rb w call s.memory) hwf
  · rcases writeStep_cases (R := Unit) rb w call s.memory spurious pc with
      ⟨idx, st, rest, rfl⟩ | ⟨idx, -, he⟩ | ⟨-, hpriv⟩
    · exact h.store hw
    · -- The call has taken a slot, and changes nothing yet.
      rw [he] at hwf ⊢
      exact ⟨hwf, by simpa [afterWrite] using h.count, by simpa [afterWrite] using h.matching,
        by simpa [afterWrite] using h.operationsCompleted,
        by simpa [afterWrite] using h.readyStores⟩
    · exact h.private hpriv hwf
  · -- A call of `read` starts without a slot.
    obtain ⟨f, hf⟩ := h.matching
    have hcount := h.count
    rw [hr] at hcount
    exact ⟨hwf, fun idx => by simpa [System.afterRead, credit] using hcount idx,
      ⟨f, hf.snoc rfl⟩, by simpa [System.afterRead] using h.operationsCompleted,
      by simpa [System.afterRead] using h.readyStores⟩
  · exact h.afterRead hr

end System

/-- With one reader, every delivery can be assigned an earlier `Ready` store to the slot that it is
read from, no two the same. So no more messages are delivered, and no more operations are counted,
than there have been calls of `write` that stored `Ready`. -/
theorem deliveries_matched {W : Type} [DecidableEq W] {options : RingBufferOptions}
    {m : RingMemory} {rb : RingBuffer} {s : System W Unit} (hc : Created options m rb)
    (hrun : Reaches (System.step rb) Always (System.start m) s) :
    (∃ f, Matching.Matches Event.readyStore (fun ev => ev.delivery.map Prod.fst) s.history f) ∧
    (deliveries s.history).length ≤ (readyStores s.history).length ∧
    (readyStores s.history).length = (okReturns s.history).length ∧
    s.memory.header.operationsCompleted ≤ (readyStores s.history).length := by
  have h := hrun.invariant (System.Accounted.start hc) fun _ _ _ h _ hstep => h.step hstep
  have hle : (deliveries s.history).length ≤ (readyStores s.history).length := by
    rw [← List.length_map (f := Prod.fst)]
    refine List.Subperm.length_le (List.subperm_ext_iff.mpr fun idx _ => ?_)
    exact Nat.le_of_add_right_le (h.count idx)
  refine ⟨h.matching, hle, h.readyStores, ?_⟩
  rw [h.operationsCompleted]
  exact Nat.le_trans (Nat.mod_le _ _) hle

/-- Two writers end up in the first slot of a ring of two, both store `Ready`, and a read returns
one message. -/
theorem deliveries_matched_sharedSlot : ∃ m rb s, Created ⟨448, 128⟩ m rb ∧
    Reaches (System.step rb) Always (System.start m : System Bool Unit) s ∧
    readyStores s.history = [1, 0, 0] ∧ (deliveries s.history).length = 1 ∧
    ∃ f, Matching.Matches Event.readyStore (fun ev => ev.delivery.map Prod.fst) s.history f := by
  obtain ⟨m, rb, s, hc, hrun, hready, hdel⟩ : ∃ m rb s, Created ⟨448, 128⟩ m rb ∧
      Reaches (System.step rb) Always (System.start m : System Bool Unit) s ∧
      readyStores s.history = [1, 0, 0] ∧ (deliveries s.history).length = 1 := by
    refine ⟨_, _, _, ⟨0, Or.inl rfl⟩, Reaches.get_runWhere
      (.callWrite false ⟨.custom, [1], Uuid.nil, 0⟩ :: List.replicate 5 (.stepWrite false false) ++
        .callWrite true ⟨.custom, [2], Uuid.nil, 0⟩ :: List.replicate 23 (.stepWrite true false) ++
        .callWrite true ⟨.custom, [3], Uuid.nil, 0⟩ :: List.replicate 23 (.stepWrite true false) ++
        List.replicate 18 (.stepWrite false false) ++
        .callRead () :: List.replicate 12 (.stepRead () false)) (by decide +kernel), ?_⟩
    decide +kernel
  exact ⟨m, rb, s, hc, hrun, hready, hdel, (deliveries_matched hc hrun).1⟩

end Elgate.Ring
