import Mathlib.Data.List.Basic
import Mathlib.Logic.Function.Iterate
import Elgate.Foundation.Threads
import Elgate.Foundation.Transition

/-!
# Compare-exchange loops

Any number of threads that update one shared cell, each by the loop that loads the cell, and
exchanges the value `v` that it knows for `f v` until an exchange succeeds: a call returns the value
that it has exchanged. An exchange fails when the cell contains another value, and may fail
spuriously; it gives the call the value in the cell. The value that a call knows may be old when its
exchange succeeds, for the cell may have left it and come back to it. All the same the successful
exchanges run through `v`, `f v`, `f (f v)` and so on (`Linear.of_reaches`), and each lies within
the call that returns its value.
-/

namespace Exchange

open Threads Transition

/-- The next step of a call. -/
inductive Pc (α : Type*)
  /-- It loads the cell. -/
  | load
  /-- It exchanges the value that it knows. -/
  | exchange (current : α)
  /-- It returns the value that it has exchanged. -/
  | returning (old : α)

/-- What a thread has done. -/
inductive Event (α : Type*)
  /-- It has started a call. -/
  | called
  /-- Its exchange has succeeded. -/
  | exchanged (old : α)
  /-- Its call has returned. -/
  | returned (old : α)

/-- A cell, and the threads that update it. -/
structure State (τ α : Type*) where
  /-- The cell. -/
  cell : α
  /-- The call that a thread is in. -/
  thread : τ → Option (Pc α)
  /-- What the threads have done, the first event first. -/
  history : List (τ × Event α)

/-- A step of a thread. -/
inductive Action (τ : Type*)
  | call (t : τ)
  | step (t : τ) (spurious : Bool)

section
variable {τ α : Type*}

/-- No call is in progress. -/
def start (v : α) : State τ α := ⟨v, fun _ => none, []⟩

variable [DecidableEq τ]

/-- The state after a step of a thread. -/
def State.after (s : State τ α) (t : τ) (cell : α) (pc : Option (Pc α)) (events : List (Event α)) :
    State τ α where
  cell := cell
  thread := Function.update s.thread t pc
  history := s.history ++ events.map (Prod.mk t)

/-- A step that changes nothing. -/
theorem State.after_self (s : State τ α) (t : τ) : s.after t s.cell (s.thread t) [] = s := by
  unfold State.after
  rw [Function.update_eq_self, List.map_nil, List.append_nil]

variable [DecidableEq α]

/-- A step of a call. -/
def stepPc (f : α → α) (s : State τ α) (t : τ) (spurious : Bool) : Pc α → State τ α
  | .load => s.after t s.cell (some (.exchange s.cell)) []
  | .exchange current =>
    if s.cell = current ∧ spurious = false then
      s.after t (f current) (some (.returning current)) [.exchanged current]
    else s.after t s.cell (some (.exchange s.cell)) []
  | .returning old => s.after t s.cell none [.returned old]

/-- A step of the threads: one in no call may start one, and one in a call takes its next step. -/
def step (f : α → α) (s : State τ α) : Action τ → Option (State τ α)
  | .call t =>
    match s.thread t with
    | none => some (s.after t s.cell (some .load) [.called])
    | some _ => none
  | .step t spurious => (s.thread t).map (stepPc f s t spurious)

end

/-- What a step of the threads is. -/
theorem step_cases {τ α : Type*} [DecidableEq τ] [DecidableEq α] {f : α → α} {s s' : State τ α}
    {a : Action τ} (h : step f s a = some s') :
    (∃ t, a = .call t ∧ s.thread t = none ∧ s' = s.after t s.cell (some .load) [.called]) ∨
    ∃ t spurious pc, a = .step t spurious ∧ s.thread t = some pc ∧
      s' = stepPc f s t spurious pc := by
  cases a with
  | call t =>
    unfold step at h
    dsimp only at h
    split at h
    · rename_i hidle
      exact Or.inl ⟨t, rfl, hidle, (Option.some.inj h).symm⟩
    · cases h
  | step t spurious =>
    obtain ⟨pc, hpc, hs'⟩ := Option.map_eq_some_iff.mp h
    exact Or.inr ⟨t, spurious, pc, rfl, hpc, hs'.symm⟩

/-! ## What a history says -/

section
variable {τ α : Type*}

/-- The value of a successful exchange. -/
def Event.old : Event α → Option α
  | .exchanged old => some old
  | _ => none

/-- The successful exchanges, in their order, each with its thread. -/
def exchanges (h : List (τ × Event α)) : List (τ × α) :=
  h.filterMap fun p => p.2.old.map (Prod.mk p.1)

@[simp]
theorem exchanges_append (h h' : List (τ × Event α)) :
    exchanges (h ++ h') = exchanges h ++ exchanges h' := List.filterMap_append

/-- The events of a call that has returned. -/
def callEvents (old : α) : List (Event α) := [.called, .exchanged old, .returned old]

/-- The events of the call that a thread is in. -/
def pendingEvents : Option (Pc α) → List (Event α)
  | none => []
  | some .load | some (.exchange _) => [.called]
  | some (.returning old) => [.called, .exchanged old]

/-- Every call exchanges one value and returns it, and the exchanges run through the iterates of
`f`. -/
structure Linear [DecidableEq τ] (f : α → α) (v : α) (s : State τ α) : Prop where
  /-- An exchange takes up where the one before has left off. -/
  values : (exchanges s.history).map Prod.snd =
    (List.range (exchanges s.history).length).map fun k => f^[k] v
  /-- So will the next one. -/
  cell : s.cell = f^[(exchanges s.history).length] v
  /-- A thread has made its calls one after the other, each with one exchange. -/
  calls : ∀ t, ∃ olds : List α, byThread t s.history =
    (olds.flatMap callEvents ++ pendingEvents (s.thread t)).map (Prod.mk t)

end

section
variable {τ α : Type*} [DecidableEq τ] {f : α → α} {v : α} {s : State τ α}

/-- A step whose events go on from those of the call before it. -/
theorem Linear.calls_after (h : Linear f v s) {t : τ} {cell : α} {pc : Option (Pc α)}
    {events : List (Event α)}
    (hevents : ∃ olds : List α, pendingEvents (s.thread t) ++ events =
      olds.flatMap callEvents ++ pendingEvents pc) (t' : τ) :
    ∃ olds : List α, byThread t' (s.after t cell pc events).history =
      (olds.flatMap callEvents ++ pendingEvents ((s.after t cell pc events).thread t')).map
        (Prod.mk t') := by
  obtain ⟨olds, holds⟩ := h.calls t'
  unfold State.after
  dsimp only
  rw [byThread_append, holds]
  by_cases ht : t' = t
  · obtain ⟨more, hmore⟩ := hevents
    have hown : byThread t' (events.map (Prod.mk t)) = events.map (Prod.mk t') := by
      rw [ht, byThread, List.filter_eq_self]
      simp
    refine ⟨olds ++ more, ?_⟩
    rw [hown, ← List.map_append, ht, List.append_assoc, hmore, Function.update_self,
      List.flatMap_append, List.append_assoc]
  · have hother : byThread t' (events.map (Prod.mk t)) = [] := by
      rw [byThread, List.filter_eq_nil_iff]
      simp [Ne.symm ht]
    refine ⟨olds, ?_⟩
    rw [hother, List.append_nil, Function.update_of_ne ht]

/-- A step without a successful exchange leaves the cell and the exchanges. -/
theorem Linear.after (h : Linear f v s) {t : τ} {pc : Option (Pc α)} {events : List (Event α)}
    (hnone : exchanges (events.map (Prod.mk t)) = [])
    (hevents : ∃ olds : List α, pendingEvents (s.thread t) ++ events =
      olds.flatMap callEvents ++ pendingEvents pc) :
    Linear f v (s.after t s.cell pc events) := by
  have hsame : exchanges (s.after t s.cell pc events).history = exchanges s.history := by
    unfold State.after
    rw [exchanges_append, hnone, List.append_nil]
  exact {
    values := by rw [hsame, h.values]
    cell := by rw [hsame]; exact h.cell
    calls := h.calls_after hevents }

/-- A successful exchange is of the value that the others have led to, however old the call's own
knowledge of it is. -/
theorem Linear.exchange (h : Linear f v s) {t : τ}
    (hpc : s.thread t = some (.exchange s.cell)) :
    Linear f v (s.after t (f s.cell) (some (.returning s.cell)) [.exchanged s.cell]) := by
  have hmore : exchanges (s.after t (f s.cell) (some (.returning s.cell))
      [.exchanged s.cell]).history = exchanges s.history ++ [(t, s.cell)] := exchanges_append _ _
  have hlength : (exchanges s.history ++ [(t, s.cell)]).length =
      (exchanges s.history).length + 1 := List.length_append
  refine ⟨?_, ?_, h.calls_after ⟨[], by rw [hpc]; rfl⟩⟩
  · -- The value exchanged is the one in the cell, where the exchanges before have led to.
    rw [hmore, hlength, List.map_append, h.values, List.range_succ, List.map_append, List.map_cons,
      List.map_cons, ← h.cell]
    rfl
  · rw [hmore, hlength, Function.iterate_succ_apply', ← h.cell]
    rfl

/-- Every step keeps to it. -/
theorem Linear.step [DecidableEq α] (h : Linear f v s) {a : Action τ} {s' : State τ α}
    (hstep : step f s a = some s') : Linear f v s' := by
  rcases step_cases hstep with ⟨t, -, hidle, rfl⟩ | ⟨t, spurious, pc, -, hpc, rfl⟩
  · exact h.after rfl ⟨[], by rw [hidle]; rfl⟩
  · cases pc with
    | load => exact h.after rfl ⟨[], by rw [hpc]; rfl⟩
    | exchange current =>
      unfold stepPc
      dsimp only
      split
      · -- What the call knows is what the cell contains now, and nothing else counts.
        rename_i hcell
        rw [← hcell.1] at hpc ⊢
        exact h.exchange hpc
      · exact h.after rfl ⟨[], by rw [hpc]; rfl⟩
    -- The call is complete, and joins those before it.
    | returning old => exact h.after rfl ⟨[old], by rw [hpc]; rfl⟩

/-- In every run, the exchanges run through the iterates of `f`. -/
theorem Linear.of_reaches [DecidableEq α] (hrun : Reaches (Exchange.step f) Always (start v) s) :
    Linear f v s := by
  have hstart : Linear f v (start v : State τ α) := {
    values := rfl
    cell := rfl
    calls := fun t => ⟨[], rfl⟩ }
  exact hrun.invariant hstart fun _ _ _ ht _ hstep => ht.step hstep

end

end Exchange
