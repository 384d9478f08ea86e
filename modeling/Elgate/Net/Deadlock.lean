import Mathlib.Data.Fintype.Basic
import Elgate.Net.Tasks

/-!
# Deadlock on the table of connections

`read` and `write` keep the guard of the table while they wait for the kernel. A task that is given
the thread meanwhile and comes to a `lock()` blocks the thread, and then nobody can release the
guard (`System.Deadlocked.stuck`). Runs in which no call comes to a `lock()` while a transfer is
awaited never get there (`never_deadlocked`), and every other step does at once
(`System.Sane.deadlocked`).
-/

namespace Elgate.Net

open Transition

variable {T Addr : Type}

/-- The task with the thread is at a `lock()`, and a task that is suspended has the guard. -/
def System.Deadlocked (s : System T Addr) : Prop :=
  ∃ t t' pc pc', s.running = some t ∧ s.pc t = some pc ∧ pc.AtLock ∧ s.guard = some t' ∧ t' ≠ t ∧
    s.pc t' = some pc' ∧ pc'.AtAwait

/-- Nobody waits for a transfer. -/
def System.NoTransfer (s : System T Addr) : Prop := ∀ t, ∀ pc ∈ s.pc t, ¬ pc.IsTransferring

instance [Fintype T] (s : System T Addr) : Decidable s.NoTransfer :=
  inferInstanceAs (Decidable (∀ _, ∀ _ ∈ _, ¬ _))

/-- An action from which a call comes to its first `lock()`: a call of `read`, `write`, or `close`,
or the completion of a connection. -/
def Action.ComesToLock : Action T Addr → Prop
  | call (.read _) | call (.write _ _) | call (.close _) => True
  | complete (.connect (.ok _)) | complete (.accept (.ok _)) => True
  | _ => False

instance (a : Action T Addr) : Decidable a.ComesToLock := by
  unfold Action.ComesToLock
  split <;> infer_instance

/-- No call comes to a `lock()` while a transfer is awaited. -/
def Action.WaitsForTransfers (s : System T Addr) (a : Action T Addr) : Prop :=
  a.ComesToLock → s.NoTransfer

instance [Fintype T] (s : System T Addr) (a : Action T Addr) : Decidable (a.WaitsForTransfers s) :=
  inferInstanceAs (Decidable (_ → _))

/-! ## What a step does with the guard -/

/-- The task has the guard. -/
def HasGuard (pc : Option (Pc Addr)) : Prop := ∃ p ∈ pc, p.HasGuard

/-- The task is at a `lock()`. -/
def AtLock (pc : Option (Pc Addr)) : Prop := ∃ p ∈ pc, p.AtLock

/-- A step takes the guard when it is free, gives it back, or leaves it. -/
inductive GuardStep (t : T) (guard : Option T) (pc : Option (Pc Addr)) (a : After T Addr) : Prop
  /-- It takes the guard. -/
  | takes (hfree : guard = none) (hguard : a.guard = some t) (hafter : HasGuard a.pc)
  /-- It gives the guard back. -/
  | gives (hbefore : HasGuard pc) (hguard : a.guard = none) (hafter : ¬ HasGuard a.pc)
  /-- It leaves the guard. -/
  | leaves (hguard : a.guard = guard) (hpc : HasGuard a.pc ↔ HasGuard pc)

section
variable {t : T} {guard : Option T} {engine : Engine Addr} {a : After T Addr} {pc : Pc Addr}

@[simp]
theorem hasGuard_none : ¬ HasGuard (none : Option (Pc Addr)) := by
  rintro ⟨p, ⟨⟩, -⟩

@[simp]
theorem hasGuard_some : HasGuard (some pc) ↔ pc.HasGuard := by
  constructor
  · rintro ⟨p, ⟨⟩, h⟩
    exact h
  · exact fun h => ⟨pc, rfl, h⟩

@[simp]
theorem atLock_none : ¬ AtLock (none : Option (Pc Addr)) := by
  rintro ⟨p, ⟨⟩, -⟩

@[simp]
theorem atLock_some : AtLock (some pc) ↔ pc.AtLock := by
  constructor
  · rintro ⟨p, ⟨⟩, h⟩
    exact h
  · exact fun h => ⟨pc, rfl, h⟩

/-- A task at a `lock()` is not at an `.await`. -/
theorem not_atAwait_of_atLock (h : pc.AtLock) : ¬ pc.AtAwait := by
  cases pc with
  | lockInsert | lockSearch | lockStream => exact id
  | connecting | accepting | inserting | searching | looking | transferring => cases h

/-- The start of a call leaves the guard. It comes to a `lock()` when the call searches the table.
-/
theorem startCall_spec {call : EngineCall Addr} (h : startCall engine guard call = some a) :
    a.guard = guard ∧ ¬ HasGuard a.pc ∧
      (AtLock a.pc ↔ (Action.call call : Action T Addr).ComesToLock) := by
  unfold startCall at h
  cases call with
  | connect addr =>
    obtain rfl := Option.some.inj h
    simp [Pc.HasGuard, Pc.AtLock, Action.ComesToLock]
  | accept listenerFd localAddr bound =>
    cases localAddr with
    | error e =>
      obtain rfl := Option.some.inj h
      simp [Action.ComesToLock]
    | ok addr =>
      cases bound with
      | error e =>
        obtain rfl := Option.some.inj h
        simp [Action.ComesToLock]
      | ok listener =>
        simp only at h
        split at h
        · obtain rfl := Option.some.inj h
          simp [Pc.HasGuard, Pc.AtLock, Action.ComesToLock]
        · cases h
  | read | write | close =>
    obtain rfl := Option.some.inj h
    simp [Pc.HasGuard, Pc.AtLock, Action.ComesToLock]

/-- A call that goes on from an `.await` gives the guard back after a transfer. It comes to a
`lock()` with a new connection. -/
theorem completeCall_spec [ToString Addr] {bufferSize : ℕ} {completion : Completion Addr}
    (h : completeCall bufferSize engine guard pc completion = some a) :
    GuardStep t guard (some pc) a ∧
      (AtLock a.pc ↔ (Action.complete completion : Action T Addr).ComesToLock) ∧
      (AtLock a.pc → a.guard = guard ∧ ¬ pc.IsTransferring) := by
  unfold completeCall at h
  split at h
  · -- A connection is made.
    split at h
    · obtain rfl := Option.some.inj h
      exact ⟨.leaves rfl (by simp [Pc.HasGuard]), by simp [Action.ComesToLock], by simp⟩
    · split at h
      · obtain rfl := Option.some.inj h
        exact ⟨.leaves rfl (by simp [Pc.HasGuard]), by simp [Pc.AtLock, Action.ComesToLock],
          by simp [Pc.IsTransferring]⟩
      · cases h
  · -- A connection is accepted.
    split at h
    · obtain rfl := Option.some.inj h
      exact ⟨.leaves rfl (by simp [Pc.HasGuard]), by simp [Action.ComesToLock], by simp⟩
    · split at h
      · obtain rfl := Option.some.inj h
        exact ⟨.leaves rfl (by simp [Pc.HasGuard]), by simp [Pc.AtLock, Action.ComesToLock],
          by simp [Pc.IsTransferring]⟩
      · cases h
  · -- A read ends.
    split at h <;>
    · obtain rfl := Option.some.inj h
      exact ⟨.gives (by simp [Pc.HasGuard]) rfl (by simp), by simp [Action.ComesToLock], by simp⟩
  · -- A write ends.
    split at h <;>
    · obtain rfl := Option.some.inj h
      exact ⟨.gives (by simp [Pc.HasGuard]) rfl (by simp), by simp [Action.ComesToLock], by simp⟩
  · cases h

/-- A step at a `lock()` takes the guard, and one with the guard gives it back or goes on to a
transfer. -/
theorem stepCall_spec [ToString Addr] [DecidableEq Addr] [DecidableEq T]
    {order : List (Sigma fun _ : Addr => RawFd)} (h : stepCall t engine guard order pc = some a) :
    GuardStep t guard (some pc) a ∧ (AtLock a.pc → pc.HasGuard) := by
  -- The three places at a `lock()`.
  have htakes : ∀ next : Pc Addr, next.HasGuard → ¬ next.AtLock →
      (if guard = none then some ⟨engine, some t, some next, none⟩ else none) = some a →
      GuardStep t guard (some pc) a ∧ (AtLock a.pc → pc.HasGuard) := by
    intro next hnext hlock h
    split at h
    · rename_i hfree
      obtain rfl := Option.some.inj h
      exact ⟨.takes hfree rfl (hasGuard_some.mpr hnext), fun h => absurd (atLock_some.mp h) hlock⟩
    · cases h
  unfold stepCall at h
  cases pc with
  | connecting | accepting | transferring => cases h
  | lockInsert insertion => exact htakes (.inserting insertion) trivial id h
  | lockSearch search => exact htakes (.searching search) trivial id h
  | lockStream search addr => exact htakes (.looking search addr) trivial id h
  | inserting insertion =>
    cases insertion with
    | connect addr fd =>
      obtain rfl := Option.some.inj h
      exact ⟨.gives (hasGuard_some.mpr trivial) rfl hasGuard_none, fun _ => trivial⟩
    | accept listenerFd listener fd addr =>
      obtain rfl := Option.some.inj h
      exact ⟨.gives (hasGuard_some.mpr trivial) rfl hasGuard_none, fun _ => trivial⟩
  | searching search =>
    dsimp only at h
    split at h
    · split at h
      · obtain rfl := Option.some.inj h
        exact ⟨.gives (hasGuard_some.mpr trivial) rfl hasGuard_none, fun _ => trivial⟩
      · obtain rfl := Option.some.inj h
        exact ⟨.gives (hasGuard_some.mpr trivial) rfl (by simp [Pc.HasGuard]), fun _ => trivial⟩
    · cases h
  | looking search addr =>
    cases search with
    | transfer fd transfer =>
      dsimp only at h
      split at h
      · obtain rfl := Option.some.inj h
        exact ⟨.gives (hasGuard_some.mpr trivial) rfl hasGuard_none, fun _ => trivial⟩
      · obtain rfl := Option.some.inj h
        exact ⟨.leaves rfl (by simp [Pc.HasGuard]), fun _ => trivial⟩
    | close fd =>
      obtain rfl := Option.some.inj h
      exact ⟨.gives (hasGuard_some.mpr trivial) rfl hasGuard_none, fun _ => trivial⟩

end

/-! ## Invariants -/

section
variable {s : System T Addr}

/-- What holds in every run: the guard is with the task that has it, and a task that is not at an
`.await` has the thread. -/
structure System.Sane (s : System T Addr) : Prop where
  /-- The guard is with the task that has it. -/
  guard : ∀ t, s.guard = some t ↔ HasGuard (s.pc t)
  /-- A task that is not at an `.await` has the thread. -/
  thread : ∀ t, ∀ pc ∈ s.pc t, ¬ pc.AtAwait → s.running = some t

/-- What holds in runs that wait for transfers: no task waits for one when another is at a
`lock()`. -/
structure System.Patient (s : System T Addr) : Prop extends System.Sane s where
  /-- No task waits for a transfer when another is at a `lock()`. -/
  lock : ∀ t, AtLock (s.pc t) → s.NoTransfer

/-- A system with the thread at a `lock()` that waits for transfers is not deadlocked. -/
theorem System.Patient.not_deadlocked (h : s.Patient) : ¬ s.Deadlocked := by
  rintro ⟨t, t', pc, pc', hrunning, hpc, hat, hguard, hne, hpc', hawait⟩
  obtain ⟨p, hp, hhas⟩ := (h.guard t').mp hguard
  obtain rfl := Option.some.inj (hp.symm.trans hpc')
  exact h.lock t ⟨pc, hpc, hat⟩ t' p hp (Pc.isTransferring_iff.mpr ⟨hhas, hawait⟩)

/-- No task is anywhere when nothing has happened. -/
theorem patient_start (sockets : Sockets) : (System.start sockets : System T Addr).Patient where
  guard := fun t => iff_of_false (Option.some_ne_none t).symm hasGuard_none
  thread := by rintro t pc ⟨⟩
  lock := fun t h => absurd h atLock_none

/-- A step of the task with the thread keeps the guard with the task that has it. -/
theorem System.Sane.after [DecidableEq T] (h : s.Sane) {t : T} {a : After T Addr}
    (hrunning : s.running = some t) (hguard : GuardStep t s.guard (s.pc t) a) :
    (s.after t a).Sane where
  guard := by
    intro x
    change a.guard = some x ↔ HasGuard (Function.update s.pc t a.pc x)
    have hx := h.guard x
    have ht := h.guard t
    by_cases heq : x = t
    · subst heq
      rw [Function.update_self]
      cases hguard with
      | takes hfree hguard hafter => exact iff_of_true hguard hafter
      | gives hbefore hguard hafter =>
        rw [hguard]
        exact iff_of_false (Option.some_ne_none x).symm hafter
      | leaves hguard hpc => rw [hguard, hpc, hx]
    · rw [Function.update_of_ne heq, ← hx]
      cases hguard with
      | takes hfree hguard hafter =>
        -- Nobody had the guard.
        rw [hguard, hfree]
        exact iff_of_false (fun h => heq (Option.some.inj h).symm) (Option.some_ne_none x).symm
      | gives hbefore hguard hafter =>
        -- The task had it.
        rw [hguard, ht.mpr hbefore]
        exact iff_of_false (Option.some_ne_none x).symm fun h => heq (Option.some.inj h).symm
      | leaves hguard hpc => rw [hguard]
  thread := by
    intro x pc hpc hawait
    by_cases heq : x = t
    · rw [heq]
      exact hrunning
    · have hold : (s.after t a).pc x = s.pc x := Function.update_of_ne heq _ _
      rw [hold] at hpc
      exact h.thread x pc hpc hawait

end

/-! ## Steps of the system -/

section
variable [ToString Addr] [DecidableEq Addr] [DecidableEq T] {s s' : System T Addr} {bufferSize : ℕ}
  {action : Action T Addr}

/-- What an action does: it gives the thread to a task or takes it from one that can leave it, or
the task with the thread takes a step. -/
theorem System.step_cases (h : s.step bufferSize action = some s') :
    (∃ r, s' = { s with running := r } ∧ ¬ action.ComesToLock ∧
      ∀ t, s.running = some t → ∀ pc ∈ s.pc t, pc.AtAwait) ∨
    ∃ t a, s.running = some t ∧ s' = s.after t a ∧ GuardStep t s.guard (s.pc t) a ∧
      (AtLock a.pc → action.ComesToLock ∨ HasGuard (s.pc t)) ∧
      (action.ComesToLock → AtLock a.pc ∧ a.guard = s.guard ∧
        ∀ pc ∈ s.pc t, ¬ pc.IsTransferring) := by
  cases action with
  | resume t =>
    -- No task had the thread.
    simp only [System.step] at h
    split at h
    · rename_i hrunning
      obtain rfl := Option.some.inj h
      exact Or.inl ⟨some t, rfl, id, by rw [hrunning]; rintro _ ⟨⟩⟩
    · cases h
  | leave =>
    -- The task that had it is in no call.
    obtain ⟨t, hrunning, h⟩ := Option.bind_eq_some_iff.mp h
    split at h
    · rename_i hidle
      obtain rfl := Option.some.inj h
      refine Or.inl ⟨none, rfl, id, fun t' ht' => ?_⟩
      obtain rfl := Option.some.inj (hrunning.symm.trans ht')
      rw [hidle]
      rintro _ ⟨⟩
    · cases h
  | suspend =>
    -- The task that had it is at an `.await`.
    obtain ⟨t, hrunning, h⟩ := Option.bind_eq_some_iff.mp h
    refine Or.inl ⟨none, ?_, id, fun t' ht' => ?_⟩
    · split at h
      · exact (Option.some.inj h).symm
      · exact (Option.some.inj h).symm
      · exact (Option.some.inj h).symm
      · cases h
    · obtain rfl := Option.some.inj (hrunning.symm.trans ht')
      rintro pc hpc
      rw [hpc] at h
      cases pc with
      | connecting | accepting | transferring => trivial
      | lockInsert | inserting | lockSearch | searching | lockStream | looking => cases h
  | call call =>
    -- The task is in no call, so that it has no guard.
    obtain ⟨t, hrunning, h⟩ := Option.bind_eq_some_iff.mp h
    split at h
    · rename_i hidle
      obtain ⟨a, ha, rfl⟩ := Option.map_eq_some_iff.mp h
      obtain ⟨hguard, hnone, hlock⟩ := startCall_spec ha
      refine Or.inr ⟨t, a, hrunning, rfl, ?_, fun hat => Or.inl (hlock.mp hat),
        fun hcomes => ⟨hlock.mpr hcomes, hguard, ?_⟩⟩
      · rw [hidle]
        exact .leaves hguard (iff_of_false hnone hasGuard_none)
      · rw [hidle]
        rintro _ ⟨⟩
    · cases h
  | complete completion =>
    obtain ⟨t, hrunning, h⟩ := Option.bind_eq_some_iff.mp h
    obtain ⟨pc, hpc, h⟩ := Option.bind_eq_some_iff.mp h
    obtain ⟨a, ha, rfl⟩ := Option.map_eq_some_iff.mp h
    obtain ⟨hguard, hlock, hwait⟩ := completeCall_spec (t := t) ha
    rw [← hpc] at hguard
    refine Or.inr ⟨t, a, hrunning, rfl, hguard, fun hat => Or.inl (hlock.mp hat), fun hcomes => ?_⟩
    obtain ⟨hsame, hno⟩ := hwait (hlock.mpr hcomes)
    refine ⟨hlock.mpr hcomes, hsame, ?_⟩
    rw [hpc]
    rintro _ ⟨⟩
    exact hno
  | step order =>
    -- A task comes to a second `lock()` only from the scope of the first.
    obtain ⟨t, hrunning, h⟩ := Option.bind_eq_some_iff.mp h
    obtain ⟨pc, hpc, h⟩ := Option.bind_eq_some_iff.mp h
    obtain ⟨a, ha, rfl⟩ := Option.map_eq_some_iff.mp h
    obtain ⟨hguard, hlock⟩ := stepCall_spec ha
    refine Or.inr ⟨t, a, hrunning, rfl, by rwa [hpc], fun hat => Or.inr ?_, False.elim⟩
    rw [hpc]
    exact hasGuard_some.mpr (hlock hat)

/-- Every action keeps what holds in every run. -/
theorem System.Sane.step (h : s.Sane) (hstep : s.step bufferSize action = some s') : s'.Sane := by
  rcases step_cases hstep with ⟨r, rfl, -, hawait⟩ | ⟨t, a, hrunning, rfl, hguard, -, -⟩
  · refine ⟨h.guard, fun t pc hpc hno => ?_⟩
    exact absurd (hawait t (h.thread t pc hpc hno) pc hpc) hno
  · exact h.after hrunning hguard

/-- An action that waits for transfers keeps it so. -/
theorem System.Patient.step (h : s.Patient) (hok : action.WaitsForTransfers s)
    (hstep : s.step bufferSize action = some s') : s'.Patient := by
  refine { toSane := h.toSane.step hstep, lock := ?_ }
  rcases step_cases hstep with ⟨r, rfl, -, -⟩ | ⟨t, a, hrunning, rfl, hguard, hlock, -⟩
  · exact h.lock
  · intro x hx
    have hother : ∀ y, y ≠ t → (s.after t a).pc y = s.pc y := fun y hy =>
      Function.update_of_ne hy _ _
    have hself : (s.after t a).pc t = a.pc := Function.update_self _ _ _
    -- The task at the `lock()` has the thread.
    have hxt : x = t := by
      by_contra hne
      rw [hother x hne] at hx
      obtain ⟨pc, hpc, hat⟩ := hx
      have hthread := h.thread x pc hpc (not_atAwait_of_atLock hat)
      exact hne (Option.some.inj (hthread.symm.trans hrunning))
    rw [hxt, hself] at hx
    intro y pc hpc htransfer
    by_cases hy : y = t
    · rw [hy, hself] at hpc
      obtain ⟨pc', hpc', hat⟩ := hx
      obtain rfl := Option.some.inj (hpc.symm.trans hpc')
      exact not_atAwait_of_atLock hat (Pc.isTransferring_iff.mp htransfer).2
    · rw [hother y hy] at hpc
      rcases hlock hx with hcomes | hhas
      · exact hok hcomes y pc hpc htransfer
      · -- The other task would have the guard as well.
        have hy' := (h.guard y).mpr ⟨pc, hpc, (Pc.isTransferring_iff.mp htransfer).1⟩
        have ht' := (h.guard t).mpr hhas
        exact hy (Option.some.inj (hy'.symm.trans ht'))

/-- In every run in which no call comes to a `lock()` while a transfer is awaited, no task that has
the thread is blocked by one that is suspended. -/
theorem never_deadlocked (bufferSize : ℕ) {sockets : Sockets} {s : System T Addr}
    (h : Reaches (System.step bufferSize) (fun s action => action.WaitsForTransfers s)
      (System.start sockets) s) : ¬ s.Deadlocked := by
  have hpatient : s.Patient := h.invariant (patient_start sockets)
    fun t action t' ht hok hstep => ht.step hok hstep
  exact hpatient.not_deadlocked

/-- A step by which a call comes to a `lock()` while a transfer is awaited ends in a deadlock. -/
theorem System.Sane.deadlocked (h : s.Sane) (hbad : ¬ action.WaitsForTransfers s)
    (hstep : s.step bufferSize action = some s') : s'.Deadlocked := by
  unfold Action.WaitsForTransfers System.NoTransfer at hbad
  push Not at hbad
  obtain ⟨hcomes, t', pc', hpc', htransfer⟩ := hbad
  rcases step_cases hstep with ⟨r, -, hno, -⟩ | ⟨t, a, hrunning, rfl, -, -, hlock⟩
  · exact absurd hcomes hno
  · obtain ⟨⟨pc, hpc, hat⟩, hguard, hidle⟩ := hlock hcomes
    have hne : t' ≠ t := by
      rintro rfl
      exact hidle pc' hpc' htransfer
    obtain ⟨hhas, hawait⟩ := Pc.isTransferring_iff.mp htransfer
    refine ⟨t, t', pc, pc', hrunning, ?_, hat, ?_, hne, ?_, hawait⟩
    · exact (Function.update_self _ _ _).trans hpc
    · exact hguard.trans ((h.guard t').mpr ⟨pc', hpc', hhas⟩)
    · exact (Function.update_of_ne hne _ _).trans hpc'

/-- Nothing happens after a deadlock. -/
theorem System.Deadlocked.stuck (h : s.Deadlocked) (bufferSize : ℕ) (action : Action T Addr) :
    s.step bufferSize action = none := by
  obtain ⟨t, t', pc, pc', hrunning, hpc, hat, hguard, -, -, -⟩ := h
  cases action with
  | resume x => simp only [System.step, hrunning]
  | leave => simp only [System.step, hrunning, hpc, Option.bind_eq_bind, Option.bind_some]
  | call call => simp only [System.step, hrunning, hpc, Option.bind_eq_bind, Option.bind_some]
  | suspend =>
    simp only [System.step, hrunning, hpc, Option.bind_eq_bind, Option.bind_some]
    cases pc with
    | lockInsert | lockSearch | lockStream => rfl
    | connecting | accepting | inserting | searching | looking | transferring => cases hat
  | complete completion =>
    simp only [System.step, hrunning, hpc, Option.bind_eq_bind, Option.bind_some]
    cases pc with
    | lockInsert | lockSearch | lockStream => rfl
    | connecting | accepting | inserting | searching | looking | transferring => cases hat
  | step order =>
    have hheld : s.guard ≠ none := by
      rw [hguard]
      exact Option.some_ne_none t'
    simp only [System.step, hrunning, hpc, Option.bind_eq_bind, Option.bind_some]
    cases pc with
    | lockInsert | lockSearch | lockStream => simp only [stepCall, hheld, if_false, Option.map_none]
    | connecting | accepting | inserting | searching | looking | transferring => cases hat

end

/-- A task connects, and comes to wait for a read. -/
def connectThenRead : List (Action Bool String) :=
  [.resume false, .call (.connect "10.0.0.1:80"), .suspend, .resume false,
    .complete (.connect (.ok 3)), .step [], .step [], .call (.read 3), .step [],
    .step [⟨"10.0.0.1:80", 3⟩], .step [], .step [], .suspend]

/-- A run in which another task closes the connection after the read. -/
theorem never_deadlocked_readClose : ∃ s : System Bool String,
    s.pc true = some (.lockSearch (.close 3)) ∧ ¬ s.Deadlocked := by
  obtain ⟨s, hrun, hpc⟩ : ∃ s : System Bool String,
      Reaches (System.step 16) (fun s action => action.WaitsForTransfers s)
        (System.start fun _ => none) s ∧ s.pc true = some (.lockSearch (.close 3)) := by
    refine ⟨_, Reaches.get_runWhere (connectThenRead ++ [.resume false,
      .complete (.read (.ok [7])), .leave, .resume true, .call (.close 3)])
      (by decide +kernel), ?_⟩
    decide +kernel
  exact ⟨s, hpc, never_deadlocked 16 hrun⟩

/-- A task waits for a read, and another calls `close` meanwhile. -/
theorem never_deadlocked_fails : ¬ ∀ (sockets : Sockets) (s : System Bool String),
    Reaches (System.step 16) Always (System.start sockets) s → ¬ s.Deadlocked := by
  intro h
  obtain ⟨s, hrun, hrunning, htrue, hguard, hfalse⟩ : ∃ s : System Bool String,
      Reaches (System.step 16) Always (System.start fun _ => none) s ∧ s.running = some true ∧
        s.pc true = some (.lockSearch (.close 3)) ∧ s.guard = some false ∧
        s.pc false = some (.transferring .read "10.0.0.1:80" 3) := by
    refine ⟨_, Reaches.get_runWhere (connectThenRead ++ [.resume true, .call (.close 3)])
      (by decide +kernel), ?_, ?_, ?_, ?_⟩ <;> decide +kernel
  exact h _ s hrun ⟨true, false, _, _, hrunning, htrue, trivial, hguard, Bool.false_ne_true, hfalse,
    trivial⟩

end Elgate.Net
