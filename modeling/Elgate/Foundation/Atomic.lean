import Mathlib.Logic.Function.Basic
import Elgate.Foundation.Transition

/-!
# Objects that threads call at the same time

A concurrent object is linearizable when each call of it seems to be performed at one moment
between its start and its return. The object of which this is true by construction is `Atomic.step`:
a thread calls an operation, the operation is performed at once on what the operations before it
have left, and the call returns the result that it has had then. A history of calls and returns is
`Linearizable` when a run of that object has it too.

A system is linearizable by a simulation: `Linearizable.of_simulation` asks for an answer to every
step of the system, which may be any number of steps of the object.
-/

namespace Atomic

open Transition

/-- What an operation returns, and what it leaves. -/
abbrev Object (σ Op Result : Type) := σ → Op → Result × σ

/-- How far a call is. -/
inductive Phase (Op Result : Type)
  /-- It has started. -/
  | called (op : Op)
  /-- It has been performed, with the result. -/
  | performed (result : Result)

/-- What a thread does, as the others see it. -/
inductive Seen (τ Op Result : Type)
  /-- It starts a call. -/
  | called (t : τ) (op : Op)
  /-- It returns from its call. -/
  | returned (t : τ) (result : Result)
  deriving DecidableEq

/-- An object and the calls of the threads. -/
structure State (τ σ Op Result : Type) where
  /-- What the operations have left. -/
  object : σ
  /-- The calls that are in progress. -/
  phase : τ → Option (Phase Op Result)
  /-- What has been seen. -/
  history : List (Seen τ Op Result)

/-- A step of a thread. -/
inductive Action (τ Op : Type)
  /-- It starts a call. -/
  | call (t : τ) (op : Op)
  /-- Its call is performed. -/
  | perform (t : τ)
  /-- Its call returns. -/
  | finish (t : τ)

variable {τ σ Op Result : Type} [DecidableEq τ]

/-- No call is in progress. -/
def State.start (object : σ) : State τ σ Op Result := ⟨object, fun _ => none, []⟩

/-- The state after a step. -/
def step (object : Object σ Op Result) (s : State τ σ Op Result) :
    Action τ Op → Option (State τ σ Op Result)
  | .call t op =>
    match s.phase t with
    | none => some ⟨s.object, Function.update s.phase t (some (.called op)),
        s.history ++ [.called t op]⟩
    | some _ => none
  | .perform t =>
    match s.phase t with
    | some (.called op) => some ⟨(object s.object op).2,
        Function.update s.phase t (some (.performed (object s.object op).1)), s.history⟩
    | _ => none
  | .finish t =>
    match s.phase t with
    | some (.performed result) => some ⟨s.object, Function.update s.phase t none,
        s.history ++ [.returned t result]⟩
    | _ => none

/-- The calls and returns are those of an object that performs each call at one moment. -/
def Linearizable (object : Object σ Op Result) (init : σ) (h : List (Seen τ Op Result)) : Prop :=
  ∃ s, Reaches (step object) Always (State.start init) s ∧ s.history = h

/-! ## Simulation -/

section
variable {object : Object σ Op Result} {s : State τ σ Op Result} {t : τ}

/-- A thread in no call starts one. -/
theorem reaches_call (hphase : s.phase t = none) (op : Op) :
    Reaches (step object) Always s ⟨s.object, Function.update s.phase t (some (.called op)),
      s.history ++ [.called t op]⟩ := by
  have hstep : step object s (.call t op) = some ⟨s.object,
      Function.update s.phase t (some (.called op)), s.history ++ [.called t op]⟩ := by
    simp only [step, hphase]
  exact (Reaches.refl s).next trivial hstep

/-- A call is performed. -/
theorem reaches_perform {op : Op} (hphase : s.phase t = some (.called op)) :
    Reaches (step object) Always s ⟨(object s.object op).2,
      Function.update s.phase t (some (.performed (object s.object op).1)), s.history⟩ := by
  have hstep : step object s (.perform t) = some ⟨(object s.object op).2,
      Function.update s.phase t (some (.performed (object s.object op).1)), s.history⟩ := by
    simp only [step, hphase]
  exact (Reaches.refl s).next trivial hstep

/-- A call that has been performed returns. -/
theorem reaches_finish {result : Result} (hphase : s.phase t = some (.performed result)) :
    Reaches (step object) Always s ⟨s.object, Function.update s.phase t none,
      s.history ++ [.returned t result]⟩ := by
  have hstep : step object s (.finish t) = some ⟨s.object, Function.update s.phase t none,
      s.history ++ [.returned t result]⟩ := by
    simp only [step, hphase]
  exact (Reaches.refl s).next trivial hstep

end

section
variable {S α : Type*} {next : S → α → Option S} {ok : S → α → Prop}
  {object : Object σ Op Result} (Sim : S → State τ σ Op Result → Prop)

/-- A system whose every step the object answers is linearizable, for what is seen of it. -/
theorem Linearizable.of_simulation {init : σ} {seen : S → List (Seen τ Op Result)} {x x' : S}
    (hseen : ∀ x s, Sim x s → s.history = seen x) (hstart : Sim x (State.start init))
    (hstep : ∀ x a x' s, Sim x s → ok x a → next x a = some x' →
      ∃ s', Reaches (step object) Always s s' ∧ Sim x' s')
    (hrun : Reaches next ok x x') : Linearizable object init (seen x') := by
  have hinv : ∃ s, Reaches (step object) Always (State.start init) s ∧ Sim x' s := by
    refine hrun.invariant (I := fun x => ∃ s, Reaches (step object) Always (State.start init) s ∧
      Sim x s) ⟨_, Reaches.refl _, hstart⟩ ?_
    rintro x a x' ⟨s, hreached, hsim⟩ hok hnext
    obtain ⟨s', hanswer, hsim'⟩ := hstep x a x' s hsim hok hnext
    exact ⟨s', hreached.trans hanswer, hsim'⟩
  obtain ⟨s, hreached, hsim⟩ := hinv
  exact ⟨s, hreached, hseen x' s hsim⟩

end

end Atomic
