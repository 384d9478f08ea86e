import Mathlib.Logic.Relation

/-!
# Runs of a partial step function

A system is given by a step function `step : σ → α → Option σ`: the action `a` is possible in the
state `s` when `step s a` is `some` state. `Reaches step ok s s'` says that a run of it leads from
`s` to `s'`, each of whose steps meets the condition `ok` on the action and the state before it. A
property of every run is proved once for the first state and once for a step (`Reaches.invariant`);
a concrete run is computed (`runWhere`) and gives the relation (`Reaches.get_runWhere`). `steps`
records the steps of a run, for properties of a step rather than of a state. Where a function on
states takes each step to the step of another system, it takes runs to runs (`Reaches.map`,
`runWhere_map`).
-/

namespace Transition

variable {σ α : Type*} {step : σ → α → Option σ} {ok : σ → α → Prop}

/-- One step of `step`, by an action that `ok` admits in the state before it. -/
def Step (step : σ → α → Option σ) (ok : σ → α → Prop) (s s' : σ) : Prop :=
  ∃ a, ok s a ∧ step s a = some s'

/-- A run of `step` from `s` to `s'`, each of whose steps `ok` admits. -/
def Reaches (step : σ → α → Option σ) (ok : σ → α → Prop) : σ → σ → Prop :=
  Relation.ReflTransGen (Step step ok)

/-- The condition that every step meets. -/
def Always : σ → α → Prop := fun _ _ => True

instance (s : σ) (a : α) : Decidable (Always s a) := isTrue trivial

/-- The empty run. -/
theorem Reaches.refl (s : σ) : Reaches step ok s s := Relation.ReflTransGen.refl

/-- A run with one more step. -/
theorem Reaches.next {s s' s'' : σ} {a : α} (h : Reaches step ok s s') (hok : ok s' a)
    (hstep : step s' a = some s'') : Reaches step ok s s'' :=
  Relation.ReflTransGen.tail h ⟨a, hok, hstep⟩

/-- Two runs, one after the other. -/
theorem Reaches.trans {s s' s'' : σ} (h : Reaches step ok s s') (h' : Reaches step ok s' s'') :
    Reaches step ok s s'' :=
  Relation.ReflTransGen.trans h h'

/-- What holds of the first state, and is kept by every admitted step, holds after every run. -/
theorem Reaches.invariant {I : σ → Prop} {s s' : σ} (h : Reaches step ok s s') (h0 : I s)
    (hstep : ∀ t a t', I t → ok t a → step t a = some t' → I t') : I s' := by
  induction h with
  | refl => exact h0
  | tail _ hlast ih =>
    obtain ⟨a, hok, ha⟩ := hlast
    exact hstep _ a _ ih hok ha

/-- The state that a list of actions leads to, when each of them is possible and meets `ok`. -/
def runWhere (step : σ → α → Option σ) (ok : σ → α → Prop) [∀ s a, Decidable (ok s a)] :
    σ → List α → Option σ
  | s, [] => some s
  | s, a :: as => if ok s a then (step s a).bind fun s' => runWhere step ok s' as else none

/-- A computed run is a run. -/
theorem Reaches.of_runWhere [∀ s a, Decidable (ok s a)] {as : List α} {s s' : σ}
    (h : runWhere step ok s as = some s') : Reaches step ok s s' := by
  induction as generalizing s with
  | nil =>
    obtain rfl : s = s' := by simpa [runWhere] using h
    exact Reaches.refl s
  | cons a as ih =>
    simp only [runWhere] at h
    split at h
    · rename_i hok
      obtain ⟨t, ht, hrest⟩ := Option.bind_eq_some_iff.mp h
      exact Relation.ReflTransGen.head ⟨a, hok, ht⟩ (ih hrest)
    · simp at h

/-- The state at the end of a computed run is reached. -/
theorem Reaches.get_runWhere [∀ s a, Decidable (ok s a)] {s : σ} (as : List α)
    (h : (runWhere step ok s as).isSome = true) :
    Reaches step ok s ((runWhere step ok s as).get h) :=
  Reaches.of_runWhere (Option.some_get h).symm

/-- The steps of a run, when all of them are possible: the state before, the action, and the state
after. -/
def steps (step : σ → α → Option σ) : σ → List α → Option (List (σ × α × σ))
  | _, [] => some []
  | s, a :: as => (step s a).bind fun s' => (steps step s' as).map fun rest => (s, a, s') :: rest

/-- Each of them is a step. -/
theorem step_of_mem_steps {as : List α} {s : σ} {run : List (σ × α × σ)}
    (h : steps step s as = some run) : ∀ p ∈ run, step p.1 p.2.1 = some p.2.2 := by
  induction as generalizing s run with
  | nil =>
    obtain rfl := Option.some.inj h
    exact fun p hp => absurd hp List.not_mem_nil
  | cons a as ih =>
    unfold steps at h
    obtain ⟨s', hs', h⟩ := Option.bind_eq_some_iff.mp h
    obtain ⟨rest, hrest, rfl⟩ := Option.map_eq_some_iff.mp h
    intro p hp
    rcases List.mem_cons.mp hp with rfl | hp
    · exact hs'
    · exact ih hrest p hp

section
variable {σ' : Type*} {step' : σ' → α → Option σ'} {ok' : σ' → α → Prop} {f : σ → σ'}
  {I : σ → Prop}

/-- A function that takes each step to a step takes a run to a run. -/
theorem Reaches.map {s s' : σ} (h : Reaches step ok s s') (hs : I s)
    (hkeeps : ∀ t a t', I t → step t a = some t' → I t')
    (hok : ∀ t a, I t → ok t a → ok' (f t) a)
    (hstep : ∀ t a, I t → (step t a).map f = step' (f t) a) :
    Reaches step' ok' (f s) (f s') ∧ I s' := by
  refine h.invariant (I := fun t => Reaches step' ok' (f s) (f t) ∧ I t) ⟨Reaches.refl _, hs⟩ ?_
  rintro t a t' ⟨hreached, ht⟩ hta hnext
  have hnext' : step' (f t) a = some (f t') := by
    rw [← hstep t a ht, hnext]
    rfl
  exact ⟨hreached.next (hok t a ht hta) hnext', hkeeps t a t' ht hnext⟩

/-- It takes the run of a list of actions to the run of that list. -/
theorem runWhere_map (hkeeps : ∀ t a t', I t → step t a = some t' → I t')
    (hstep : ∀ t a, I t → (step t a).map f = step' (f t) a) (as : List α) {s : σ} (hs : I s) :
    (runWhere step Always s as).map f = runWhere step' Always (f s) as := by
  induction as generalizing s with
  | nil => rfl
  | cons a as ih =>
    simp only [runWhere, Always]
    rw [← hstep s a hs]
    cases hnext : step s a with
    | none => rfl
    | some t => exact ih (hkeeps s a t hs hnext)

end

end Transition
