import Elgate.Foundation.Amortized

/-!
# Runs under interference

A system whose state others may change between any two of its steps. `disturb s e` is the state
after the disturbance `e`, and `rely s e` what the others promise of it. What the steps of the
system keep, and no disturbance within the promise breaks, holds in every run
(`Reaches.invariant_interfered`). A system whose steps are paid for, as in `Amortized.lean`, takes
at most `raise` more steps for each disturbance, if that is what one adds to the potential
(`own_length_le`).
-/

namespace Transition

variable {σ α ε : Type*}

/-- A step of the system, or a disturbance. -/
def interfered (step : σ → α → Option σ) (disturb : σ → ε → σ) (s : σ) : α ⊕ ε → Option σ
  | .inl a => step s a
  | .inr e => some (disturb s e)

/-- The steps meet the condition of the system, and the disturbances the promise. -/
def Promised (ok : σ → α → Prop) (rely : σ → ε → Prop) (s : σ) : α ⊕ ε → Prop
  | .inl a => ok s a
  | .inr e => rely s e

instance {ok : σ → α → Prop} {rely : σ → ε → Prop} [∀ s a, Decidable (ok s a)]
    [∀ s e, Decidable (rely s e)] (s : σ) : (x : α ⊕ ε) → Decidable (Promised ok rely s x)
  | .inl a => inferInstanceAs (Decidable (ok s a))
  | .inr e => inferInstanceAs (Decidable (rely s e))

variable {step : σ → α → Option σ} {disturb : σ → ε → σ} {ok : σ → α → Prop}
  {rely : σ → ε → Prop} {I : σ → Prop}

/-- What every step and every disturbance keeps holds after every run. -/
theorem Reaches.invariant_interfered {s s' : σ}
    (h : Reaches (interfered step disturb) (Promised ok rely) s s') (h0 : I s)
    (hstep : ∀ t a t', I t → ok t a → step t a = some t' → I t')
    (hdisturb : ∀ t e, I t → rely t e → I (disturb t e)) : I s' := by
  refine h.invariant h0 fun t x t' ht hok hnext => ?_
  cases x with
  | inl a => exact hstep t a t' ht hok hnext
  | inr e =>
    obtain rfl := Option.some.inj hnext
    exact hdisturb t e ht hok

/-- What the steps of a list cost. -/
def ownPrice (price : α → ℕ) (xs : List (α ⊕ ε)) : ℕ :=
  (xs.map (Sum.elim price fun _ => 0)).sum

/-- The steps and the disturbances of a list, and what they cost. -/
theorem length_add_sum (price : α → ℕ) (raise : ℕ) (xs : List (α ⊕ ε)) :
    xs.length = xs.countP Sum.isLeft + xs.countP Sum.isRight ∧
      (xs.map (Sum.elim price fun _ => raise + 1)).sum =
        ownPrice price xs + (raise + 1) * xs.countP Sum.isRight := by
  unfold ownPrice
  induction xs with
  | nil => exact ⟨rfl, rfl⟩
  | cons x xs ih =>
    obtain ⟨hlength, hsum⟩ := ih
    cases x with
    | inl a =>
      simp only [List.length_cons, List.countP_cons, Sum.isLeft_inl, Sum.isRight_inl, List.map_cons,
        List.sum_cons, Sum.elim_inl, hsum]
      exact ⟨by simpa using by omega, by simp [Nat.add_assoc]⟩
    | inr e =>
      simp only [List.length_cons, List.countP_cons, Sum.isLeft_inr, Sum.isRight_inr, List.map_cons,
        List.sum_cons, Sum.elim_inr, hsum]
      have hmul : (raise + 1) * (xs.countP Sum.isRight + 1) =
          (raise + 1) * xs.countP Sum.isRight + (raise + 1) := Nat.mul_succ _ _
      simp only [if_true, Bool.false_eq_true, if_false, hmul]
      omega

/-- What they cost when some of them cost one. -/
theorem ownPrice_ite (costs : α → Bool) (xs : List (α ⊕ ε)) :
    ownPrice (fun a => if costs a then 1 else 0) xs =
      xs.countP (Sum.elim costs fun _ => false) := by
  have hprice : (Sum.elim (fun a => if costs a then 1 else 0) fun _ => 0 : α ⊕ ε → ℕ) =
      fun x => if Sum.elim costs (fun _ => false) x then 1 else 0 := by
    funext x
    cases x with
    | inl a => rfl
    | inr e => rfl
  unfold ownPrice
  rw [hprice, Amortized.sum_map_ite]

/-- A run whose steps are all paid for has no more steps of the system than are paid for, when each
disturbance pays for what it adds to the potential. -/
theorem own_length_le [∀ s a, Decidable (ok s a)] [∀ s e, Decidable (rely s e)]
    (potential gain : σ → ℕ) (price : α → ℕ) (raise : ℕ)
    (hpays : ∀ s a s', I s → ok s a → step s a = some s' →
      potential s' + gain s + 1 ≤ potential s + gain s' + price a)
    (hraise : ∀ s e, potential (disturb s e) + gain s ≤ potential s + gain (disturb s e) + raise)
    (hstep : ∀ s a s', I s → ok s a → step s a = some s' → I s')
    (hdisturb : ∀ s e, I s → rely s e → I (disturb s e)) {xs : List (α ⊕ ε)} {s s' : σ} (hs : I s)
    (hrun : runWhere (interfered step disturb) (Promised ok rely) s xs = some s') :
    xs.countP Sum.isLeft + potential s' + gain s ≤
      potential s + gain s' + ownPrice price xs + raise * xs.countP Sum.isRight := by
  have hkeeps : ∀ t x t', I t → Promised ok rely t x → interfered step disturb t x = some t' →
      I t' := by
    intro t x t' ht hok hnext
    cases x with
    | inl a => exact hstep t a t' ht hok hnext
    | inr e =>
      obtain rfl := Option.some.inj hnext
      exact hdisturb t e ht hok
  have hall : ∀ t x t', I t → Promised ok rely t x → interfered step disturb t x = some t' →
      potential t' + gain t + 1 ≤ potential t + gain t' +
        Sum.elim price (fun _ => raise + 1) x := by
    intro t x t' ht hok hnext
    cases x with
    | inl a => exact hpays t a t' ht hok hnext
    | inr e =>
      obtain rfl := Option.some.inj hnext
      have hadded := hraise t e
      show _ ≤ _ + _ + (raise + 1)
      omega
  have hpaid := length_le_of_pays potential gain _ hall hkeeps hs hrun
  obtain ⟨hlength, hsum⟩ := length_add_sum price raise xs
  have hmul : (raise + 1) * xs.countP Sum.isRight =
      raise * xs.countP Sum.isRight + xs.countP Sum.isRight := Nat.succ_mul _ _
  omega

end Transition
