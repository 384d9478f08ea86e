import Mathlib.Algebra.BigOperators.Group.Finset.Basic
import Mathlib.Algebra.Order.Ring.Nat
import Mathlib.Algebra.Order.BigOperators.Group.Finset
import Mathlib.Data.Fintype.Card
import Elgate.Foundation.Transition

/-!
# Amortized bounds on runs

How many steps a run takes, by a potential. Each step is paid by what the potential loses, by what
the run gains (`gain`, which may be the number of calls that have returned), or by the price of the
action itself (`price`); then a run has no more steps than all of it together pays for
(`length_le_of_pays`). A potential that is a sum over threads is paid out of the share of the
thread that steps, which also pays for what the step adds to the shares of the others
(`sum_le_of_share`).
-/

namespace Transition

variable {σ α : Type*} {step : σ → α → Option σ} {ok : σ → α → Prop}
  [∀ s a, Decidable (ok s a)] {I : σ → Prop}

/-- A run whose steps are all paid for has no more steps than are paid for. -/
theorem length_le_of_pays (potential gain : σ → ℕ) (price : α → ℕ)
    (hpays : ∀ s a s', I s → ok s a → step s a = some s' →
      potential s' + gain s + 1 ≤ potential s + gain s' + price a)
    (hkeeps : ∀ s a s', I s → ok s a → step s a = some s' → I s') {as : List α} {s s' : σ}
    (hs : I s)
    (hrun : runWhere step ok s as = some s') :
    as.length + potential s' + gain s ≤ potential s + gain s' + (as.map price).sum := by
  induction as generalizing s with
  | nil =>
    obtain rfl : s = s' := by simpa [runWhere] using hrun
    simp
  | cons a as ih =>
    simp only [runWhere] at hrun
    split at hrun
    · rename_i hok
      obtain ⟨t, ht, hrest⟩ := Option.bind_eq_some_iff.mp hrun
      have hfirst := hpays s a t hs hok ht
      have hlast := ih (hkeeps s a t hs hok ht) hrest
      simp only [List.length_cons, List.map_cons, List.sum_cons]
      omega
    · cases hrun

end Transition

namespace Amortized

/-- The price of a list of actions of which some cost one. -/
theorem sum_map_ite {α : Type*} (costs : α → Bool) (as : List α) :
    (as.map fun a => if costs a then 1 else 0).sum = as.countP costs := by
  induction as with
  | nil => rfl
  | cons a as ih =>
    rw [List.map_cons, List.sum_cons, ih, List.countP_cons]
    omega

variable {τ : Type*} [Fintype τ] (share share' : τ → ℕ)

/-- The sum of the shares after a step of `t` that adds at most `raise` to every other share, and
that `t` pays for out of its own share and of `credit`. -/
theorem sum_le_of_share [DecidableEq τ] (t : τ) (raise : ℕ) {cost credit : ℕ}
    (hothers : ∀ t', t' ≠ t → share' t' ≤ share t' + raise)
    (hown : share' t + (Fintype.card τ - 1) * raise + cost ≤ share t + credit) :
    ∑ t', share' t' + cost ≤ ∑ t', share t' + credit := by
  have hmem : t ∈ Finset.univ := Finset.mem_univ t
  have hrest : ∑ t' ∈ Finset.univ.erase t, share' t' ≤
      ∑ t' ∈ Finset.univ.erase t, share t' + (Fintype.card τ - 1) * raise := by
    calc ∑ t' ∈ Finset.univ.erase t, share' t'
        ≤ ∑ t' ∈ Finset.univ.erase t, (share t' + raise) :=
          Finset.sum_le_sum fun t' ht' => hothers t' (Finset.ne_of_mem_erase ht')
      _ = ∑ t' ∈ Finset.univ.erase t, share t' + (Fintype.card τ - 1) * raise := by
          rw [Finset.sum_add_distrib, Finset.sum_const_nat fun _ _ => rfl,
            Finset.card_erase_of_mem hmem, Finset.card_univ]
  rw [← Finset.add_sum_erase _ share' hmem, ← Finset.add_sum_erase _ share hmem]
  omega

variable {share} in
/-- A sum of shares of which each is at most `bound`. -/
theorem sum_le_card_mul {bound : ℕ} (h : ∀ t, share t ≤ bound) :
    ∑ t, share t ≤ bound * Fintype.card τ := by
  calc ∑ t, share t ≤ ∑ _t : τ, bound := Finset.sum_le_sum fun t _ => h t
    _ = bound * Fintype.card τ := by
      rw [Finset.sum_const_nat fun _ _ => rfl, Finset.card_univ, Nat.mul_comm]

end Amortized
