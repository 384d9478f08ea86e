import Mathlib.Data.Nat.ModEq
import Mathlib.Data.List.Nodup
import Mathlib.Logic.Function.Iterate

/-!
# Cyclic buffers

A buffer of `N` cells, numbered from `0`, whose positions are counted without end and taken modulo
`N`. `Layout` says that the list `l` stands in the cells from position `c` on, in order, and that
the cells after it are free. Pushing fills the first free cell, and popping frees the first cell of
the list.
-/

namespace Cyclic

variable {α : Type*}

/-- Positions less than `N` apart are different cells. -/
theorem mod_inj {N k k' : ℕ} (a : ℕ) (hk : a ≤ k) (hkN : k < a + N) (hk' : a ≤ k')
    (hkN' : k' < a + N) (h : k % N = k' % N) : k = k' := by
  obtain ⟨i, rfl⟩ := Nat.exists_eq_add_of_le hk
  obtain ⟨j, rfl⟩ := Nat.exists_eq_add_of_le hk'
  have hij : i ≡ j [MOD N] := Nat.ModEq.add_left_cancel' a h
  rw [hij.eq_of_lt_of_lt (by omega) (by omega)]

/-- The position after a cell. -/
theorem mod_succ (k N : ℕ) : (k % N + 1) % N = (k + 1) % N := by
  rw [Nat.mod_add_mod]

/-- Going from cell to cell from the first one on. -/
theorem iterate_next {N : ℕ} (hN : 0 < N) (k : ℕ) : (fun i => (i + 1) % N)^[k] 0 = k % N := by
  induction k with
  | zero => exact (Nat.mod_eq_of_lt hN).symm
  | succ k ih => rw [Function.iterate_succ_apply', ih, mod_succ]

/-- A lap comes to no cell twice. -/
theorem nodup_lap (n k N : ℕ) : ((((List.range n).map (· % N)).drop k).take N).Nodup := by
  have hmem : ∀ x ∈ ((List.range n).drop k).take N, k ≤ x ∧ x < k + N := by
    intro x hx
    obtain ⟨i, hi, rfl⟩ := List.mem_iff_getElem.mp hx
    rw [List.length_take] at hi
    rw [List.getElem_take, List.getElem_drop, List.getElem_range]
    omega
  rw [← List.map_drop, ← List.map_take]
  refine List.Nodup.map_on ?_ ?_
  · intro x hx y hy hxy
    exact mod_inj k (hmem x hx).1 (hmem x hx).2 (hmem y hy).1 (hmem y hy).2 hxy
  · exact (List.nodup_range.sublist (List.drop_sublist _ _)).sublist (List.take_sublist _ _)

/-- How far one cell is after another. -/
theorem mod_distance {N c j : ℕ} (hc : c < N) (hj : j < N) : ((c + j) % N + N - c) % N = j := by
  rcases Nat.lt_or_ge (c + j) N with hlap | hlap
  · rw [Nat.mod_eq_of_lt hlap, show c + j + N - c = j + N by omega, Nat.add_mod_right,
      Nat.mod_eq_of_lt hj]
  · have hmod : (c + j) % N = c + j - N := by
      rw [Nat.mod_eq_sub_mod hlap, Nat.mod_eq_of_lt (by omega)]
    rw [hmod, show c + j - N + N - c = j by omega, Nat.mod_eq_of_lt hj]

/-- `l` stands in the cells from position `c` on, as `Holds` says, and the cells between its end
and the next lap are `Free`. -/
structure Layout (Holds : ℕ → α → Prop) (Free : ℕ → Prop) (N c : ℕ) (l : List α) : Prop where
  /-- The list fits. -/
  length_le : l.length ≤ N
  /-- Its entries are in consecutive cells. -/
  holds : ∀ i (hi : i < l.length), Holds ((c + i) % N) l[i]
  /-- The other cells are free. -/
  free : ∀ i, l.length ≤ i → i < N → Free ((c + i) % N)

namespace Layout

variable {Holds Holds' : ℕ → α → Prop} {Free Free' : ℕ → Prop} {N c : ℕ} {l : List α}

/-- The entries and the free cells stay where they are. -/
theorem mono (h : Layout Holds Free N c l) (hholds : ∀ i a, Holds i a → Holds' i a)
    (hfree : ∀ i, Free i → Free' i) : Layout Holds' Free' N c l where
  length_le := h.length_le
  holds i hi := hholds _ _ (h.holds i hi)
  free i hi hN := hfree _ (h.free i hi hN)

/-- The positions of the list and the one after it are different cells. -/
theorem ne_end (hl : l.length < N) {i : ℕ} (hi : i < N) (hne : i ≠ l.length) :
    (c + i) % N ≠ (c + l.length) % N := by
  intro heq
  have := mod_inj c (by omega) (by omega) (by omega) (by omega) heq
  omega

/-- Filling the first free cell appends to the list. -/
theorem push (h : Layout Holds Free N c l) (hl : l.length < N) {a : α}
    (ha : Holds' ((c + l.length) % N) a)
    (hholds : ∀ i ≠ (c + l.length) % N, ∀ a, Holds i a → Holds' i a)
    (hfree : ∀ i ≠ (c + l.length) % N, Free i → Free' i) :
    Layout Holds' Free' N c (l ++ [a]) where
  length_le := by rw [List.length_append]; exact hl
  holds i hi := by
    rcases Nat.lt_or_ge i l.length with hlt | hge
    · rw [List.getElem_append_left hlt]
      exact hholds _ (ne_end hl (by omega) (by omega)) _ (h.holds i hlt)
    · obtain rfl : i = l.length := by simp at hi; omega
      simpa using ha
  free i hi hN := by
    simp only [List.length_append, List.length_cons, List.length_nil] at hi
    exact hfree _ (ne_end hl hN (by omega)) (h.free i (by omega) hN)

/-- Freeing the first cell of the list removes its head. -/
theorem pop {a : α} (h : Layout Holds Free N c (a :: l)) (hhead : Free' (c % N))
    (hholds : ∀ i ≠ c % N, ∀ a, Holds i a → Holds' i a)
    (hfree : ∀ i ≠ c % N, Free i → Free' i) : Layout Holds' Free' N (c + 1) l := by
  have hle := h.length_le
  simp only [List.length_cons] at hle
  have hne : ∀ {i}, i + 1 < N → (c + 1 + i) % N ≠ c % N := by
    intro i hi heq
    have := mod_inj c (by omega) (by omega) (by omega) (by omega) heq
    omega
  have hsucc : ∀ i, c + 1 + i = c + (i + 1) := fun i => by omega
  refine ⟨by omega, fun i hi => ?_, fun i hi hN => ?_⟩
  · refine hholds _ (hne (by omega)) _ ?_
    have := h.holds (i + 1) (by simpa using hi)
    rw [hsucc]
    simpa using this
  · rcases Nat.lt_or_ge (i + 1) N with hlt | hge
    · refine hfree _ (hne hlt) ?_
      rw [hsucc]
      exact h.free (i + 1) (by simpa using hi) hlt
    · rw [show c + 1 + i = c + N by omega, Nat.add_mod_right]
      exact hhead

/-- The head of the list is in the first cell. -/
theorem head {a : α} (h : Layout Holds Free N c (a :: l)) : Holds (c % N) a := by
  have := h.holds 0 (by simp)
  simpa using this

end Layout

end Cyclic
