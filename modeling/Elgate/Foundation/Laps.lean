import Mathlib.Data.List.Nodup
import Mathlib.Data.List.Perm.Basic

/-!
# Placing jobs in laps

`place : ℕ → α` puts the jobs `0, 1, 2, ...` on places. It goes round the list `l` when each lap of
`l.length` jobs puts one job on every place of the list, in an order that may differ from lap to
lap. Then the places share the first jobs evenly (`GoesRound.count_eq`), and the jobs of one lap are
all on different places (`GoesRound.nodup`).
-/

namespace Laps

variable {α : Type*} {place : ℕ → α} {l : List α}

/-- The places of the first `k` jobs, in the order of the jobs. -/
def placed (place : ℕ → α) (k : ℕ) : List α := (List.range k).map place

/-- Each lap puts one job on every place of `l`. -/
def GoesRound (place : ℕ → α) (l : List α) : Prop :=
  ∀ lap, (placed (fun i => place (lap * l.length + i)) l.length).Perm l

/-- The jobs after the first `k` are placed from `k` on. -/
theorem placed_add (place : ℕ → α) (k r : ℕ) :
    placed place (k + r) = placed place k ++ placed (fun i => place (k + i)) r := by
  unfold placed
  rw [List.range_add, List.map_append, List.map_map]
  rfl

/-- The first jobs of a longer list of jobs. -/
theorem placed_le (place : ℕ → α) {k k' : ℕ} (h : k ≤ k') :
    placed place k <+: placed place k' := by
  obtain ⟨r, rfl⟩ := Nat.exists_eq_add_of_le h
  rw [placed_add]
  exact List.prefix_append _ _

/-- Whole laps put as many jobs on every place. -/
theorem GoesRound.count_laps [DecidableEq α] (h : GoesRound place l) (hl : l.Nodup) {a : α}
    (ha : a ∈ l) (laps : ℕ) : (placed place (laps * l.length)).count a = laps := by
  induction laps with
  | zero => simp [placed]
  | succ laps ih =>
    rw [Nat.succ_mul, placed_add, List.count_append, ih, (h laps).count_eq,
      List.count_eq_one_of_mem hl ha]

/-- Every place has its share of the first `k` jobs, rounded down or up. -/
theorem GoesRound.count_eq [DecidableEq α] (h : GoesRound place l) (hl : l.Nodup) {a : α}
    (ha : a ∈ l) (k : ℕ) :
    (placed place k).count a = k / l.length ∨
      (placed place k).count a = (k + l.length - 1) / l.length := by
  have hpos : 0 < l.length := List.length_pos_of_mem ha
  -- The first `k` jobs are whole laps and a beginning of the next one.
  have hsplit : placed place k = placed place (k / l.length * l.length) ++
      placed (fun i => place (k / l.length * l.length + i)) (k % l.length) := by
    rw [← placed_add, Nat.div_add_mod']
  have hlast : (placed (fun i => place (k / l.length * l.length + i)) (k % l.length)).count a ≤
      1 := by
    calc (placed (fun i => place (k / l.length * l.length + i)) (k % l.length)).count a
        ≤ (placed (fun i => place (k / l.length * l.length + i)) l.length).count a :=
          (placed_le _ (Nat.le_of_lt (Nat.mod_lt k hpos))).sublist.count_le a
      _ = l.count a := (h _).count_eq a
      _ = 1 := List.count_eq_one_of_mem hl ha
  rw [hsplit, List.count_append, h.count_laps hl ha]
  rcases Nat.eq_zero_or_pos (k % l.length) with hmod | hmod
  · left
    simp [hmod, placed]
  · have hk : k + l.length - 1 = l.length * (k / l.length + 1) + (k % l.length - 1) := by
      have hdiv := Nat.div_add_mod k l.length
      rw [Nat.mul_add, Nat.mul_one]
      omega
    have hlt : k % l.length - 1 < l.length := by
      have hmodlt := Nat.mod_lt k hpos
      omega
    have hceil : (k + l.length - 1) / l.length = k / l.length + 1 := by
      rw [hk, Nat.mul_add_div hpos, Nat.div_eq_of_lt hlt, Nat.add_zero]
    omega

/-- No two jobs of the first lap are on one place. -/
theorem GoesRound.nodup (h : GoesRound place l) (hl : l.Nodup) {k : ℕ} (hk : k ≤ l.length) :
    (placed place k).Nodup := by
  have hfirst : (placed place l.length).Perm l := by simpa using h 0
  exact (hfirst.nodup_iff.mpr hl).sublist (placed_le place hk).sublist

/-- Jobs are put on the places of `l` only. -/
theorem GoesRound.mem (h : GoesRound place l) (hl : l ≠ []) (j : ℕ) : place j ∈ l := by
  have hpos : 0 < l.length := List.length_pos_of_ne_nil hl
  refine (h (j / l.length)).mem_iff.mp (List.mem_map.mpr ⟨j % l.length, ?_, ?_⟩)
  · exact List.mem_range.mpr (Nat.mod_lt j hpos)
  · rw [Nat.div_add_mod']

end Laps
