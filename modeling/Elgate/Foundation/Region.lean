import Mathlib.Data.Nat.Basic

/-!
# Regions of memory

A `Region` is a range of byte offsets, given by where it starts and how long it is. `cell` cuts
memory from a base on into regions of one length, a stride: cells do not overlap (`cell_disjoint`),
the first `n` of them end where the last one does (`cells_inside_iff`), and they all start at
multiples of a number when the first two do (`cells_aligned_iff`).
-/

/-- A range of byte offsets. -/
structure Region where
  /-- The first offset. -/
  start : ℕ
  /-- The number of bytes. -/
  len : ℕ
  deriving DecidableEq, Repr

namespace Region

instance : Membership ℕ Region := ⟨fun r k => r.start ≤ k ∧ k < r.start + r.len⟩

/-- The offsets of a region. -/
theorem mem_iff {r : Region} {k : ℕ} : k ∈ r ↔ r.start ≤ k ∧ k < r.start + r.len := Iff.rfl

instance (r : Region) (k : ℕ) : Decidable (k ∈ r) := decidable_of_iff _ mem_iff.symm

/-- The region ends within the first `size` bytes. -/
def Inside (r : Region) (size : ℕ) : Prop := r.start + r.len ≤ size

instance (r : Region) (size : ℕ) : Decidable (r.Inside size) := Nat.decLe _ _

/-- The regions have no byte in common. -/
def Disjoint (r r' : Region) : Prop := ∀ k ∈ r, k ∉ r'

/-- Regions one of which ends before the other starts are disjoint. -/
theorem disjoint_of_le {r r' : Region}
    (h : r.start + r.len ≤ r'.start ∨ r'.start + r'.len ≤ r.start) : r.Disjoint r' := by
  intro k hk hk'
  rw [mem_iff] at hk hk'
  omega

/-- Cell `i` of the memory from `base` on, cut at every `stride` bytes. -/
def cell (base stride i : ℕ) : Region := ⟨base + i * stride, stride⟩

section
variable {base stride i j n size : ℕ}

/-- Different cells have no byte in common. -/
theorem cell_disjoint (h : i ≠ j) : (cell base stride i).Disjoint (cell base stride j) := by
  have hlt : ∀ {i j : ℕ}, i < j →
      (cell base stride i).start + (cell base stride i).len ≤ (cell base stride j).start := by
    intro i j hij
    have hmul : (i + 1) * stride ≤ j * stride := Nat.mul_le_mul_right _ hij
    unfold cell
    rw [Nat.succ_mul] at hmul
    dsimp only
    omega
  apply disjoint_of_le
  rcases Nat.lt_or_gt_of_ne h with hij | hij
  · exact Or.inl (hlt hij)
  · exact Or.inr (hlt hij)

/-- A cell is disjoint from what ends at the base. -/
theorem disjoint_cell {r : Region} (h : r.start + r.len ≤ base) :
    r.Disjoint (cell base stride i) :=
  disjoint_of_le (Or.inl (le_trans h (Nat.le_add_right _ _)))

/-- Where a cell ends. -/
theorem cell_inside_iff :
    (cell base stride i).Inside size ↔ base + (i + 1) * stride ≤ size := by
  unfold Inside cell
  rw [Nat.succ_mul, Nat.add_assoc]

/-- The first cells lie inside as far as the last of them does. -/
theorem cells_inside_iff (hn : 0 < n) :
    (∀ i < n, (cell base stride i).Inside size) ↔ base + n * stride ≤ size := by
  constructor
  · intro h
    have hlast := cell_inside_iff.mp (h (n - 1) (by omega))
    rwa [Nat.sub_add_cancel hn] at hlast
  · intro h i hi
    have hmul : (i + 1) * stride ≤ n * stride := Nat.mul_le_mul_right _ hi
    exact cell_inside_iff.mpr (by omega)

/-- As many cells as fit lie inside. -/
theorem cells_inside_of_div (hbase : base ≤ size) {i : ℕ} (hi : i < (size - base) / stride) :
    (cell base stride i).Inside size := by
  have hmul : (size - base) / stride * stride ≤ size - base := Nat.div_mul_le_self _ _
  exact (cells_inside_iff (Nat.zero_lt_of_lt hi)).mpr (by omega) i hi

/-- Cells after a base that is a multiple of `a` start at multiples of `a` when there is one of them
at most, or when the stride is a multiple of `a`. -/
theorem cells_aligned_iff {a : ℕ} (hbase : a ∣ base) :
    (∀ i < n, a ∣ (cell base stride i).start) ↔ n ≤ 1 ∨ a ∣ stride := by
  unfold cell
  constructor
  · intro h
    by_cases hn : n ≤ 1
    · exact Or.inl hn
    · have h1 := h 1 (by omega)
      rw [Nat.one_mul] at h1
      exact Or.inr ((Nat.dvd_add_right hbase).mp h1)
  · intro h i hi
    rcases h with hn | hstride
    · obtain rfl : i = 0 := by omega
      rwa [Nat.zero_mul, Nat.add_zero]
    · exact Nat.dvd_add hbase (Nat.dvd_mul_left_of_dvd hstride i)

end

end Region
