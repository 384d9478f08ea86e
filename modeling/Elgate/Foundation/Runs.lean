import Mathlib.Data.Finset.Sort
import Mathlib.Data.List.Chain

/-!
# Maximal runs of consecutive numbers

A finite set of numbers as the list of its maximal runs in ascending order, each given by its first
and its last number. `Canonical S rs` says what that list is, `runs` computes it from the numbers in
ascending order, and the runs written out are the set in ascending order
(`Canonical.flatMap_run`).
-/

namespace Runs

/-- The numbers of a run. -/
def run (r : ℕ × ℕ) : List ℕ := List.range' r.1 (r.2 + 1 - r.1)

/-- The list of the maximal runs of the set, in ascending order. -/
structure Canonical (S : Finset ℕ) (rs : List (ℕ × ℕ)) : Prop where
  /-- A run goes up to its last number. -/
  le : ∀ r ∈ rs, r.1 ≤ r.2
  /-- Between a run and the next one there is a gap. -/
  gap : rs.IsChain fun r r' => r.2 + 1 < r'.1
  /-- The set has the numbers of the runs. -/
  mem : ∀ n, n ∈ S ↔ ∃ r ∈ rs, r.1 ≤ n ∧ n ≤ r.2

/-- A number before the runs that are found. -/
def extend (n : ℕ) : List (ℕ × ℕ) → List (ℕ × ℕ)
  | [] => [(n, n)]
  | r :: rs => if r.1 = n + 1 then (n, r.2) :: rs else (n, n) :: r :: rs

/-- The runs of a list of numbers. -/
def runs (l : List ℕ) : List (ℕ × ℕ) := l.foldr extend []

@[simp]
theorem extend_nil (n : ℕ) : extend n [] = [(n, n)] := rfl

/-- A number just before the first run goes to its front. -/
theorem extend_of_eq {n : ℕ} {r : ℕ × ℕ} (h : r.1 = n + 1) (rs : List (ℕ × ℕ)) :
    extend n (r :: rs) = (n, r.2) :: rs := if_pos h

/-- Any other number is a run. -/
theorem extend_of_ne {n : ℕ} {r : ℕ × ℕ} (h : r.1 ≠ n + 1) (rs : List (ℕ × ℕ)) :
    extend n (r :: rs) = (n, n) :: r :: rs := if_neg h

@[simp]
theorem runs_cons (n : ℕ) (l : List ℕ) : runs (n :: l) = extend n (runs l) := rfl

/-- The numbers of a run, one at a time. -/
theorem run_cons {a b : ℕ} (h : a ≤ b) : run (a, b) = a :: run (a + 1, b) := by
  have hlen : b + 1 - a = b + 1 - (a + 1) + 1 := by omega
  simp only [run]
  rw [hlen, List.range'_succ]

/-- A run of one number. -/
theorem run_self (n : ℕ) : run (n, n) = [n] := by
  rw [run_cons le_rfl, run]
  simp

/-- A number is in a run when it is between its ends. -/
theorem mem_run {r : ℕ × ℕ} {n : ℕ} : n ∈ run r ↔ r.1 ≤ n ∧ n ≤ r.2 := by
  simp only [run, List.mem_range'_1]
  omega

/-! ## The runs of a list -/

/-- The runs start with the first number of the list. -/
theorem runs_head (n : ℕ) (l : List ℕ) : ∃ b rs, runs (n :: l) = (n, b) :: rs := by
  rw [runs_cons]
  cases runs l with
  | nil => exact ⟨n, [], rfl⟩
  | cons r rs =>
    by_cases hnext : r.1 = n + 1
    · exact ⟨_, _, extend_of_eq hnext rs⟩
    · exact ⟨_, _, extend_of_ne hnext rs⟩

/-- A run goes up to its last number. -/
theorem le_of_mem_runs {l : List ℕ} : ∀ r ∈ runs l, r.1 ≤ r.2 := by
  induction l with
  | nil => exact fun r hr => absurd hr List.not_mem_nil
  | cons n l ih =>
    rw [runs_cons]
    cases hl : runs l with
    | nil => simp
    | cons r rs =>
      rw [hl] at ih
      have hr := ih r List.mem_cons_self
      by_cases hnext : r.1 = n + 1
      · rw [extend_of_eq hnext, List.forall_mem_cons]
        refine ⟨?_, fun r' hr' => ih r' (List.mem_cons_of_mem _ hr')⟩
        dsimp only
        omega
      · rw [extend_of_ne hnext, List.forall_mem_cons]
        exact ⟨le_rfl, ih⟩

/-- Written out, the runs are the list. -/
theorem flatMap_runs (l : List ℕ) : (runs l).flatMap run = l := by
  induction l with
  | nil => rfl
  | cons n l ih =>
    have hle := @le_of_mem_runs l
    rw [runs_cons]
    cases hl : runs l with
    | nil =>
      rw [hl] at ih
      rw [← ih, extend_nil, List.flatMap_cons, run_self]
      rfl
    | cons r rs =>
      rw [hl] at ih hle
      have hr := hle r List.mem_cons_self
      by_cases hnext : r.1 = n + 1
      · have hrun : run (n, r.2) = n :: run r := by
          rw [run_cons (by omega), ← hnext]
        rw [extend_of_eq hnext, List.flatMap_cons, hrun, List.cons_append, ← List.flatMap_cons, ih]
      · rw [extend_of_ne hnext, List.flatMap_cons, run_self, ih]
        rfl

/-- Between the runs of an ascending list there are gaps. -/
theorem gap_runs {l : List ℕ} (h : l.Pairwise (· < ·)) :
    (runs l).IsChain fun r r' => r.2 + 1 < r'.1 := by
  induction l with
  | nil => exact List.IsChain.nil
  | cons n l ih =>
    obtain ⟨hlt, hl⟩ := List.pairwise_cons.mp h
    have hchain := ih hl
    rw [runs_cons]
    cases l with
    | nil => exact List.IsChain.singleton _
    | cons a l =>
      obtain ⟨b, rs, hruns⟩ := runs_head a l
      have ha := hlt a List.mem_cons_self
      rw [hruns] at hchain ⊢
      by_cases hnext : a = n + 1
      · -- The first run grows at its front, so that the gap after it stays.
        rw [extend_of_eq hnext]
        cases rs with
        | nil => exact List.IsChain.singleton _
        | cons r rs =>
          rw [List.isChain_cons_cons] at hchain ⊢
          exact hchain
      · -- The list ascends, and its next number is not the one after, so there is a gap.
        rw [extend_of_ne hnext]
        refine List.IsChain.cons_cons ?_ hchain
        dsimp only
        omega

/-- Every finite set has a list of maximal runs. -/
theorem canonical_runs (S : Finset ℕ) : Canonical S (runs (S.sort (· ≤ ·))) where
  le := le_of_mem_runs
  gap := gap_runs S.sortedLT_sort.pairwise
  mem n := by
    have hmem : n ∈ (runs (S.sort (· ≤ ·))).flatMap run ↔ n ∈ S := by
      rw [flatMap_runs, Finset.mem_sort]
    rw [← hmem, List.mem_flatMap]
    simp only [mem_run]

/-! ## A list of maximal runs -/

/-- No number of the runs is before the first of them. -/
theorem le_of_mem_flatMap_run {r : ℕ × ℕ} {rs : List (ℕ × ℕ)} (hle : ∀ x ∈ r :: rs, x.1 ≤ x.2)
    (hgap : (r :: rs).IsChain fun r r' => r.2 + 1 < r'.1) :
    ∀ n ∈ (r :: rs).flatMap run, r.1 ≤ n := by
  induction rs generalizing r with
  | nil =>
    intro n hn
    rw [List.flatMap_cons, List.flatMap_nil, List.append_nil] at hn
    exact (mem_run.mp hn).1
  | cons r' rs ih =>
    obtain ⟨hnext, hrest⟩ := List.isChain_cons_cons.mp hgap
    intro n hn
    rw [List.flatMap_cons] at hn
    rcases List.mem_append.mp hn with hn | hn
    · exact (mem_run.mp hn).1
    · have hr := hle r List.mem_cons_self
      have hn' := ih (fun x hx => hle x (List.mem_cons_of_mem _ hx)) hrest n hn
      omega

/-- Written out, runs with gaps between them ascend. -/
theorem pairwise_flatMap_run {rs : List (ℕ × ℕ)} (hle : ∀ r ∈ rs, r.1 ≤ r.2)
    (hgap : rs.IsChain fun r r' => r.2 + 1 < r'.1) : (rs.flatMap run).Pairwise (· < ·) := by
  induction rs with
  | nil => exact List.Pairwise.nil
  | cons r rs ih =>
    have hrun : (run r).Pairwise (· < ·) := List.pairwise_lt_range'
    have hle' : ∀ x ∈ rs, x.1 ≤ x.2 := fun x hx => hle x (List.mem_cons_of_mem _ hx)
    rw [List.flatMap_cons, List.pairwise_append]
    refine ⟨hrun, ih hle' hgap.tail, ?_⟩
    intro a ha b hb
    -- What comes later is in a later run, which starts past the end of this one.
    cases rs with
    | nil => cases hb
    | cons r' rs =>
      obtain ⟨hnext, hrest⟩ := List.isChain_cons_cons.mp hgap
      have hb' := le_of_mem_flatMap_run hle' hrest b hb
      have ha' := (mem_run.mp ha).2
      omega

/-- Written out, the maximal runs of a set are the set in ascending order. -/
theorem Canonical.flatMap_run {S : Finset ℕ} {rs : List (ℕ × ℕ)} (h : Canonical S rs) :
    rs.flatMap run = S.sort (· ≤ ·) := by
  have hpairwise := pairwise_flatMap_run h.le h.gap
  have hset : (rs.flatMap run).toFinset = S := by
    ext n
    rw [List.mem_toFinset, List.mem_flatMap, h.mem]
    simp only [mem_run]
  rw [← hset, (List.toFinset_sort (· ≤ ·) (hpairwise.imp Nat.ne_of_lt)).mpr
    (hpairwise.imp Nat.le_of_lt)]

end Runs
