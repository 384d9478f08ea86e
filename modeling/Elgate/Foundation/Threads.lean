import Mathlib.Data.List.Perm.Subperm

/-!
# The records of the threads

A list of records, each with the thread that made it, is an interleaving of the lists of its threads
(`byThread`). When one list has for each thread a beginning of what another one has, it has no more
of any record (`subperm_of_byThread`).
-/

namespace Threads

variable {τ α β : Type*} [DecidableEq τ]

/-- The records of one thread. -/
def byThread (t : τ) (l : List (τ × α)) : List (τ × α) := l.filter fun p => p.1 = t

variable (t : τ) (a : α) (l l' : List (τ × α))

@[simp] theorem byThread_nil : byThread t ([] : List (τ × α)) = [] := rfl

@[simp] theorem byThread_append : byThread t (l ++ l') = byThread t l ++ byThread t l' :=
  List.filter_append l l'

@[simp] theorem byThread_self : byThread t [(t, a)] = [(t, a)] := by
  simp [byThread]

variable {t a l l'}

/-- A record of another thread. -/
theorem byThread_of_ne {t' : τ} (h : t' ≠ t) : byThread t [(t', a)] = [] := by
  simp [byThread, h]

/-- Changing the records of all threads alike. -/
theorem byThread_map (f : τ × α → τ × β) (hf : ∀ p, (f p).1 = p.1) :
    byThread t (l.map f) = (byThread t l).map f := by
  rw [byThread, List.filter_map, byThread]
  congr 2
  funext p
  simp [hf]

/-- A record is counted in its thread. -/
theorem count_byThread [DecidableEq α] (p : τ × α) : (byThread p.1 l).count p = l.count p := by
  rw [byThread, List.count_filter (by simp)]

/-- A list that has for each thread a beginning of what the other has. -/
theorem subperm_of_byThread [DecidableEq α] (h : ∀ t, byThread t l <+: byThread t l') :
    l.Subperm l' := by
  rw [List.subperm_ext_iff]
  intro p _
  have hle := (h p.1).sublist.count_le p
  rwa [count_byThread, count_byThread] at hle

end Threads
