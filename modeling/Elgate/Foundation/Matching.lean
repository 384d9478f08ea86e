import Mathlib.Data.Finset.Card
import Mathlib.Data.List.Count

/-!
# Matching the events of a list with earlier ones

An event may give something, and it may take something, under a key. `Matches` assigns to every
event that takes an earlier event that gave under the same key, to no two the same. The assignment
is extended along a list as long as less has been taken under a key than given
(`Matches.snoc_take`).
-/

namespace Matching

variable {ε κ : Type*}

/-- The event at place `n` has the key `i`. -/
def At (key : ε → Option κ) (l : List ε) (n : ℕ) (i : κ) : Prop := l[n]?.bind key = some i

variable {key : ε → Option κ} {l : List ε} {n : ℕ} {i : κ}

/-- An event has one key. -/
theorem At.unique {i' : κ} (h : At key l n i) (h' : At key l n i') : i = i' :=
  Option.some.inj (h.symm.trans h')

/-- Only the places of the list have a key. -/
theorem At.lt_length (h : At key l n i) : n < l.length := by
  by_contra hge
  rw [At, List.getElem?_eq_none (Nat.le_of_not_lt hge)] at h
  cases h

/-- The places of a list with one more event: the old ones and the last. -/
theorem at_snoc {e : ε} :
    At key (l ++ [e]) n i ↔ At key l n i ∨ (n = l.length ∧ key e = some i) := by
  rcases Nat.lt_trichotomy n l.length with hlt | rfl | hgt
  · simp [At, List.getElem?_append_left hlt, Nat.ne_of_lt hlt]
  · simp [At]
  · have hnone : (l ++ [e])[n]? = none := List.getElem?_eq_none (by rwa [List.length_append])
    simp [At, hnone, Nat.le_of_lt hgt, Nat.ne_of_gt hgt]

/-- The number of places with a key. -/
theorem card_at [DecidableEq κ] (key : ε → Option κ) (i : κ) (l : List ε) :
    ((Finset.range l.length).filter fun n => l[n]?.bind key = some i).card =
      (l.filterMap key).count i := by
  induction l using List.reverseRecOn with
  | nil => simp
  | append_singleton l e ih =>
    have hold : ((Finset.range l.length).filter fun n => (l ++ [e])[n]?.bind key = some i) =
        (Finset.range l.length).filter fun n => l[n]?.bind key = some i := by
      refine Finset.filter_congr fun n hn => ?_
      rw [List.getElem?_append_left (Finset.mem_range.mp hn)]
    rw [List.length_append, List.length_singleton, Finset.range_add_one, Finset.filter_insert,
      List.filterMap_append, List.count_append, hold]
    cases hkey : key e with
    | none => simp [hkey, ih]
    | some i' =>
      by_cases heq : i' = i
      · simp [hkey, heq, ih]
      · simp [hkey, heq, ih]

/-- `f` sends the place of every event that takes to that of an earlier one that gave under the same
key, and no two to the same. -/
structure Matches (give take : ε → Option κ) (l : List ε) (f : ℕ → ℕ) : Prop where
  /-- To an earlier one. -/
  earlier : ∀ n i, At take l n i → f n < n
  /-- Under the same key. -/
  given : ∀ n i, At take l n i → At give l (f n) i
  /-- No two to the same. -/
  injective : ∀ n n' i i', At take l n i → At take l n' i' → f n = f n' → n = n'

variable {give take : ε → Option κ} {f : ℕ → ℕ}

/-- Nothing is taken from an empty list. -/
theorem Matches.nil (f : ℕ → ℕ) : Matches give take [] f where
  earlier _ _ h := absurd h.lt_length (Nat.not_lt_zero _)
  given _ _ h := absurd h.lt_length (Nat.not_lt_zero _)
  injective _ _ _ _ h := absurd h.lt_length (Nat.not_lt_zero _)

/-- An event that does not take. -/
theorem Matches.snoc (h : Matches give take l f) {e : ε} (he : take e = none) :
    Matches give take (l ++ [e]) f := by
  have hold : ∀ {n i}, At take (l ++ [e]) n i → At take l n i := fun hn => by
    rcases at_snoc.mp hn with hn | ⟨-, hn⟩
    · exact hn
    · rw [he] at hn
      cases hn
  exact {
    earlier := fun n i hn => h.earlier n i (hold hn)
    given := fun n i hn => at_snoc.mpr (Or.inl (h.given n i (hold hn)))
    injective := fun n n' i i' hn hn' => h.injective n n' i i' (hold hn) (hold hn') }

/-- Events that do not take. -/
theorem Matches.append (h : Matches give take l f) {es : List ε} (hes : ∀ e ∈ es, take e = none) :
    Matches give take (l ++ es) f := by
  induction es using List.reverseRecOn with
  | nil => rwa [List.append_nil]
  | append_singleton es e ih =>
    rw [← List.append_assoc]
    exact (ih fun e' he' => hes e' (by simp [he'])).snoc (hes e (by simp))

/-- An event that takes under a key under which more has been given than taken. -/
theorem Matches.snoc_take [DecidableEq κ] (h : Matches give take l f) {e : ε} {i : κ}
    (he : take e = some i) (hcount : (l.filterMap take).count i < (l.filterMap give).count i) :
    ∃ f', Matches give take (l ++ [e]) f' := by
  -- One of the events that gave under the key is the image of none that took.
  rw [← card_at, ← card_at] at hcount
  obtain ⟨g, hg, hfree⟩ := Finset.exists_mem_notMem_of_card_lt_card
    (Nat.lt_of_le_of_lt (Finset.card_image_le (f := f)) hcount)
  have hgat : At give l g i := (Finset.mem_filter.mp hg).2
  have hne : ∀ n i', At take l n i' → f n ≠ g := fun n i' hn hfn => by
    have hi : i' = i := (h.given n i' hn).unique (hfn ▸ hgat)
    refine hfree (Finset.mem_image.mpr ⟨n, Finset.mem_filter.mpr ⟨?_, hi ▸ hn⟩, hfn⟩)
    exact Finset.mem_range.mpr hn.lt_length
  have hupd : ∀ n i', At take l n i' → Function.update f l.length g n = f n := fun n i' hn =>
    Function.update_of_ne (Nat.ne_of_lt hn.lt_length) _ _
  refine ⟨Function.update f l.length g, ?_, ?_, ?_⟩
  · intro n i' hn
    rcases at_snoc.mp hn with hn | ⟨rfl, -⟩
    · rw [hupd n i' hn]
      exact h.earlier n i' hn
    · rw [Function.update_self]
      exact hgat.lt_length
  · intro n i' hn
    rcases at_snoc.mp hn with hn | ⟨rfl, hi⟩
    · rw [hupd n i' hn]
      exact at_snoc.mpr (Or.inl (h.given n i' hn))
    · rw [Function.update_self]
      obtain rfl := Option.some.inj (he.symm.trans hi)
      exact at_snoc.mpr (Or.inl hgat)
  · intro n n' i' i'' hn hn' heq
    rcases at_snoc.mp hn with hn | ⟨rfl, -⟩ <;> rcases at_snoc.mp hn' with hn' | ⟨rfl, -⟩
    · rw [hupd n i' hn, hupd n' i'' hn'] at heq
      exact h.injective n n' i' i'' hn hn' heq
    · rw [hupd n i' hn, Function.update_self] at heq
      exact absurd heq (hne n i' hn)
    · rw [hupd n' i'' hn', Function.update_self] at heq
      exact absurd heq.symm (hne n' i'' hn')
    · rfl

end Matching
