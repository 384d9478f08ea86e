import Elgate.Arch.ThreadBuilder

/-!
# Pinning a thread

`pin_thread_to_core` of `src/arch/thread_builder.rs`. What the crate `core_affinity` does is the
argument: the list that `get_core_ids` returns, if it returns one, and the outcome of
`set_for_current`, which pins the thread to the core of the given ID exactly when it returns true.

The function takes the requested ID for a position in the list. `pinThreadToCore_truthful_iff` says
when its result is nevertheless true: when the position that it uses holds the ID that is the
position.
-/

namespace Elgate.Arch

/-- `core_affinity::CoreId`. -/
structure CoreId where
  /-- The ID of the core. -/
  id : ℕ
  deriving DecidableEq, Repr

/-- `core_affinity::set_for_current`, with the core that the thread is pinned to afterwards. -/
def setForCurrent (outcome : Bool) (core : CoreId) (pinned : Option ℕ) : Bool × Option ℕ :=
  if outcome then (true, some core.id) else (false, pinned)

/-- `pin_thread_to_core`: its result, and the core that the thread is pinned to afterwards. -/
def pinThreadToCore (getCoreIds : Option (List CoreId)) (outcome : Bool) (coreId : ℕ)
    (pinned : Option ℕ) : PinningResult × Option ℕ :=
  match getCoreIds with
  | some coreIds =>
    match coreIds[coreId]? with
    | some core =>
      match setForCurrent outcome core pinned with
      | (true, pinned) => (.success, pinned)
      | (false, pinned) => (.failed, pinned)
    | none =>
      if h : coreIds ≠ [] then
        let fallbackCoreId := coreId % coreIds.length
        let fallbackCore := coreIds.get
          ⟨fallbackCoreId, Nat.mod_lt _ (List.length_pos_of_ne_nil h)⟩
        match setForCurrent outcome fallbackCore pinned with
        | (true, pinned) => (.successDifferentCore fallbackCoreId, pinned)
        | (false, pinned) => (.failed, pinned)
      else (.failed, pinned)
  | none => (.unsupported, pinned)

/-- The result is true of the core that the thread is pinned to. -/
structure Truthful (getCoreIds : Option (List CoreId)) (outcome : Bool) (coreId : ℕ)
    (result : PinningResult) (pinned : Option ℕ) : Prop where
  /-- `Success` means the requested core. -/
  success : result = .success → pinned = some coreId
  /-- `SuccessDifferentCore` names the core, which is not the requested one. -/
  different : ∀ core, result = .successDifferentCore core → pinned = some core ∧ core ≠ coreId
  /-- A core that is available is the one that the thread is pinned to, if it is to any. -/
  available : ∀ coreIds ∈ getCoreIds, ⟨coreId⟩ ∈ coreIds → outcome = true → result = .success

/-- The position that the request is looked up at holds the ID that is that position. Past the end
of the list the position is taken modulo its length, and the requested ID is not in the list. -/
def PositionIsId (coreIds : List CoreId) (coreId : ℕ) : Prop :=
  (∀ core, coreIds[coreId]? = some core → core = ⟨coreId⟩) ∧
    (coreIds.length ≤ coreId → ⟨coreId⟩ ∉ coreIds ∧
      ∀ core, coreIds[coreId % coreIds.length]? = some core → core = ⟨coreId % coreIds.length⟩)

section
variable {coreIds : List CoreId} {coreId : ℕ} {core : CoreId}

/-! ## What the function returns -/

/-- The position of the request is in the list. -/
theorem pinThreadToCore_position (hcore : coreIds[coreId]? = some core) (outcome : Bool)
    (pinned : Option ℕ) : pinThreadToCore (some coreIds) outcome coreId pinned =
      if outcome then (.success, some core.id) else (.failed, pinned) := by
  simp only [pinThreadToCore, setForCurrent, hcore]
  cases outcome with
  | true => rfl
  | false => rfl

/-- It is past the end of a list that is not empty. -/
theorem pinThreadToCore_fallback (hlen : coreIds.length ≤ coreId)
    (hcore : coreIds[coreId % coreIds.length]? = some core) (outcome : Bool) (pinned : Option ℕ) :
    pinThreadToCore (some coreIds) outcome coreId pinned =
      if outcome then (.successDifferentCore (coreId % coreIds.length), some core.id)
      else (.failed, pinned) := by
  have hne : coreIds ≠ [] := by
    rintro rfl
    cases hcore
  obtain ⟨hlt, rfl⟩ := List.getElem?_eq_some_iff.mp hcore
  simp only [pinThreadToCore, setForCurrent, List.getElem?_eq_none hlen, dif_pos hne]
  cases outcome with
  | true => rfl
  | false => rfl

/-- The position of a request in a list: it is there, or past the end, where it is taken modulo the
length, or the list is empty. -/
theorem position_cases (coreIds : List CoreId) (coreId : ℕ) :
    (∃ core, coreIds[coreId]? = some core) ∨
      (coreIds.length ≤ coreId ∧ ∃ core, coreIds[coreId % coreIds.length]? = some core) ∨
      coreIds = [] := by
  rcases Nat.lt_or_ge coreId coreIds.length with hlt | hge
  · exact Or.inl ⟨_, List.getElem?_eq_getElem hlt⟩
  · rcases coreIds.eq_nil_or_concat' with hnil | ⟨l, core, rfl⟩
    · exact Or.inr (Or.inr hnil)
    · refine Or.inr (Or.inl ⟨hge, _, List.getElem?_eq_getElem (Nat.mod_lt _ ?_)⟩)
      simp

/-! ## When it is true -/

/-- A result that is no success is true, when the thread could not be pinned. -/
theorem truthful_of_failed {getCoreIds : Option (List CoreId)} {outcome : Bool}
    {result : PinningResult} {pinned : Option ℕ}
    (hresult : result = .failed ∨ result = .unsupported)
    (havailable : ∀ coreIds ∈ getCoreIds, ⟨coreId⟩ ∈ coreIds → outcome = false) :
    Truthful getCoreIds outcome coreId result pinned where
  success := by
    rintro rfl
    rcases hresult with h | h <;> cases h
  different := by
    rintro core rfl
    rcases hresult with h | h <;> cases h
  available := by
    rintro coreIds hcoreIds hmem rfl
    cases havailable coreIds hcoreIds hmem

/-- `Success` is true of the requested core. -/
theorem truthful_success_iff {id : ℕ} :
    Truthful (some coreIds) true coreId .success (some id) ↔ id = coreId := by
  constructor
  · intro h
    exact Option.some.inj (h.success rfl)
  · rintro rfl
    refine ⟨fun _ => rfl, ?_, fun _ _ _ _ => rfl⟩
    rintro core ⟨⟩

/-- `SuccessDifferentCore` is true of the core that it names, when the requested core is not
available. -/
theorem truthful_different_iff {id named : ℕ} (hne : named ≠ coreId) :
    Truthful (some coreIds) true coreId (.successDifferentCore named) (some id) ↔
      ⟨coreId⟩ ∉ coreIds ∧ id = named := by
  constructor
  · intro h
    refine ⟨fun hmem => ?_, Option.some.inj (h.different named rfl).1⟩
    cases h.available coreIds rfl hmem rfl
  · rintro ⟨hmem, rfl⟩
    refine ⟨PinningResult.noConfusion, ?_, ?_⟩
    · rintro core ⟨⟩
      exact ⟨rfl, hne⟩
    · rintro x ⟨⟩ hmem'
      exact absurd hmem' hmem

end

/-- The result of pinning is true exactly when the call of `set_for_current` fails, or the position
that the function uses holds the ID that is that position. -/
theorem pinThreadToCore_truthful_iff (getCoreIds : Option (List CoreId)) (outcome : Bool)
    (coreId : ℕ) (pinned : Option ℕ) :
    Truthful getCoreIds outcome coreId (pinThreadToCore getCoreIds outcome coreId pinned).1
        (pinThreadToCore getCoreIds outcome coreId pinned).2 ↔
      outcome = false ∨ ∀ coreIds ∈ getCoreIds, PositionIsId coreIds coreId := by
  cases getCoreIds with
  | none =>
    refine iff_of_true (truthful_of_failed (Or.inr rfl) ?_) (Or.inr ?_)
    · rintro coreIds ⟨⟩
    · rintro coreIds ⟨⟩
  | some coreIds =>
    have hall : (∀ x ∈ some coreIds, PositionIsId x coreId) ↔ PositionIsId coreIds coreId := by
      simp
    rw [hall]
    rcases position_cases coreIds coreId with ⟨core, hcore⟩ | ⟨hlen, core, hcore⟩ | rfl
    · -- The thread is pinned to the core at the position, and the result is `Success`.
      rw [pinThreadToCore_position hcore]
      cases outcome with
      | false => exact iff_of_true (truthful_of_failed (Or.inl rfl) fun _ _ _ => rfl) (Or.inl rfl)
      | true =>
        have hlt : ¬ coreIds.length ≤ coreId :=
          Nat.not_le_of_lt (List.getElem?_eq_some_iff.mp hcore).1
        simp only [if_true, truthful_success_iff, Bool.true_eq_false, false_or, PositionIsId, hcore,
          hlt, false_implies, and_true]
        constructor
        · rintro hid _ ⟨⟩
          exact congrArg CoreId.mk hid
        · exact fun h => congrArg CoreId.id (h core rfl)
    · -- It is pinned to the core at the position modulo the length, and the result names the
      -- position.
      rw [pinThreadToCore_fallback hlen hcore]
      cases outcome with
      | false => exact iff_of_true (truthful_of_failed (Or.inl rfl) fun _ _ _ => rfl) (Or.inl rfl)
      | true =>
        have hlt := (List.getElem?_eq_some_iff.mp hcore).1
        simp only [if_true, truthful_different_iff (Nat.ne_of_lt (Nat.lt_of_lt_of_le hlt hlen)),
          Bool.true_eq_false, false_or, PositionIsId, List.getElem?_eq_none hlen, hcore, hlen,
          true_implies]
        constructor
        · rintro ⟨hmem, hid⟩
          refine ⟨?_, hmem, ?_⟩
          · rintro _ ⟨⟩
          · rintro _ ⟨⟩
            exact congrArg CoreId.mk hid
        · rintro ⟨-, hmem, hid⟩
          exact ⟨hmem, congrArg CoreId.id (hid core rfl)⟩
    · -- The list is empty, and nothing is pinned.
      refine iff_of_true (truthful_of_failed (Or.inl rfl) ?_) (Or.inr ⟨?_, fun _ => ⟨?_, ?_⟩⟩)
      · rintro _ ⟨⟩ hmem
        cases hmem
      · rintro core ⟨⟩
      · exact List.not_mem_nil
      · rintro core ⟨⟩

/-- The machine has more cores than the two that the process may use, and the second of these is
requested by its position. -/
theorem pinThreadToCore_truthful_fails :
    ¬ ∀ (getCoreIds : Option (List CoreId)) (outcome : Bool) (coreId : ℕ) (pinned : Option ℕ),
      (∀ coreIds ∈ getCoreIds, coreIds.Nodup) →
      Truthful getCoreIds outcome coreId (pinThreadToCore getCoreIds outcome coreId pinned).1
        (pinThreadToCore getCoreIds outcome coreId pinned).2 := by
  intro h
  have hsuccess := (h (some [⟨2⟩, ⟨3⟩]) true 1 none (by simp)).success rfl
  exact absurd hsuccess (by decide)

end Elgate.Arch
