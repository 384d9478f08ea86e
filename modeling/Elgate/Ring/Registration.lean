import Mathlib.Data.List.Perm.Basic
import Elgate.Foundation.Transition
import Elgate.Ring.Geometry

/-!
# The count of active producers

Any number of handles on one file, each of which may be a producer: `create`, `open`,
`register_as_producer`, `unregister_as_producer`, and `drop`. The header counts the producers. Each
handle changes the count at most once before it changes it back, but `create` starts the count again
for handles that are still there. While nobody creates the file anew under a live producer, the
count is right and never goes below zero (`producers_counted`).
-/

namespace Elgate.Ring

open Transition

/-- `RingBuffer::register_as_producer`. -/
def registerAsProducer (header : RingHeader) (rb : RingBuffer) : RingHeader × RingBuffer :=
  if ¬ rb.isProducer then (header.registerProducer, { rb with isProducer := true })
  else (header, rb)

/-- `RingBuffer::unregister_as_producer`. -/
def unregisterAsProducer (header : RingHeader) (rb : RingBuffer) : RingHeader × RingBuffer :=
  if rb.isProducer then (header.unregisterProducer, { rb with isProducer := false })
  else (header, rb)

/-- `Drop for RingBuffer`. -/
def dropRing (header : RingHeader) (rb : RingBuffer) : RingHeader :=
  if rb.isProducer then (unregisterAsProducer header rb).1 else header

/-- The header of a file of zeros. -/
def RingHeader.zeroed : RingHeader := ⟨0, 0, 0, 0, 0, 0, 0, 0, 0, 0, 0⟩

/-- The header that a `create` that panics leaves in the file: the one that it has written if it has
got so far, or zeros. -/
def abandonedHeader (options : RingBufferOptions) (now : ℕ) : RingHeader :=
  match RingHeader.new options.size options.slotSize now with
  | .ok header => header.registerProducer
  | .error _ => .zeroed

/-- A file and the live handles on it. -/
structure Registry where
  /-- The header of the file, once there is one. -/
  header : Option RingHeader
  /-- The handles that have not been dropped. -/
  handles : List RingBuffer

/-- A call, through the handle with the given number where it needs one. -/
inductive RegistryCall
  | create (options : RingBufferOptions) (now : ℕ)
  | openRing (options : RingBufferOptions)
  | register (handle : ℕ)
  | unregister (handle : ℕ)
  | drop (handle : ℕ)

namespace Registry

/-- There is no file and no handle. -/
def start : Registry := ⟨none, []⟩

/-- The number of live handles that are producers. -/
def producers (s : Registry) : ℕ := s.handles.countP fun rb => rb.isProducer

/-- A call through an existing handle, or one that gives a new handle. -/
def step (s : Registry) : RegistryCall → Option Registry
  | .create options now =>
    match create options now with
    | .ok (m, rb) => some ⟨some m.header, s.handles ++ [rb]⟩
    | .error _ => some ⟨some (abandonedHeader options now), s.handles⟩
  | .openRing options =>
    match s.header with
    | none => some s
    | some header =>
      match openRing header options with
      | .ok rb => some ⟨some header, s.handles ++ [rb]⟩
      | .error _ => some s
  | .register handle =>
    match s.header, s.handles[handle]? with
    | some header, some rb =>
      let (header, rb) := registerAsProducer header rb
      some ⟨some header, s.handles.set handle rb⟩
    | _, _ => none
  | .unregister handle =>
    match s.header, s.handles[handle]? with
    | some header, some rb =>
      let (header, rb) := unregisterAsProducer header rb
      some ⟨some header, s.handles.set handle rb⟩
    | _, _ => none
  | .drop handle =>
    match s.header, s.handles[handle]? with
    | some header, some rb => some ⟨some (dropRing header rb), s.handles.eraseIdx handle⟩
    | _, _ => none

/-- The header counts the live producers, and so has one to take off for each of them. -/
def Counted (s : Registry) : Prop :=
  ∀ header, s.header = some header → header.activeProducers = s.producers ∧
    (0 < s.producers → header.unregisterProducer.activeProducers + 1 = header.activeProducers)

/-- The file is created while no live handle is a producer. (A `create` that panics because its
slots do not fit has written a count of one before.) The last number that a word can hold is not
reached. -/
def Unshared (s : Registry) : RegistryCall → Prop
  | .create options _ =>
    s.producers = if options.HasHeader ∧ ¬ options.HasRoom then 1 else 0
  | .register handle =>
    ∀ rb ∈ s.handles[handle]?, rb.isProducer = false → s.producers + 1 < 2^64
  | _ => True

instance (s : Registry) (c : RegistryCall) : Decidable (Unshared s c) := by
  unfold Unshared
  split <;> infer_instance

/-! ## What a call does to the count -/

/-- Taking one off a count that is not zero does not wrap. -/
theorem unregisterProducer_count {header : RingHeader} (h : 0 < header.activeProducers)
    (hlt : header.activeProducers < 2^64) :
    header.unregisterProducer.activeProducers + 1 = header.activeProducers := by
  show (header.activeProducers + (2^64 - 1)) % 2^64 + 1 = header.activeProducers
  omega

/-- After `register_as_producer` the handle is a producer, and counted, when the counter has
room. -/
theorem registerAsProducer_count {header : RingHeader} {rb : RingBuffer}
    (hroom : rb.isProducer = false → header.activeProducers + 1 < 2^64) :
    (registerAsProducer header rb).2.isProducer = true ∧
      (registerAsProducer header rb).1.activeProducers + (if rb.isProducer then 1 else 0) =
        header.activeProducers + 1 := by
  unfold registerAsProducer
  cases hrb : rb.isProducer with
  | true => exact ⟨hrb, rfl⟩
  | false => exact ⟨rfl, Nat.mod_eq_of_lt (hroom hrb)⟩

/-- After `unregister_as_producer` the handle is no producer, and not counted. -/
theorem unregisterAsProducer_count {header : RingHeader} {rb : RingBuffer}
    (hpos : rb.isProducer = true → 0 < header.activeProducers)
    (hlt : header.activeProducers < 2^64) :
    (unregisterAsProducer header rb).2.isProducer = false ∧
      (unregisterAsProducer header rb).1.activeProducers + (if rb.isProducer then 1 else 0) =
        header.activeProducers := by
  unfold unregisterAsProducer
  cases hrb : rb.isProducer with
  | true => exact ⟨rfl, unregisterProducer_count (hpos hrb) hlt⟩
  | false => exact ⟨hrb, rfl⟩

/-- A drop is `unregister_as_producer`. -/
theorem dropRing_eq (header : RingHeader) (rb : RingBuffer) :
    dropRing header rb = (unregisterAsProducer header rb).1 := by
  unfold dropRing unregisterAsProducer
  cases rb.isProducer with
  | true => rfl
  | false => rfl

/-- A created ring counts its creator. -/
theorem create_count {options : RingBufferOptions} {now : ℕ} {m : RingMemory} {rb : RingBuffer}
    (h : create options now = .ok (m, rb)) :
    rb.isProducer = true ∧ m.header.activeProducers = 1 := by
  obtain ⟨header, hnew, h⟩ := bind_eq_ok h
  obtain ⟨m', hreset, h⟩ := bind_eq_ok h
  obtain ⟨rfl, rfl⟩ := Prod.mk.inj (pure_eq_ok h)
  have hm := resetSlots_ok hreset fun i => by exact Slot.reset_zeroed _
  refine ⟨rfl, ?_⟩
  obtain ⟨room, -, hnew⟩ := bind_eq_ok hnew
  split at hnew
  · exact absurd hnew throw_ne_ok
  · obtain rfl := pure_eq_ok hnew
    rw [hm]
    rfl

/-- The count that a `create` that panics leaves. -/
theorem abandonedHeader_count {options : RingBufferOptions} {now : ℕ} {e : Fault}
    (h : create options now = .error e) : (abandonedHeader options now).activeProducers =
      if options.HasHeader ∧ ¬ options.HasRoom then 1 else 0 := by
  unfold abandonedHeader
  rcases RingHeader.new_cases options now with ⟨hheader, header, hnew, -⟩ | ⟨hheader, p, hnew⟩
  · have hroom : ¬ options.HasRoom := by
      rcases create_cases options now with ⟨-, -, m, rb, hc⟩ | ⟨hfails, -⟩
      · rw [h] at hc
        cases hc
      · exact fun hroom => hfails ⟨hheader, hroom⟩
    rw [hnew, if_pos ⟨hheader, hroom⟩]
    obtain ⟨room, -, hnew⟩ := bind_eq_ok hnew
    split at hnew
    · exact absurd hnew throw_ne_ok
    · obtain rfl := pure_eq_ok hnew
      rfl
  · rw [hnew, if_neg fun hc => hheader hc.1]
    rfl

section
variable {s s' : Registry} {header : RingHeader} {rb : RingBuffer} {handle : ℕ}

/-- A live producer is one of the producers. -/
theorem producers_pos (h : s.handles[handle]? = some rb) (hrb : rb.isProducer = true) :
    0 < s.producers :=
  List.countP_pos_iff.mpr ⟨rb, List.mem_of_getElem? h, hrb⟩

/-- The producers after one handle is replaced. -/
theorem producers_set (h : s.handles[handle]? = some rb) (rb' : RingBuffer)
    (header : Option RingHeader) :
    producers ⟨header, s.handles.set handle rb'⟩ + (if rb.isProducer then 1 else 0) =
      s.producers + if rb'.isProducer then 1 else 0 := by
  obtain ⟨hlt, hget⟩ := List.getElem?_eq_some_iff.mp h
  have hmem : rb.isProducer = true → 0 < s.producers := producers_pos h
  unfold producers at hmem ⊢
  rw [List.countP_set hlt, hget]
  cases hrb : rb.isProducer with
  | false => simp
  | true =>
    have hpos := hmem hrb
    simp only [if_true]
    omega

/-- The producers after one handle is dropped. -/
theorem producers_eraseIdx (h : s.handles[handle]? = some rb) (header : Option RingHeader) :
    producers ⟨header, s.handles.eraseIdx handle⟩ + (if rb.isProducer then 1 else 0) =
      s.producers := by
  obtain ⟨hlt, hget⟩ := List.getElem?_eq_some_iff.mp h
  have hperm := List.getElem_cons_eraseIdx_perm hlt
  unfold producers
  rw [← hperm.countP_eq, hget, List.countP_cons]

/-- A new handle is one producer more, or none. -/
theorem producers_snoc (header : Option RingHeader) (rb : RingBuffer) :
    producers ⟨header, s.handles ++ [rb]⟩ = s.producers + if rb.isProducer then 1 else 0 := by
  unfold producers
  rw [List.countP_append, List.countP_singleton]

/-- A state of the handles in which the count is right. -/
structure Inv (s : Registry) : Prop where
  /-- The count is right. -/
  count : ∀ header, s.header = some header → header.activeProducers = s.producers
  /-- The producers can be counted. -/
  lt : s.producers < 2^64

/-- A count that is right has one to take off for each producer. -/
theorem Inv.counted (h : Inv s) : s.Counted := by
  intro header hs
  have hcount := h.count header hs
  have hlt := h.lt
  refine ⟨hcount, fun hpos => unregisterProducer_count ?_ ?_⟩ <;> omega

/-- What `unregister_as_producer` takes off a count that is right. -/
theorem Inv.unregisterAsProducer_count (h : Inv s) (hs : s.header = some header)
    (hrb : s.handles[handle]? = some rb) :
    (unregisterAsProducer header rb).2.isProducer = false ∧
      (unregisterAsProducer header rb).1.activeProducers + (if rb.isProducer then 1 else 0) =
        header.activeProducers := by
  have hcount := h.count header hs
  refine Registry.unregisterAsProducer_count (fun hp => ?_) ?_
  · rw [hcount]
    exact producers_pos hrb hp
  · rw [hcount]
    exact h.lt

/-- A created file counts its creator only, and nobody else was a producer. -/
theorem Inv.create (h : Inv s) {options : RingBufferOptions} {now : ℕ}
    (hok : s.producers = if options.HasHeader ∧ ¬ options.HasRoom then 1 else 0)
    (hstep : s.step (.create options now) = some s') : Inv s' := by
  simp only [Registry.step] at hstep
  split at hstep
  · rename_i m rb hc
    obtain rfl := Option.some.inj hstep
    obtain ⟨hrb, hcount⟩ := create_count hc
    have hnone : s.producers = 0 := by
      rcases create_cases options now with ⟨hheader, hroom, -⟩ | ⟨-, p, hp⟩
      · exact hok.trans (if_neg fun hno => hno.2 hroom)
      · rw [hc] at hp
        cases hp
    have hone : producers ⟨some m.header, s.handles ++ [rb]⟩ = 1 := by
      rw [producers_snoc, hnone, hrb, if_pos rfl]
    constructor
    · rintro header ⟨⟩
      rw [hone, hcount]
    · rw [hone]
      decide
  · -- The handle of a `create` that panics does not come to be.
    rename_i e hc
    obtain rfl := Option.some.inj hstep
    constructor
    · rintro header ⟨⟩
      exact (abandonedHeader_count hc).trans hok.symm
    · exact h.lt

/-- A ring is opened by a handle that is no producer. -/
theorem Inv.openRing (h : Inv s) {options : RingBufferOptions}
    (hstep : s.step (.openRing options) = some s') : Inv s' := by
  simp only [Registry.step] at hstep
  split at hstep
  · obtain rfl := Option.some.inj hstep
    exact h
  · rename_i header hs
    split at hstep
    · rename_i rb hopen
      obtain rfl := Option.some.inj hstep
      have hrb : rb.isProducer = false := by
        unfold Ring.openRing at hopen
        split at hopen
        · obtain rfl := pure_eq_ok hopen
          rfl
        · exact absurd hopen throw_ne_ok
      have hsame : producers ⟨some header, s.handles ++ [rb]⟩ = s.producers := by
        rw [producers_snoc, hrb]
        rfl
      constructor
      · rintro header' ⟨⟩
        rw [hsame, h.count header hs]
      · rw [hsame]
        exact h.lt
    · obtain rfl := Option.some.inj hstep
      exact h

/-- A handle that becomes a producer is counted. -/
theorem Inv.register (h : Inv s)
    (hok : ∀ rb ∈ s.handles[handle]?, rb.isProducer = false → s.producers + 1 < 2^64)
    (hstep : s.step (.register handle) = some s') : Inv s' := by
  simp only [Registry.step] at hstep
  split at hstep
  · rename_i header rb hs hrb
    obtain rfl := Option.some.inj hstep
    have hold := h.count header hs
    have hlt := h.lt
    have hroom := hok rb hrb
    rw [← hold] at hroom
    obtain ⟨hnew, hcount⟩ := registerAsProducer_count hroom
    have hset := producers_set hrb (registerAsProducer header rb).2
      (some (registerAsProducer header rb).1)
    rw [hnew, if_pos rfl] at hset
    constructor
    · rintro header' ⟨⟩
      omega
    · cases hp : rb.isProducer with
      | true =>
        rw [hp, if_pos rfl] at hset
        omega
      | false =>
        have hone := hroom hp
        rw [hp, if_neg Bool.false_ne_true] at hset
        omega
  · cases hstep

/-- A handle that ceases to be a producer is not counted. -/
theorem Inv.unregister (h : Inv s) (hstep : s.step (.unregister handle) = some s') : Inv s' := by
  simp only [Registry.step] at hstep
  split at hstep
  · rename_i header rb hs hrb
    obtain rfl := Option.some.inj hstep
    obtain ⟨hnew, hcount⟩ := h.unregisterAsProducer_count hs hrb
    have hold := h.count header hs
    have hlt := h.lt
    have hset := producers_set hrb (unregisterAsProducer header rb).2
      (some (unregisterAsProducer header rb).1)
    rw [hnew, if_neg Bool.false_ne_true] at hset
    constructor
    · rintro header' ⟨⟩
      omega
    · omega
  · cases hstep

/-- A handle that is dropped is not counted. -/
theorem Inv.drop (h : Inv s) (hstep : s.step (.drop handle) = some s') : Inv s' := by
  simp only [Registry.step] at hstep
  split at hstep
  · rename_i header rb hs hrb
    obtain rfl := Option.some.inj hstep
    obtain ⟨-, hcount⟩ := h.unregisterAsProducer_count hs hrb
    have hold := h.count header hs
    have hlt := h.lt
    have herase := producers_eraseIdx hrb (some (dropRing header rb))
    rw [dropRing_eq] at herase ⊢
    constructor
    · rintro header' ⟨⟩
      omega
    · omega
  · cases hstep

/-- A call that meets the condition keeps the count right. -/
theorem Inv.step {c : RegistryCall} (h : Inv s) (hok : Unshared s c) (hstep : s.step c = some s') :
    Inv s' := by
  cases c with
  | create options now => exact h.create hok hstep
  | openRing options => exact h.openRing hstep
  | register handle => exact h.register hok hstep
  | unregister handle => exact h.unregister hstep
  | drop handle => exact h.drop hstep

end

end Registry

/-- While the file is created anew only when no live handle is a producer, the header counts the
live producers, and taking one of them off does not wrap. -/
theorem producers_counted {s : Registry}
    (hrun : Reaches Registry.step Registry.Unshared Registry.start s) : s.Counted := by
  have hstart : Registry.Inv Registry.start := ⟨by rintro header ⟨⟩, by decide⟩
  have hinv : Registry.Inv s := hrun.invariant hstart fun _ _ _ h hok hstep => h.step hok hstep
  exact hinv.counted

/-- A second `create` on the path of a live producer: once both are dropped, the count has gone
below zero. -/
theorem producers_counted_fails : ∃ s,
    Reaches Registry.step Always Registry.start s ∧ s.handles = [] ∧
      s.header.map RingHeader.activeProducers = some (2^64 - 1) ∧ ¬ s.Counted := by
  have hrun : ∃ s, Reaches Registry.step Always Registry.start s ∧ s.handles = [] ∧
      s.header.map RingHeader.activeProducers = some (2^64 - 1) := by
    refine ⟨_, Reaches.get_runWhere [.create ⟨448, 128⟩ 0, .create ⟨448, 128⟩ 0, .drop 0, .drop 0]
      (by decide +kernel), ?_, ?_⟩ <;> decide +kernel
  obtain ⟨s, hreach, hhandles, hheader⟩ := hrun
  refine ⟨s, hreach, hhandles, hheader, fun hcounted => ?_⟩
  obtain ⟨header, hs, hactive⟩ := Option.map_eq_some_iff.mp hheader
  have hzero := (hcounted header hs).1
  rw [hactive, Registry.producers, hhandles] at hzero
  revert hzero
  decide

/-- Two handles on one ring, one of which is dropped and the other registered twice. -/
theorem producers_counted_twoHandles : ∃ s header,
    Reaches Registry.step Registry.Unshared Registry.start s ∧ s.header = some header ∧
      s.producers = 1 ∧ header.activeProducers = 1 := by
  have hrun : ∃ s header, Reaches Registry.step Registry.Unshared Registry.start s ∧
      s.header = some header ∧ s.producers = 1 := by
    refine ⟨_, _, Reaches.get_runWhere [.create ⟨448, 128⟩ 0, .openRing ⟨448, 128⟩, .drop 0,
      .register 0, .register 0] (by decide +kernel),
      Option.some_get (by decide +kernel) |>.symm, ?_⟩
    decide +kernel
  obtain ⟨s, header, hreach, hs, hone⟩ := hrun
  exact ⟨s, header, hreach, hs, hone, ((producers_counted hreach) header hs).1.trans hone⟩

end Elgate.Ring
