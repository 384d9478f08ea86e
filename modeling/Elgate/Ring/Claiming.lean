import Elgate.Foundation.Cyclic
import Elgate.Foundation.Exchange
import Elgate.Ring.Steps
import Elgate.Ring.Create

/-!
# Claiming indices

`next_producer_idx` and `next_consumer_idx` of `src/ring/header.rs`, called by any number of threads
on one header and taken apart into their loads and compare-exchanges. Each of the two indices is the
cell of a compare-exchange loop (`Claimers.loop_step`), which all claims move on by one modulo the
slot count. A compare-exchange on an index that has gone round since it was loaded is a claim like
any other: what counts is the index at the exchange (`claims_linearizable`).

The calls of `write` and `read` claim their slots with these functions. In every run of them the
threads claim as threads that do nothing else (`System.claimsAs_of_reaches`), so the slots that they
claim are numbered in the same way (`System.claimedIdx_numbered`).
-/

namespace Elgate.Ring

open Threads Transition

/-- The two ends of a ring. -/
inductive Side
  | producer
  | consumer
  deriving DecidableEq, Repr

namespace RingHeader

/-- `producer_idx` or `consumer_idx`. -/
def idx (header : RingHeader) : Side → ℕ
  | .producer => header.producerIdx
  | .consumer => header.consumerIdx

/-- The header with a new index at one end. -/
def setIdx (header : RingHeader) (idx : ℕ) : Side → RingHeader
  | .producer => { header with producerIdx := idx }
  | .consumer => { header with consumerIdx := idx }

variable (header : RingHeader) (i : ℕ) {side side' : Side}

@[simp]
theorem idx_setIdx (side : Side) : (header.setIdx i side).idx side = i := by
  cases side <;> rfl

@[simp]
theorem slotCount_setIdx (side : Side) : (header.setIdx i side).slotCount = header.slotCount := by
  cases side <;> rfl

/-- The index at the other end stays. -/
theorem idx_setIdx_of_ne (h : side ≠ side') :
    (header.setIdx i side').idx side = header.idx side := by
  cases side <;> cases side' <;> first | rfl | exact absurd rfl h

end RingHeader

/-- The next step of a call of `next_producer_idx` or `next_consumer_idx`. -/
inductive IdxPc
  /-- It loads the index. -/
  | loadIdx
  /-- It loads the slot count. -/
  | loadSlotCount (current : ℕ)
  /-- It computes the next index, and exchanges the index for it. -/
  | compareExchange (current slotCount : ℕ)
  /-- It returns the index that it has claimed. -/
  | returning (idx : ℕ)

/-- What a thread has done. -/
inductive IdxEvent
  /-- It has called the function of this end. -/
  | called (side : Side)
  /-- Its compare-exchange has succeeded. -/
  | exchanged (side : Side) (idx : ℕ)
  /-- Its call has returned. -/
  | returned (side : Side) (idx : ℕ)
  /-- Its call has panicked. -/
  | panicked (side : Side)

/-- A header, and the threads that claim indices of it. -/
structure Claimers (τ : Type) where
  /-- The header. -/
  header : RingHeader
  /-- The call that a thread is in. -/
  thread : τ → Option (Side × IdxPc)
  /-- What the threads have done, the first event first. -/
  history : List (τ × IdxEvent)

/-- A step of a thread. -/
inductive IdxAction (τ : Type)
  | call (t : τ) (side : Side)
  | step (t : τ) (spurious : Bool)

namespace Claimers

section
variable {τ : Type}

/-- No call is in progress. -/
def start (header : RingHeader) : Claimers τ := ⟨header, fun _ => none, []⟩

variable [DecidableEq τ]

/-- The threads after a step of one of them. -/
def after (s : Claimers τ) (t : τ) (header : RingHeader) (pc : Option (Side × IdxPc))
    (events : List IdxEvent) : Claimers τ where
  header := header
  thread := Function.update s.thread t pc
  history := s.history ++ events.map (Prod.mk t)

/-- A step of `next_producer_idx`, or of `next_consumer_idx`. A failed exchange gives the call the
index in the header. The addition does not overflow where the indices are those of slots, as in the
runs below. -/
def stepIdx (s : Claimers τ) (t : τ) (spurious : Bool) (side : Side) : IdxPc → Claimers τ
  | .loadIdx => s.after t s.header (some (side, .loadSlotCount (s.header.idx side))) []
  | .loadSlotCount current =>
    s.after t s.header (some (side, .compareExchange current s.header.slotCount)) []
  | .compareExchange current slotCount =>
    if slotCount = 0 then s.after t s.header none [.panicked side]
    else if s.header.idx side = current ∧ spurious = false then
      s.after t (s.header.setIdx ((current + 1) % slotCount) side) (some (side, .returning current))
        [.exchanged side current]
    else s.after t s.header (some (side, .compareExchange (s.header.idx side) slotCount)) []
  | .returning idx => s.after t s.header none [.returned side idx]

/-- A step of the threads: one in no call may start one, and one in a call takes its next step. -/
def step (s : Claimers τ) : IdxAction τ → Option (Claimers τ)
  | .call t side =>
    match s.thread t with
    | none => some (s.after t s.header (some (side, .loadIdx)) [.called side])
    | some _ => none
  | .step t spurious => (s.thread t).map fun (side, pc) => s.stepIdx t spurious side pc

/-- What a step of the threads is. -/
theorem step_cases {s s' : Claimers τ} {a : IdxAction τ} (h : s.step a = some s') :
    (∃ t side, a = .call t side ∧ s.thread t = none ∧
      s' = s.after t s.header (some (side, .loadIdx)) [.called side]) ∨
    ∃ t spurious side pc, a = .step t spurious ∧ s.thread t = some (side, pc) ∧
      s' = s.stepIdx t spurious side pc := by
  cases a with
  | call t side =>
    unfold step at h
    dsimp only at h
    split at h
    · rename_i hidle
      exact Or.inl ⟨t, side, rfl, hidle, (Option.some.inj h).symm⟩
    · cases h
  | step t spurious =>
    obtain ⟨⟨side, pc⟩, hpc, hs'⟩ := Option.map_eq_some_iff.mp h
    exact Or.inr ⟨t, spurious, side, pc, rfl, hpc, hs'.symm⟩

end

end Claimers

/-! ## One end as a compare-exchange loop -/

/-- The place in the loop. The slot count is always the same, so a load of it is no step of the
loop. -/
def IdxPc.loop : IdxPc → Exchange.Pc ℕ
  | .loadIdx => .load
  | .loadSlotCount current | .compareExchange current _ => .exchange current
  | .returning idx => .returning idx

/-- The call of a thread, when it is at this end. -/
def loopPc (side : Side) : Option (Side × IdxPc) → Option (Exchange.Pc ℕ)
  | none => none
  | some (side', pc) => if side' = side then some pc.loop else none

/-- What has been done at this end. -/
def IdxEvent.loop (side : Side) : IdxEvent → Option (Exchange.Event ℕ)
  | .called side' => if side' = side then some .called else none
  | .exchanged side' idx => if side' = side then some (.exchanged idx) else none
  | .returned side' idx => if side' = side then some (.returned idx) else none
  | .panicked _ => none

namespace Claimers

variable {τ : Type} {N : ℕ} {s : Claimers τ} {side : Side}

/-- One end of the ring. -/
def loop (s : Claimers τ) (side : Side) : Exchange.State τ ℕ where
  cell := s.header.idx side
  thread t := loopPc side (s.thread t)
  history := s.history.filterMap fun p => (p.2.loop side).map (Prod.mk p.1)

/-- The claims at one end, in the order of the successful compare-exchanges. -/
def claims (s : Claimers τ) (side : Side) : List (τ × ℕ) := Exchange.exchanges (s.loop side).history

/-- The number of slots is what every call has loaded. -/
structure Counted (N : ℕ) (s : Claimers τ) : Prop where
  /-- There are `N` slots. -/
  slotCount : s.header.slotCount = N
  /-- A call that is about to compute the next index has loaded that. -/
  loaded : ∀ t side current slotCount,
    s.thread t = some (side, .compareExchange current slotCount) → slotCount = N

variable [DecidableEq τ]

/-- A step, seen from one end. -/
theorem loop_after (s : Claimers τ) (side : Side) (t : τ) (header : RingHeader)
    (pc : Option (Side × IdxPc)) (events : List IdxEvent) :
    (s.after t header pc events).loop side =
      (s.loop side).after t (header.idx side) (loopPc side pc)
        (events.filterMap (IdxEvent.loop side)) := by
  unfold loop after Exchange.State.after
  congr 1
  · funext t'
    dsimp only
    by_cases ht : t' = t
    · rw [ht, Function.update_self, Function.update_self]
    · rw [Function.update_of_ne ht, Function.update_of_ne ht]
  · dsimp only
    rw [List.filterMap_append, List.filterMap_map, List.map_filterMap]
    rfl

/-- A step of a thread that is not at this end, and does nothing there. -/
theorem loop_after_of_none {t : τ} {header : RingHeader} {pc : Option (Side × IdxPc)}
    {events : List IdxEvent} (hold : loopPc side (s.thread t) = none)
    (hheader : header.idx side = s.header.idx side) (hpc : loopPc side pc = none)
    (hevents : ∀ ev ∈ events, ev.loop side = none) :
    (s.after t header pc events).loop side = s.loop side := by
  have hnone : (s.loop side).thread t = none := hold
  have hnothing : events.filterMap (IdxEvent.loop side) = [] :=
    List.filterMap_eq_nil_iff.mpr hevents
  rw [loop_after, hheader, hpc, hnothing, ← hnone]
  exact (s.loop side).after_self t

/-- A step of a thread that stays at this end. -/
theorem loop_after_of_some (s : Claimers τ) (t : τ) (header : RingHeader) (pc : IdxPc)
    (events : List IdxEvent) :
    (s.after t header (some (side, pc)) events).loop side =
      (s.loop side).after t (header.idx side) (some pc.loop)
        (events.filterMap (IdxEvent.loop side)) := by
  have hpc : loopPc side (some (side, pc)) = some pc.loop := if_pos rfl
  rw [loop_after, hpc]

/-- A step at the other end. -/
theorem loop_stepIdx_of_ne {side' : Side} (hne : side' ≠ side) {t : τ} {pc : IdxPc}
    (hpc : s.thread t = some (side', pc)) (spurious : Bool) :
    (s.stepIdx t spurious side' pc).loop side = s.loop side := by
  have hold : loopPc side (s.thread t) = none := by
    rw [hpc]
    exact if_neg hne
  cases pc with
  | loadIdx | loadSlotCount => exact loop_after_of_none hold rfl (if_neg hne) (by simp)
  | compareExchange current slotCount =>
    unfold stepIdx
    dsimp only
    split
    · exact loop_after_of_none hold rfl rfl (by simp [IdxEvent.loop])
    · split
      · exact loop_after_of_none hold (s.header.idx_setIdx_of_ne _ hne.symm) (if_neg hne)
          (by simp [IdxEvent.loop, hne])
      · exact loop_after_of_none hold rfl (if_neg hne) (by simp)
  | returning idx => exact loop_after_of_none hold rfl rfl (by simp [IdxEvent.loop, hne])

/-- A step at this end is one of the loop, or it loads the slot count. -/
theorem loop_stepIdx (hN : 0 < N) (h : s.Counted N) {t : τ} {pc : IdxPc}
    (hpc : s.thread t = some (side, pc)) (spurious : Bool) :
    (s.stepIdx t spurious side pc).loop side = s.loop side ∨
      Exchange.step (fun i => (i + 1) % N) (s.loop side) (.step t spurious) =
        some ((s.stepIdx t spurious side pc).loop side) := by
  have hown : (s.loop side).thread t = some pc.loop := by
    show loopPc side (s.thread t) = _
    rw [hpc]
    exact if_pos rfl
  unfold Exchange.step stepIdx
  dsimp only
  rw [hown, Option.map_some]
  cases pc with
  | loadIdx =>
    right
    dsimp only
    rw [loop_after_of_some]
    rfl
  | loadSlotCount current =>
    -- The place in the loop is the same before and after.
    left
    dsimp only
    rw [loop_after_of_some]
    exact hown ▸ (s.loop side).after_self t
  | compareExchange current slotCount =>
    -- The exchange of the index is the exchange of the cell, for the next index is computed from
    -- the number of slots that every call has loaded.
    obtain rfl : slotCount = N := h.loaded t side current slotCount hpc
    right
    unfold Exchange.stepPc IdxPc.loop
    dsimp only
    rw [if_neg (Nat.ne_of_gt hN)]
    by_cases hsucc : s.header.idx side = current ∧ spurious = false
    · have hcell : (s.loop side).cell = current ∧ spurious = false := hsucc
      have hevent : [IdxEvent.exchanged side current].filterMap (IdxEvent.loop side) =
        [.exchanged current] := List.filterMap_cons_some (if_pos rfl)
      rw [if_pos hsucc, if_pos hcell, loop_after_of_some, RingHeader.idx_setIdx, hevent]
      rfl
    · have hcell : ¬ ((s.loop side).cell = current ∧ spurious = false) := hsucc
      rw [if_neg hsucc, if_neg hcell, loop_after_of_some]
      rfl
  | returning idx =>
    right
    have hevent : [IdxEvent.returned side idx].filterMap (IdxEvent.loop side) = [.returned idx] :=
      List.filterMap_cons_some (if_pos rfl)
    dsimp only
    rw [loop_after, hevent]
    rfl

/-- A step keeps the number of slots. -/
theorem Counted.after (h : s.Counted N) {t : τ} {header : RingHeader}
    {pc : Option (Side × IdxPc)} {events : List IdxEvent}
    (hheader : header.slotCount = s.header.slotCount)
    (hpc : ∀ side current slotCount, pc = some (side, .compareExchange current slotCount) →
      slotCount = N) : (s.after t header pc events).Counted N where
  slotCount := hheader.trans h.slotCount
  loaded t' side current slotCount ht' := by
    unfold Claimers.after at ht'
    dsimp only at ht'
    by_cases ht : t' = t
    · rw [ht, Function.update_self] at ht'
      exact hpc side current slotCount ht'
    · rw [Function.update_of_ne ht] at ht'
      exact h.loaded t' side current slotCount ht'

/-- So does a step of a call. -/
theorem Counted.stepIdx (h : s.Counted N) {t : τ} {pc : IdxPc}
    (hpc : s.thread t = some (side, pc)) (spurious : Bool) :
    (s.stepIdx t spurious side pc).Counted N := by
  cases pc with
  | loadIdx | returning => exact h.after rfl fun _ _ _ hpc' => by cases hpc'
  | loadSlotCount current =>
    refine h.after rfl ?_
    rintro _ _ _ ⟨⟩
    exact h.slotCount
  | compareExchange current slotCount =>
    have hcount : slotCount = N := h.loaded t side current slotCount hpc
    unfold Claimers.stepIdx
    dsimp only
    split
    · exact h.after rfl fun _ _ _ hpc' => by cases hpc'
    · split
      · exact h.after (s.header.slotCount_setIdx _ side) fun _ _ _ hpc' => by cases hpc'
      · refine h.after rfl ?_
        rintro _ _ _ ⟨⟩
        exact hcount

/-- A call starts at one end. -/
theorem loop_call {t : τ} (hidle : s.thread t = none) (side' : Side) :
    (s.after t s.header (some (side', .loadIdx)) [.called side']).loop side = s.loop side ∨
      Exchange.step (fun i => (i + 1) % N) (s.loop side) (.call t) =
        some ((s.after t s.header (some (side', .loadIdx)) [.called side']).loop side) := by
  have hnone : loopPc side (s.thread t) = none := by
    rw [hidle]
    rfl
  by_cases hside : side' = side
  · right
    have hcall : (s.loop side).thread t = none := hnone
    have hpc : loopPc side (some (side', IdxPc.loadIdx)) = some .load := if_pos hside
    have hevent : [IdxEvent.called side'].filterMap (IdxEvent.loop side) = [.called] :=
      List.filterMap_cons_some (if_pos hside)
    unfold Exchange.step
    dsimp only
    rw [hcall, loop_after, hpc, hevent]
    rfl
  · left
    exact loop_after_of_none hnone rfl (if_neg hside) (by simp [IdxEvent.loop, hside])

/-- Every step keeps it, and is at either end one of the loop, or none. -/
theorem loop_step (hN : 0 < N) (h : s.Counted N) {a : IdxAction τ} {s' : Claimers τ}
    (hstep : s.step a = some s') :
    s'.Counted N ∧ ∀ side, s'.loop side = s.loop side ∨
      ∃ a', Exchange.step (fun i => (i + 1) % N) (s.loop side) a' = some (s'.loop side) := by
  rcases step_cases hstep with ⟨t, side', -, hidle, rfl⟩ | ⟨t, spurious, side', pc, -, hpc, rfl⟩
  · refine ⟨h.after rfl (fun _ _ _ hpc' => by cases hpc'), fun side => ?_⟩
    exact (loop_call hidle side').imp_right fun hloop => ⟨_, hloop⟩
  · refine ⟨h.stepIdx hpc spurious, fun side => ?_⟩
    by_cases hside : side' = side
    · rw [hside] at hpc ⊢
      exact (loop_stepIdx hN h hpc spurious).imp_right fun hloop => ⟨_, hloop⟩
    · exact Or.inl (loop_stepIdx_of_ne hside hpc spurious)

/-- A run is at either end a run of the loop. -/
theorem loop_reaches {header : RingHeader} (hN : 0 < header.slotCount)
    (hrun : Reaches step Always (start header) s) (side : Side) :
    Reaches (Exchange.step fun i => (i + 1) % header.slotCount) Always
      (Exchange.start (header.idx side)) (s.loop side) := by
  have hstart : (start header : Claimers τ).Counted header.slotCount :=
    ⟨rfl, fun t side current slotCount hidle => by cases hidle⟩
  have hinv : s.Counted header.slotCount ∧
      Reaches (Exchange.step fun i => (i + 1) % header.slotCount) Always
        (Exchange.start (header.idx side)) (s.loop side) := by
    apply hrun.invariant ⟨hstart, Reaches.refl _⟩
    intro u a u' hu _ hstep
    obtain ⟨hcounted, hloops⟩ := loop_step hN hu.1 hstep
    refine ⟨hcounted, ?_⟩
    rcases hloops side with hsame | ⟨a', hstep'⟩
    · rw [hsame]
      exact hu.2
    · exact hu.2.next trivial hstep'
  exact hinv.2

/-- The claims at either end number the slots round and round. -/
theorem claims_values {header : RingHeader} (hN : 0 < header.slotCount)
    (hzero : ∀ side, header.idx side = 0) (hrun : Reaches step Always (start header) s)
    (side : Side) : (s.claims side).map Prod.snd =
      (List.range (s.claims side).length).map (· % header.slotCount) := by
  have hlinear := Exchange.Linear.of_reaches (loop_reaches hN hrun side)
  rw [hzero side] at hlinear
  refine hlinear.values.trans (List.map_congr_left fun k _ => ?_)
  exact Cyclic.iterate_next hN k

end Claimers

/-- Any number of threads call `next_producer_idx` and `next_consumer_idx` on a header whose indices
are zero. At either end the claims number the slots round and round, in the order of the successful
compare-exchanges. So no two of as many claims in a row as there are slots are of one slot, the
index counts the claims, and every call makes one claim, before it returns, and returns it. -/
theorem claims_linearizable {τ : Type} [DecidableEq τ] {header : RingHeader}
    (hN : 0 < header.slotCount) (hzero : ∀ side, header.idx side = 0) {s : Claimers τ}
    (hrun : Reaches Claimers.step Always (Claimers.start header) s) (side : Side) :
    (∀ t (ht : t < (s.claims side).length), (s.claims side)[t].2 = t % header.slotCount) ∧
    (∀ t, (((s.claims side).drop t).take header.slotCount |>.map Prod.snd).Nodup) ∧
    s.header.idx side = (s.claims side).length % header.slotCount ∧
    ∀ t, ∃ idxs : List ℕ, byThread t (s.loop side).history =
      (idxs.flatMap Exchange.callEvents ++ Exchange.pendingEvents ((s.loop side).thread t)).map
        (Prod.mk t) := by
  have hlinear := Exchange.Linear.of_reaches (Claimers.loop_reaches hN hrun side)
  rw [hzero side] at hlinear
  have hvalues := Claimers.claims_values hN hzero hrun side
  refine ⟨?_, ?_, ?_, hlinear.calls⟩
  · intro t ht
    have hget := congrArg (fun l => l[t]?) hvalues
    simpa [ht] using hget
  · intro t
    rw [List.map_take, List.map_drop, hvalues]
    exact Cyclic.nodup_lap _ _ _
  · exact hlinear.cell.trans (Cyclic.iterate_next hN _)

/-- A thread has loaded the index of a ring of two slots. Another one goes round the ring, with a
spurious failure, and then the exchange of the first thread succeeds. -/
theorem claims_linearizable_afterLap : ∃ (header : RingHeader) (s : Claimers Bool),
    RingHeader.new 448 128 0 = .ok header ∧
      Reaches Claimers.step Always (Claimers.start header) s ∧
      s.claims .producer = [(true, 0), (true, 1), (false, 0)] ∧
      s.header.idx .producer = 3 % header.slotCount := by
  obtain ⟨header, s, hnew, hrun, hclaims⟩ : ∃ (header : RingHeader) (s : Claimers Bool),
      RingHeader.new 448 128 0 = .ok header ∧
        Reaches Claimers.step Always (Claimers.start header) s ∧
        s.claims .producer = [(true, 0), (true, 1), (false, 0)] := by
    refine ⟨_, _, rfl, Reaches.get_runWhere
      [.call false .producer, .step false false, .step false false,
        .call true .producer, .step true false, .step true false, .step true true, .step true false,
        .step true false,
        .call true .producer, .step true false, .step true false, .step true false,
        .step true false,
        .step false false, .step false false] (by decide +kernel), ?_⟩
    decide +kernel
  obtain ⟨-, hcount, hp, hc, -⟩ := RingHeader.new_ok hnew
  have hN : header.slotCount = 2 := hcount
  have hzero : ∀ side, header.idx side = 0 := by
    intro side
    cases side with
    | producer => exact hp
    | consumer => exact hc
  have hpos : 0 < header.slotCount := by
    rw [hN]
    decide
  obtain ⟨-, -, hidx, -⟩ := claims_linearizable hpos hzero hrun .producer
  rw [hclaims] at hidx
  exact ⟨header, s, hnew, hrun, hclaims, hidx⟩

/-! ## The claims of `write` and `read` -/

section
variable {W R : Type} {N : ℕ} {rb : RingBuffer} {m : RingMemory}

/-- The place of a call of `write` in `next_producer_idx`. -/
def WritePc.claiming (N : ℕ) : WritePc → Option (Side × IdxPc)
  | compareExchange _ current => some (.producer, .compareExchange current N)
  | _ => none

/-- The place of a call of `read` in `next_consumer_idx`. -/
def ReadPc.claiming (N : ℕ) : ReadPc → Option (Side × IdxPc)
  | compareExchange current => some (.consumer, .compareExchange current N)
  | _ => none

/-- The indices that have been claimed at one end. -/
def claimedIdx (h : List (Event W R)) : Side → List ℕ
  | .producer => (Ring.claims h).map fun claim => claim.2.2
  | .consumer => passes h

/-- What the functions that claim an index load from a header is the same in another one. -/
structure RingHeader.SameRing (header header' : RingHeader) : Prop where
  /-- The indices are the same. -/
  idx : ∀ side, header'.idx side = header.idx side
  /-- So is the number of slots. -/
  slotCount : header'.slotCount = header.slotCount

/-- Two headers that are like a third one. -/
theorem RingHeader.SameRing.of_same {header header' header'' : RingHeader}
    (h : header.SameRing header'') (h' : header.SameRing header') : header'.SameRing header'' where
  idx side := (h.idx side).trans (h'.idx side).symm
  slotCount := h.slotCount.trans h'.slotCount.symm

/-- The same new index. -/
theorem RingHeader.SameRing.setIdx {header header' : RingHeader} (h : header.SameRing header')
    (i : ℕ) (side : Side) : (header.setIdx i side).SameRing (header'.setIdx i side) where
  idx side' := by
    by_cases hside : side' = side
    · rw [hside, idx_setIdx, idx_setIdx]
    · rw [idx_setIdx_of_ne _ _ hside, idx_setIdx_of_ne _ _ hside, h.idx]
  slotCount := by rw [slotCount_setIdx, slotCount_setIdx, h.slotCount]

/-- What a step of a call has to do with claiming an index. -/
inductive ClaimMove (N : ℕ) (header header' : RingHeader) (claimed : Side → List ℕ) :
    Option (Side × IdxPc) → Option (Side × IdxPc) → Prop
  /-- Nothing. -/
  | idle (hsame : header.SameRing header') (hnone : ∀ side, claimed side = []) :
    ClaimMove N header header' claimed none none
  /-- It loads the index. -/
  | load (side : Side) (hsame : header.SameRing header')
    (hnone : ∀ side, claimed side = []) :
    ClaimMove N header header' claimed none
      (some (side, .compareExchange (header.idx side) N))
  /-- Its compare-exchange fails. -/
  | retry (side : Side) (current : ℕ) (hsame : header.SameRing header')
    (hnone : ∀ side, claimed side = []) :
    ClaimMove N header header' claimed (some (side, .compareExchange current N))
      (some (side, .compareExchange (header.idx side) N))
  /-- Its compare-exchange succeeds. -/
  | claim (side : Side)
    (hset : (header.setIdx ((header.idx side + 1) % N) side).SameRing header')
    (hclaimed : ∀ side', claimed side' = if side' = side then [header.idx side] else []) :
    ClaimMove N header header' claimed (some (side, .compareExchange (header.idx side) N)) none

/-- A step that leaves the indices, at a place where none is claimed, and claims none. -/
theorem ClaimMove.idle_of {header header' : RingHeader} {claimed : Side → List ℕ}
    {pc : Option (Side × IdxPc)} (hsame : header.SameRing header')
    (hnone : ∀ side, claimed side = []) (hpc : pc = none) :
    ClaimMove N header header' claimed none pc := by
  rw [hpc]
  exact .idle hsame hnone

/-- The number of slots stays. -/
theorem ClaimMove.slotCount {header header' : RingHeader} {claimed : Side → List ℕ}
    {old new : Option (Side × IdxPc)} (h : ClaimMove N header header' claimed old new) :
    header'.slotCount = header.slotCount := by
  cases h with
  | idle hsame | load _ hsame | retry _ _ hsame => exact hsame.slotCount
  | claim side hset => exact hset.slotCount.trans (header.slotCount_setIdx _ side)

/-- The indices stay those of slots, and so is the index that a call loads. -/
theorem ClaimMove.inRange {header header' : RingHeader} {claimed : Side → List ℕ}
    {old new : Option (Side × IdxPc)} (hlt : ∀ side, header.idx side < N)
    (h : ClaimMove N header header' claimed old new) :
    (∀ side, header'.idx side < N) ∧
      ∀ side current, new = some (side, .compareExchange current N) → current < N := by
  cases h with
  | idle hsame => exact ⟨fun side => (hsame.idx side).symm ▸ hlt side, fun _ _ h => by cases h⟩
  | load side hsame | retry side _ hsame =>
    refine ⟨fun side => (hsame.idx side).symm ▸ hlt side, fun side' current h => ?_⟩
    cases h
    exact hlt side
  | claim side hset =>
    refine ⟨fun side' => ?_, fun _ _ h => by cases h⟩
    rw [hset.idx]
    by_cases hside : side' = side
    · rw [hside, RingHeader.idx_setIdx]
      exact Nat.mod_lt _ (Nat.zero_lt_of_lt (hlt side))
    · rw [RingHeader.idx_setIdx_of_ne _ _ hside]
      exact hlt side'

/-- No event. -/
theorem claimedIdx_nil (side : Side) : claimedIdx ([] : List (Event W R)) side = [] := by
  cases side <;> rfl

/-- The claims of a longer history. -/
theorem claimedIdx_append (h h' : List (Event W R)) (side : Side) :
    claimedIdx (h ++ h') side = claimedIdx h side ++ claimedIdx h' side := by
  cases side with
  | producer => exact (congrArg _ (claims_append h h')).trans (List.map_append ..)
  | consumer => exact passes_append h h'

/-- The stores that are left claim nothing. -/
theorem claiming_ofStores (idx : ℕ) (stores : List Store) :
    (WritePc.ofStores idx stores).bind (WritePc.claiming N) = none := by
  cases stores <;> rfl

/-- Nor do those of `reset`. -/
theorem claiming_resetting (idx : ℕ) (stores : List Store) :
    (ReadPc.ofStores idx stores).bind (ReadPc.claiming N) = none := by
  cases stores <;> rfl

/-- The end of an attempt claims nothing. -/
theorem nextAttempt_claimMove (w : W) (call : WriteCall) (attempts : ℕ) :
    ClaimMove N m.header (nextAttempt w call m attempts : Effect W R WritePc).memory.header
      (claimedIdx (nextAttempt w call m attempts : Effect W R WritePc).events) none
      ((nextAttempt w call m attempts : Effect W R WritePc).pc.bind (WritePc.claiming N)) := by
  cases attempts with
  | zero | succ => exact .idle ⟨fun _ => rfl, rfl⟩ fun side => by cases side <;> rfl

/-- Nor does the start of a call. -/
theorem writeCall_claimMove (w : W) (call : WriteCall) :
    ClaimMove N m.header (writeCall rb w call m : Effect W R WritePc).memory.header
      (claimedIdx (writeCall rb w call m : Effect W R WritePc).events) none
      ((writeCall rb w call m : Effect W R WritePc).pc.bind (WritePc.claiming N)) := by
  unfold writeCall
  split
  · split
    · exact .idle ⟨fun _ => rfl, rfl⟩ fun side => by cases side <;> rfl
    · exact .idle ⟨fun _ => rfl, rfl⟩ fun side => by cases side <;> rfl
  · exact .idle ⟨fun _ => rfl, rfl⟩ fun side => by cases side <;> rfl

/-- A step of `write`. -/
theorem writeStep_claimMove (hN : 0 < N) (hcount : m.header.slotCount = N) (w : W)
    (call : WriteCall) (spurious : Bool) {pc : WritePc}
    (hlt : ∀ side current, pc.claiming N = some (side, .compareExchange current N) →
      current + 1 < 2^64) :
    ClaimMove N m.header (writeStep rb w call m spurious pc : Effect W R WritePc).memory.header
      (claimedIdx (writeStep rb w call m spurious pc : Effect W R WritePc).events)
      (pc.claiming N)
      ((writeStep rb w call m spurious pc : Effect W R WritePc).pc.bind (WritePc.claiming N)) := by
  cases pc with
  | loadProducerIdx attempts => exact .idle ⟨fun _ => rfl, rfl⟩ claimedIdx_nil
  | loadConsumerIdx attempts producerIdx =>
    unfold writeStep
    dsimp only
    split
    · split
      · exact .idle ⟨fun _ => rfl, rfl⟩ claimedIdx_nil
      · exact nextAttempt_claimMove w call attempts
    · exact .idle ⟨fun _ => rfl, rfl⟩ fun side => by cases side <;> rfl
  -- `next_producer_idx` loads the index, and goes on to the exchange.
  | loadCurrent attempts => exact .load .producer ⟨fun _ => rfl, rfl⟩ claimedIdx_nil
  | compareExchange attempts current =>
    unfold writeStep
    dsimp only
    rw [nextIdx_eq (hlt _ _ rfl) (hcount.symm ▸ hN)]
    dsimp only
    split
    · rename_i hcurrent
      obtain ⟨rfl, -⟩ := hcurrent
      rw [hcount]
      split
      · exact .claim .producer ⟨fun _ => rfl, rfl⟩ fun side => by cases side <;> rfl
      · exact .claim .producer ⟨fun _ => rfl, rfl⟩ fun side => by cases side <;> rfl
    · exact .retry .producer current ⟨fun _ => rfl, rfl⟩ claimedIdx_nil
  | checkEmpty attempts idx =>
    unfold writeStep
    dsimp only
    split
    · exact .idle_of ⟨fun _ => rfl, rfl⟩ claimedIdx_nil (claiming_ofStores idx call.program)
    · exact .idle ⟨fun _ => rfl, rfl⟩ claimedIdx_nil
  | checkComplete attempts idx =>
    unfold writeStep
    dsimp only
    split
    · exact .idle_of ⟨fun _ => rfl, rfl⟩ claimedIdx_nil (claiming_ofStores idx call.program)
    · exact nextAttempt_claimMove w call attempts
  | storing idx st rest =>
    -- The events of a store are no claims.
    refine .idle_of ⟨fun _ => rfl, rfl⟩ ?_ (claiming_ofStores idx rest)
    obtain ⟨-, hclaims, -, hpasses, -⟩ := storeEvents_records (R := R) w call idx st rest
    intro side
    cases side with
    | producer => exact congrArg (List.map _) hclaims
    | consumer => exact hpasses

/-- A step of `read`. -/
theorem readStep_claimMove (hN : 0 < N) (hcount : m.header.slotCount = N) (r : R)
    (spurious : Bool) {pc : ReadPc}
    (hlt : ∀ side current, pc.claiming N = some (side, .compareExchange current N) →
      current + 1 < 2^64) :
    ClaimMove N m.header (readStep rb r m spurious pc : Effect W R ReadPc).memory.header
      (claimedIdx (readStep rb r m spurious pc : Effect W R ReadPc).events)
      (pc.claiming N)
      ((readStep rb r m spurious pc : Effect W R ReadPc).pc.bind (ReadPc.claiming N)) := by
  cases pc with
  | loadProducerIdx | loadOperation | storeReading | copy =>
    exact .idle ⟨fun _ => rfl, rfl⟩ claimedIdx_nil
  | loadConsumerIdx producerIdx =>
    unfold readStep
    dsimp only
    split
    · exact .idle ⟨fun _ => rfl, rfl⟩ fun side => by cases side <;> rfl
    · exact .idle ⟨fun _ => rfl, rfl⟩ claimedIdx_nil
  -- `next_consumer_idx` does as `next_producer_idx`.
  | loadCurrent => exact .load .consumer ⟨fun _ => rfl, rfl⟩ claimedIdx_nil
  | compareExchange current =>
    unfold readStep
    dsimp only
    rw [nextIdx_eq (hlt _ _ rfl) (hcount.symm ▸ hN)]
    dsimp only
    split
    · rename_i hcurrent
      obtain ⟨rfl, -⟩ := hcurrent
      rw [hcount]
      split
      · exact .claim .consumer ⟨fun _ => rfl, rfl⟩ fun side => by cases side <;> rfl
      · exact .claim .consumer ⟨fun _ => rfl, rfl⟩ fun side => by cases side <;> rfl
    · exact .retry .consumer current ⟨fun _ => rfl, rfl⟩ claimedIdx_nil
  | checkReady idx | recheckReady idx =>
    unfold readStep
    dsimp only
    split
    · exact .idle ⟨fun _ => rfl, rfl⟩ claimedIdx_nil
    · exact .idle_of ⟨fun _ => rfl, rfl⟩ claimedIdx_nil (claiming_resetting idx Slot.resetStores)
  | loadSize idx kind =>
    unfold readStep
    dsimp only
    split
    · exact .idle ⟨fun _ => rfl, rfl⟩ claimedIdx_nil
    · exact .idle ⟨fun _ => rfl, rfl⟩ claimedIdx_nil
  | storeComplete idx kind data =>
    cases data with
    | none =>
      exact .idle_of ⟨fun _ => rfl, rfl⟩ claimedIdx_nil (claiming_resetting idx Slot.resetStores)
    | some data => exact .idle ⟨fun _ => rfl, rfl⟩ claimedIdx_nil
  | increment idx msg =>
    -- The header changes, but not at the indices.
    exact .idle ⟨fun side => by cases side <;> rfl, rfl⟩ fun side => by cases side <;> rfl
  | resetting idx st rest =>
    refine .idle_of ⟨fun _ => rfl, rfl⟩ ?_ (claiming_resetting idx rest)
    intro side
    cases rest with
    | nil | cons => cases side <;> rfl

end

namespace Claimers

section
variable {τ : Type} [DecidableEq τ] {N : ℕ} {c : Claimers τ} {t : τ}

/-- The claims after a step. -/
theorem claims_after (c : Claimers τ) (side : Side) (t : τ) (header : RingHeader)
    (pc : Option (Side × IdxPc)) (events : List IdxEvent) :
    (c.after t header pc events).claims side = c.claims side ++
      Exchange.exchanges ((events.filterMap (IdxEvent.loop side)).map (Prod.mk t)) := by
  unfold claims
  rw [loop_after]
  exact Exchange.exchanges_append _ _

/-- Two steps of one thread. -/
theorem after_after (c : Claimers τ) (t : τ) (header header' : RingHeader)
    (pc pc' : Option (Side × IdxPc)) (events events' : List IdxEvent) :
    (c.after t header pc events).after t header' pc' events' =
      c.after t header' pc' (events ++ events') := by
  unfold after
  rw [Function.update_idem, List.append_assoc, List.map_append]

/-- A thread in a call takes its next step. -/
theorem reaches_stepIdx {side : Side} {pc : IdxPc} (hpc : c.thread t = some (side, pc))
    (spurious : Bool) : Reaches step Always c (c.stepIdx t spurious side pc) := by
  refine (Reaches.refl c).next (a := .step t spurious) trivial ?_
  unfold step
  dsimp only
  rw [hpc]
  rfl

/-- A thread in no call starts one, and loads the index and the slot count. -/
theorem reaches_load (hidle : c.thread t = none) (side : Side) :
    Reaches step Always c (c.after t c.header
      (some (side, .compareExchange (c.header.idx side) c.header.slotCount)) [.called side]) := by
  have hcall : Reaches step Always c
      (c.after t c.header (some (side, .loadIdx)) [.called side]) := by
    refine (Reaches.refl c).next (a := .call t side) trivial ?_
    unfold step
    dsimp only
    rw [hidle]
  have hidx := reaches_stepIdx (c := c.after t c.header (some (side, .loadIdx)) [.called side])
    (Function.update_self t _ _) false
  unfold stepIdx at hidx
  dsimp only at hidx
  rw [after_after] at hidx
  have hcount := reaches_stepIdx (c := c.after t c.header
    (some (side, .loadSlotCount (c.header.idx side))) [.called side])
    (Function.update_self t _ _) false
  unfold stepIdx at hcount
  dsimp only at hcount
  rw [after_after] at hcount
  exact (hcall.trans hidx).trans hcount

/-- A compare-exchange fails. -/
theorem reaches_retry {side : Side} {current : ℕ} (hN : 0 < N)
    (hpc : c.thread t = some (side, .compareExchange current N)) :
    Reaches step Always c (c.after t c.header
      (some (side, .compareExchange (c.header.idx side) N)) []) := by
  have hfails := reaches_stepIdx hpc true
  unfold stepIdx at hfails
  dsimp only at hfails
  rwa [if_neg (Nat.ne_of_gt hN), if_neg (by simp)] at hfails

/-- A compare-exchange succeeds, and the call returns. -/
theorem reaches_claim {side : Side} (hN : 0 < N)
    (hpc : c.thread t = some (side, .compareExchange (c.header.idx side) N)) :
    Reaches step Always c (c.after t (c.header.setIdx ((c.header.idx side + 1) % N) side) none
      [.exchanged side (c.header.idx side), .returned side (c.header.idx side)]) := by
  have hsucceeds := reaches_stepIdx hpc false
  unfold stepIdx at hsucceeds
  dsimp only at hsucceeds
  rw [if_neg (Nat.ne_of_gt hN), if_pos ⟨rfl, rfl⟩] at hsucceeds
  have hreturns := reaches_stepIdx
    (c := c.after t (c.header.setIdx ((c.header.idx side + 1) % N) side)
      (some (side, .returning (c.header.idx side))) [.exchanged side (c.header.idx side)])
    (Function.update_self t _ _) false
  unfold stepIdx at hreturns
  dsimp only at hreturns
  rw [after_after] at hreturns
  exact hsucceeds.trans hreturns

/-- What a step of a call of `write` or `read` has to do with an index, a thread that claims indices
can do too. -/
theorem follow {header header' : RingHeader} {claimed : Side → List ℕ}
    {old new : Option (Side × IdxPc)} (hN : 0 < N) (hcount : header.slotCount = N)
    (hsame : header.SameRing c.header) (hold : c.thread t = old)
    (hmove : ClaimMove N header header' claimed old new) :
    ∃ c' : Claimers τ, Reaches step Always c c' ∧ header'.SameRing c'.header ∧
      c'.thread = Function.update c.thread t new ∧
      ∀ side, (c'.claims side).map Prod.snd = (c.claims side).map Prod.snd ++ claimed side := by
  have hclaimer : c.header.slotCount = N := hsame.slotCount.trans hcount
  cases hmove with
  | idle hstays hnone =>
    -- The thread takes no step.
    refine ⟨c, Reaches.refl c, hsame.of_same hstays, ?_, ?_⟩
    · rw [← hold, Function.update_eq_self]
    · intro side
      rw [hnone, List.append_nil]
  | load side hstays hnone =>
    -- Three steps: the call, and its two loads.
    have hloads := reaches_load hold side
    rw [hclaimer, hsame.idx] at hloads
    refine ⟨_, hloads, hsame.of_same hstays, rfl, fun side' => ?_⟩
    have hevents : [IdxEvent.called side].filterMap (IdxEvent.loop side') =
        if side = side' then [.called] else [] := by
      by_cases hside : side = side' <;> simp [IdxEvent.loop, hside]
    rw [claims_after, hevents, hnone]
    split <;> rw [List.append_nil] <;> exact congrArg _ (List.append_nil _)
  | retry side current hstays hnone =>
    -- One step, which may always fail.
    have hretries := reaches_retry hN hold
    rw [hsame.idx] at hretries
    refine ⟨_, hretries, hsame.of_same hstays, rfl, fun side' => ?_⟩
    rw [claims_after, hnone, List.append_nil]
    exact congrArg _ (List.append_nil _)
  | claim side hset hclaimed =>
    -- Two steps: the exchange, and the return.
    have hcurrent : c.thread t = some (side, .compareExchange (c.header.idx side) N) := by
      rw [hold, hsame.idx]
    have hclaims := reaches_claim hN hcurrent
    rw [hsame.idx] at hclaims
    refine ⟨_, hclaims, (hsame.setIdx _ side).of_same hset, rfl, fun side' => ?_⟩
    rw [claims_after, hclaimed, List.map_append]
    congr 1
    by_cases hside : side' = side
    · have hevents : [IdxEvent.exchanged side (header.idx side),
          .returned side (header.idx side)].filterMap (IdxEvent.loop side) =
            [.exchanged (header.idx side), .returned (header.idx side)] := by
        simp [IdxEvent.loop]
      rw [hside, if_pos rfl, hevents]
      rfl
    · have hevents : [IdxEvent.exchanged side (header.idx side),
          .returned side (header.idx side)].filterMap (IdxEvent.loop side') = [] := by
        simp [IdxEvent.loop, Ne.symm hside]
      rw [if_neg hside, hevents]
      rfl

end

end Claimers

namespace System

variable {W R : Type} {N : ℕ} {s : System W R}

/-- The places of the threads in the functions that claim. -/
def claiming (N : ℕ) (s : System W R) : W ⊕ R → Option (Side × IdxPc)
  | .inl w => (s.writer w).bind fun p => p.2.claiming N
  | .inr r => (s.reader r).bind fun pc => pc.claiming N

/-- The place of a thread that writes. -/
theorem claiming_inl (s : System W R) (w : W) :
    s.claiming N (.inl w) = (s.writer w).bind fun p => p.2.claiming N := rfl

/-- The place of a thread that reads. -/
theorem claiming_inr (s : System W R) (r : R) :
    s.claiming N (.inr r) = (s.reader r).bind fun pc => pc.claiming N := rfl

/-- Threads that claim indices are where those of the system are, and have claimed the same. -/
structure ClaimsAs (N : ℕ) (s : System W R) (c : Claimers (W ⊕ R)) : Prop where
  /-- There are `N` slots. -/
  slotCount : s.memory.header.slotCount = N
  /-- The indices are those of slots. -/
  idx_lt : ∀ side, s.memory.header.idx side < N
  /-- So are the indices that the calls have loaded. -/
  loaded_lt : ∀ t side current, s.claiming N t = some (side, .compareExchange current N) →
    current < N
  /-- The indices are the same. -/
  sameRing : s.memory.header.SameRing c.header
  /-- So are the places of the threads. -/
  thread : c.thread = s.claiming N
  /-- So are the claims. -/
  claims : ∀ side, (c.claims side).map Prod.snd = claimedIdx s.history side

variable [DecidableEq W] [DecidableEq R] {rb : RingBuffer}

/-- A step of `write`, among the threads that claim. -/
theorem claiming_afterWrite (s : System W R) (w : W) (call : WriteCall)
    (e : Effect W R WritePc) : (s.afterWrite w call e).claiming N =
      Function.update (s.claiming N) (.inl w) (e.pc.bind (WritePc.claiming N)) := by
  funext t
  cases t with
  | inl w' =>
    unfold claiming afterWrite
    by_cases hw : w' = w
    · rw [hw, Function.update_self]
      dsimp only
      rw [Function.update_self]
      cases e.pc <;> rfl
    · have hne : (Sum.inl w' : W ⊕ R) ≠ .inl w := fun h => hw (Sum.inl.inj h)
      rw [Function.update_of_ne hne]
      dsimp only
      rw [Function.update_of_ne hw]
  | inr r => exact (Function.update_of_ne Sum.inr_ne_inl _ _).symm

/-- A step of `read`, among them. -/
theorem claiming_afterRead (s : System W R) (r : R) (e : Effect W R ReadPc) :
    (s.afterRead r e).claiming N =
      Function.update (s.claiming N) (.inr r) (e.pc.bind (ReadPc.claiming N)) := by
  funext t
  cases t with
  | inl w => exact (Function.update_of_ne Sum.inl_ne_inr _ _).symm
  | inr r' =>
    unfold claiming afterRead
    by_cases hr : r' = r
    · rw [hr, Function.update_self]
      dsimp only
      rw [Function.update_self]
    · have hne : (Sum.inr r' : W ⊕ R) ≠ .inr r := fun h => hr (Sum.inr.inj h)
      rw [Function.update_of_ne hne]
      dsimp only
      rw [Function.update_of_ne hr]

/-- A step of a call, followed by a thread that claims. -/
theorem ClaimsAs.follow (hN : 0 < N) {c : Claimers (W ⊕ R)} (h : ClaimsAs N s c) {s' : System W R}
    {t : W ⊕ R} {new : Option (Side × IdxPc)} {events : List (Event W R)}
    (hmove : ClaimMove N s.memory.header s'.memory.header (claimedIdx events) (s.claiming N t) new)
    (hthread : s'.claiming N = Function.update (s.claiming N) t new)
    (hhistory : s'.history = s.history ++ events) :
    ∃ c', Reaches Claimers.step Always c c' ∧ ClaimsAs N s' c' := by
  obtain ⟨c', hrun, hsame, hthread', hclaims⟩ :=
    Claimers.follow hN h.slotCount h.sameRing (congrFun h.thread t) hmove
  obtain ⟨hidx, hloaded⟩ := hmove.inRange h.idx_lt
  refine ⟨c', hrun, hmove.slotCount.trans h.slotCount, hidx, ?_, hsame, ?_, ?_⟩
  · intro t' side current ht'
    rw [hthread] at ht'
    by_cases heq : t' = t
    · subst heq
      rw [Function.update_self] at ht'
      exact hloaded side current ht'
    · rw [Function.update_of_ne heq] at ht'
      exact h.loaded_lt t' side current ht'
  · rw [hthread', h.thread, hthread]
  · intro side
    rw [hclaims, h.claims, hhistory, claimedIdx_append]

/-- A step of the system is no step of the threads that claim, or some steps of one of them. -/
theorem ClaimsAs.step (hN : 0 < N) (hsize : N < 2^64) {c : Claimers (W ⊕ R)}
    (h : ClaimsAs N s c) {a : Action W R} {s' : System W R} (hstep : s.step rb a = some s') :
    ∃ c', Reaches Claimers.step Always c c' ∧ ClaimsAs N s' c' := by
  -- The index after that of a slot is at most their number.
  have hlt : ∀ {t : W ⊕ R} {side : Side} {current : ℕ},
      s.claiming N t = some (side, .compareExchange current N) → current + 1 < 2^64 :=
    fun ht => Nat.lt_of_le_of_lt (h.loaded_lt _ _ _ ht) hsize
  rcases step_cases hstep with ⟨w, call, -, hw, rfl⟩ | ⟨w, spurious, call, pc, -, hw, rfl⟩ |
    ⟨r, -, hr, rfl⟩ | ⟨r, spurious, pc, -, hr, rfl⟩
  · -- A thread in no call claims nothing, and neither does the start of its call.
    have hnone : s.claiming N (.inl w) = none := by
      rw [claiming_inl, hw]
      rfl
    refine h.follow hN (hnone ▸ ?_) (s.claiming_afterWrite w call _) rfl
    exact writeCall_claimMove w call
  · have hpc : s.claiming N (.inl w) = pc.claiming N := by
      rw [claiming_inl, hw]
      rfl
    refine h.follow hN (hpc ▸ ?_) (s.claiming_afterWrite w call _) rfl
    exact writeStep_claimMove hN h.slotCount w call spurious
      fun _ _ hclaiming => hlt (hpc.trans hclaiming)
  · have hnone : s.claiming N (.inr r) = none := by
      rw [claiming_inr, hr]
      rfl
    refine h.follow hN (hnone ▸ ?_) (s.claiming_afterRead r _) rfl
    exact .idle ⟨fun _ => rfl, rfl⟩ fun side => by cases side <;> rfl
  · have hpc : s.claiming N (.inr r) = pc.claiming N := by
      rw [claiming_inr, hr]
      rfl
    refine h.follow hN (hpc ▸ ?_) (s.claiming_afterRead r _) rfl
    exact readStep_claimMove hN h.slotCount r spurious
      fun _ _ hclaiming => hlt (hpc.trans hclaiming)

/-- In every run of `write` and `read` from indices of slots the threads claim as threads that do
nothing else. The slot count is a `usize`. -/
theorem claimsAs_of_reaches {m : RingMemory} (hsize : m.header.slotCount < 2^64)
    (hidx : ∀ side, m.header.idx side < m.header.slotCount)
    (hrun : Reaches (System.step rb) Always (System.start m) s) :
    ∃ c, Reaches Claimers.step Always (Claimers.start m.header) c ∧
      ClaimsAs m.header.slotCount s c := by
  have hN : 0 < m.header.slotCount := Nat.zero_lt_of_lt (hidx .producer)
  apply hrun.invariant
  · refine ⟨Claimers.start m.header, Reaches.refl _, rfl, hidx, ?_, ⟨fun _ => rfl, rfl⟩, ?_, ?_⟩
    · intro t side current ht
      cases t <;> cases ht
    · funext t
      cases t <;> rfl
    · intro side
      cases side <;> rfl
  · intro u a u' ⟨c, hclaimers, hclaims⟩ _ hstep
    obtain ⟨c', hmore, hclaims'⟩ := hclaims.step hN hsize hstep
    exact ⟨c', hclaimers.trans hmore, hclaims'⟩

/-- So the slots that the calls of `write` claim, and those that the calls of `read` pass, are in
every run those from zero on, round and round. -/
theorem claimedIdx_numbered {m : RingMemory} (hN : 0 < m.header.slotCount)
    (hsize : m.header.slotCount < 2^64) (hzero : ∀ side, m.header.idx side = 0)
    (hrun : Reaches (System.step rb) Always (System.start m) s) (side : Side) :
    claimedIdx s.history side =
      (List.range (claimedIdx s.history side).length).map (· % m.header.slotCount) := by
  obtain ⟨c, hclaimers, hclaims⟩ := claimsAs_of_reaches hsize
    (fun side => (hzero side).symm ▸ hN) hrun
  have hvalues := Claimers.claims_values hN hzero hclaimers side
  have hlength : (c.claims side).length = (claimedIdx s.history side).length := by
    rw [← hclaims.claims side, List.length_map]
  rwa [hclaims.claims side, hlength] at hvalues

end System

end Elgate.Ring
