import Mathlib.Data.List.Induction
import Mathlib.Data.List.Nodup
import Mathlib.Logic.Function.Basic
import Elgate.Foundation.Transition

/-!
# One worker behind a channel

Any number of callers that hand operations to one worker through a bounded channel, each with a
place for its reply. The worker takes the operations in the order of the channel and performs them
one after the other. A call waits for room in the channel, and then for its reply; it may be
cancelled at any time, which does not take its operation back. The worker may be stopped between two
operations, and an operation may make it panic; then the channel is closed, what is in it is
dropped, and the calls fail.

What the worker does is a parameter (`Service`): an operation is performed on a state, with an
answer from outside, and gives a reply unless the worker panics. Between operations the state may
change otherwise.

Calls have tickets, in the order in which they start, and a history records what happens
(`Event`). In every run each event follows from the ones before it (`Follows`, `Inv.lawful`), and so
the history is that of a service which performs each operation at one moment between its call and
its return (`Linearizable`).
-/

namespace Worker

open Transition

/-- What a worker does, and what may happen to the state that it works on. -/
structure Service (σ Op Answer Reply Outside : Type*) where
  /-- The reply to an operation, and the state after it, when the outside can give this answer.
  There is no reply when the worker panics. -/
  perform : σ → Op → Answer → Option (Option Reply × σ)
  /-- The state after a change from outside, when it is possible. -/
  disturb : σ → Outside → Option σ

/-- How a call fails when the worker has stopped. -/
inductive ChannelError
  /-- The operation could not be sent. -/
  | send
  /-- There is no reply. -/
  | receive
  deriving DecidableEq, Repr

/-- What a call waits for. -/
inductive Phase (Op Reply : Type*)
  /-- Room in the channel. -/
  | sending (op : Op)
  /-- The reply. -/
  | waiting
  /-- Its caller, with the reply. -/
  | answered (reply : Reply)

/-- What happens. -/
inductive Event (Op Answer Reply Outside : Type*)
  /-- A call starts. -/
  | called (i : ℕ) (op : Op)
  /-- Its operation is in the channel. -/
  | sent (i : ℕ)
  /-- The worker takes it. -/
  | taken (i : ℕ)
  /-- The worker has performed it. -/
  | performed (i : ℕ) (op : Op) (answer : Answer) (reply : Option Reply)
  /-- The call returns. -/
  | returned (i : ℕ) (result : Except ChannelError Reply)
  /-- The call is cancelled. -/
  | cancelled (i : ℕ)
  /-- The state changes otherwise. -/
  | disturbed (change : Outside)
  /-- The worker is stopped. -/
  | stopped

/-- The callers, the channel, and the worker. -/
structure State (σ Op Answer Reply Outside : Type*) where
  /-- What the worker works on. -/
  world : σ
  /-- The ticket of the next call. -/
  next : ℕ
  /-- The calls in progress. -/
  phase : ℕ → Option (Phase Op Reply)
  /-- The operations in the channel, oldest first. -/
  channel : List (ℕ × Op)
  /-- The operation that the worker has taken. -/
  serving : Option (ℕ × Op)
  /-- The worker has not stopped. -/
  live : Bool
  /-- What has happened, the first event first. -/
  history : List (Event Op Answer Reply Outside)

/-- A step of a caller, of the worker, or of the outside. -/
inductive Action (Op Answer Outside : Type*)
  /-- A call starts. -/
  | call (op : Op)
  /-- There is room in the channel for the operation of a call. -/
  | send (i : ℕ)
  /-- A call finds the channel closed. -/
  | refuse (i : ℕ)
  /-- The worker takes an operation. -/
  | take
  /-- The worker performs it. -/
  | perform (answer : Answer)
  /-- A call receives its reply. -/
  | receive (i : ℕ)
  /-- A call finds that its operation has been dropped. -/
  | forsake (i : ℕ)
  /-- A call is cancelled. -/
  | cancel (i : ℕ)
  /-- The state changes otherwise. -/
  | disturb (change : Outside)
  /-- The worker is stopped. -/
  | stop

section
variable {σ Op Answer Reply Outside : Type*}

namespace State

/-- No call has started. -/
def start (world : σ) : State σ Op Answer Reply Outside :=
  ⟨world, 0, fun _ => none, [], none, true, []⟩

variable (s : State σ Op Answer Reply Outside)

/-- An event is recorded. -/
def record (e : Event Op Answer Reply Outside) : State σ Op Answer Reply Outside :=
  { s with history := s.history ++ [e] }

/-- A call goes on to another phase, or ends. -/
def setPhase (i : ℕ) (phase : Option (Phase Op Reply)) : State σ Op Answer Reply Outside :=
  { s with phase := Function.update s.phase i phase }

/-- The channel is closed, and what is in it is dropped. -/
def close : State σ Op Answer Reply Outside := { s with channel := [], live := false }

end State

/-- The worker has performed the operation of the call `i`: the reply goes to the call, if it still
waits. -/
def State.afterPerform (s : State σ Op Answer Reply Outside) (i : ℕ) (world : σ) :
    Option Reply → State σ Op Answer Reply Outside
  | some reply =>
    let s' := { s with world := world, serving := none }
    match s.phase i with
    | some .waiting => s'.setPhase i (some (.answered reply))
    | _ => s'
  | none => { s with world := world, serving := none }.close

/-- A step. -/
def step (service : Service σ Op Answer Reply Outside) (capacity : ℕ)
    (s : State σ Op Answer Reply Outside) :
    Action Op Answer Outside → Option (State σ Op Answer Reply Outside)
  | .call op =>
    some (({ s with next := s.next + 1 }.setPhase s.next (some (.sending op))).record
      (.called s.next op))
  | .send i =>
    match s.phase i with
    | some (.sending op) =>
      if s.live ∧ s.channel.length < capacity then
        some (({ s with channel := s.channel ++ [(i, op)] }.setPhase i (some .waiting)).record
          (.sent i))
      else none
    | _ => none
  | .refuse i =>
    match s.phase i with
    | some (.sending _) =>
      if s.live then none else some ((s.setPhase i none).record (.returned i (.error .send)))
    | _ => none
  | .take =>
    match s.serving, s.channel with
    | none, (i, op) :: rest =>
      some ({ s with channel := rest, serving := some (i, op) }.record (.taken i))
    | _, _ => none
  | .perform answer =>
    match s.serving with
    | some (i, op) =>
      (service.perform s.world op answer).map fun (reply, world) =>
        (s.afterPerform i world reply).record (.performed i op answer reply)
    | none => none
  | .receive i =>
    match s.phase i with
    | some (.answered reply) => some ((s.setPhase i none).record (.returned i (.ok reply)))
    | _ => none
  | .forsake i =>
    match s.phase i with
    | some .waiting =>
      if s.live then none else some ((s.setPhase i none).record (.returned i (.error .receive)))
    | _ => none
  | .cancel i =>
    match s.phase i with
    | some _ => some ((s.setPhase i none).record (.cancelled i))
    | none => none
  | .disturb change =>
    (service.disturb s.world change).map fun world =>
      { s with world := world }.record (.disturbed change)
  | .stop =>
    if s.live ∧ s.serving = none then some (s.close.record .stopped) else none

/-! ## What a history says -/

namespace Event

variable (e : Event Op Answer Reply Outside)

/-- The call that the event is of. -/
def ticket : Event Op Answer Reply Outside → Option ℕ
  | called i _ | sent i | taken i | performed i _ _ _ | returned i _ | cancelled i => some i
  | disturbed _ | stopped => none

/-- The operation of a call that starts. -/
def calledOp : Event Op Answer Reply Outside → Option Op
  | called _ op => some op
  | _ => none

/-- The ticket of an operation that is sent. -/
def sentId : Event Op Answer Reply Outside → Option ℕ
  | sent i => some i
  | _ => none

/-- The ticket of an operation that is taken. -/
def takenId : Event Op Answer Reply Outside → Option ℕ
  | taken i => some i
  | _ => none

/-- The ticket of an operation that is performed. -/
def performedId : Event Op Answer Reply Outside → Option ℕ
  | performed i _ _ _ => some i
  | _ => none

/-- The ticket of a call that ends. -/
def overId : Event Op Answer Reply Outside → Option ℕ
  | returned i _ | cancelled i => some i
  | _ => none

/-- The worker ends. -/
def Stops : Event Op Answer Reply Outside → Prop
  | performed _ _ _ none | stopped => True
  | _ => False

end Event

section
variable (h : List (Event Op Answer Reply Outside))

/-- The operations of the calls, in the order of the tickets. -/
def calledOps : List Op := h.filterMap Event.calledOp

/-- The tickets of the operations that were sent, in order. -/
def sentIds : List ℕ := h.filterMap Event.sentId

/-- The tickets of the operations that were taken, in order. -/
def takenIds : List ℕ := h.filterMap Event.takenId

/-- The tickets of the operations that were performed, in order. -/
def performedIds : List ℕ := h.filterMap Event.performedId

/-- The tickets of the calls that have ended. -/
def overIds : List ℕ := h.filterMap Event.overId

/-- The worker has ended. -/
def Stopped : Prop := ∃ e ∈ h, e.Stops

variable (e : Event Op Answer Reply Outside)

@[simp] theorem calledOps_append : calledOps (h ++ [e]) = calledOps h ++ e.calledOp.toList := by
  simp only [calledOps, List.filterMap_append, List.filterMap_cons, List.filterMap_nil]
  cases e.calledOp <;> rfl

@[simp] theorem sentIds_append : sentIds (h ++ [e]) = sentIds h ++ e.sentId.toList := by
  simp only [sentIds, List.filterMap_append, List.filterMap_cons, List.filterMap_nil]
  cases e.sentId <;> rfl

@[simp] theorem takenIds_append : takenIds (h ++ [e]) = takenIds h ++ e.takenId.toList := by
  simp only [takenIds, List.filterMap_append, List.filterMap_cons, List.filterMap_nil]
  cases e.takenId <;> rfl

@[simp] theorem performedIds_append :
    performedIds (h ++ [e]) = performedIds h ++ e.performedId.toList := by
  simp only [performedIds, List.filterMap_append, List.filterMap_cons, List.filterMap_nil]
  cases e.performedId <;> rfl

@[simp] theorem overIds_append : overIds (h ++ [e]) = overIds h ++ e.overId.toList := by
  simp only [overIds, List.filterMap_append, List.filterMap_cons, List.filterMap_nil]
  cases e.overId <;> rfl

@[simp] theorem stopped_append : Stopped (h ++ [e]) ↔ Stopped h ∨ e.Stops := by
  simp only [Stopped, List.mem_append, List.mem_singleton]
  constructor
  · rintro ⟨e', he' | rfl, hstops⟩
    · exact Or.inl ⟨e', he', hstops⟩
    · exact Or.inr hstops
  · rintro (⟨e', he', hstops⟩ | hstops)
    · exact ⟨e', Or.inl he', hstops⟩
    · exact ⟨e, Or.inr rfl, hstops⟩

end

/-- The state that an event leaves. -/
def Event.apply (service : Service σ Op Answer Reply Outside) (world : σ) :
    Event Op Answer Reply Outside → σ
  | .performed _ op answer _ => ((service.perform world op answer).map Prod.snd).getD world
  | .disturbed change => (service.disturb world change).getD world
  | _ => world

/-- The state after the operations that have been performed, and the changes from outside. -/
def replay (service : Service σ Op Answer Reply Outside) (world : σ)
    (h : List (Event Op Answer Reply Outside)) : σ :=
  h.foldl (Event.apply service) world

/-- The state after two parts of a history. -/
theorem replay_append_append (service : Service σ Op Answer Reply Outside) (world : σ)
    (h h' : List (Event Op Answer Reply Outside)) :
    replay service world (h ++ h') = replay service (replay service world h) h' :=
  List.foldl_append

@[simp] theorem replay_append (service : Service σ Op Answer Reply Outside) (world : σ)
    (h : List (Event Op Answer Reply Outside)) (e : Event Op Answer Reply Outside) :
    replay service world (h ++ [e]) = e.apply service (replay service world h) := by
  simp [replay]

/-- What an event says of the history before it. -/
def Follows (service : Service σ Op Answer Reply Outside) (capacity : ℕ) (world : σ)
    (past : List (Event Op Answer Reply Outside)) : Event Op Answer Reply Outside → Prop
  | .called i _ => i = (calledOps past).length
  | .sent i => i < (calledOps past).length ∧ i ∉ sentIds past ∧ i ∉ overIds past ∧ ¬ Stopped past ∧
      (sentIds past).length < (takenIds past).length + capacity
  | .taken i => takenIds past = performedIds past ∧ ¬ Stopped past ∧
      takenIds past ++ [i] <+: sentIds past
  | .performed i op answer reply => takenIds past = performedIds past ++ [i] ∧ ¬ Stopped past ∧
      (calledOps past)[i]? = some op ∧ ∃ world',
        service.perform (replay service world past) op answer = some (reply, world')
  | .returned i (.ok reply) => i ∉ overIds past ∧
      ∃ op answer, .performed i op answer (some reply) ∈ past
  | .returned i (.error .send) => i < (calledOps past).length ∧ i ∉ overIds past ∧ Stopped past ∧
      i ∉ sentIds past
  | .returned i (.error .receive) => i ∉ overIds past ∧ Stopped past ∧ i ∈ sentIds past ∧
      ∀ op answer reply, .performed i op answer (some reply) ∉ past
  | .cancelled i => i < (calledOps past).length ∧ i ∉ overIds past
  | .disturbed change => ∃ world', service.disturb (replay service world past) change = some world'
  | .stopped => ¬ Stopped past ∧ takenIds past = performedIds past

/-- Every event follows from the ones before it. -/
def Lawful (service : Service σ Op Answer Reply Outside) (capacity : ℕ) (world : σ)
    (h : List (Event Op Answer Reply Outside)) : Prop :=
  ∀ past e future, h = past ++ e :: future → Follows service capacity world past e

section
variable {service : Service σ Op Answer Reply Outside} {capacity : ℕ} {world : σ}
  {h : List (Event Op Answer Reply Outside)} {e : Event Op Answer Reply Outside}

/-- There is nothing to follow in the empty history. -/
theorem Lawful.nil : Lawful service capacity world [] := by
  rintro past e future heq
  simp at heq

/-- An event that follows from the history is added. -/
theorem Lawful.append (hlawful : Lawful service capacity world h)
    (he : Follows service capacity world h e) : Lawful service capacity world (h ++ [e]) := by
  intro past e' future heq
  rcases List.eq_nil_or_concat future with rfl | ⟨future', last, rfl⟩
  · obtain ⟨rfl, hlast⟩ := List.append_inj' heq rfl
    obtain rfl : e = e' := List.singleton_inj.mp hlast
    exact he
  · rw [List.concat_eq_append, ← List.cons_append, ← List.append_assoc] at heq
    exact hlawful past e' future' (List.append_inj' heq rfl).1

/-- So does the one that the history ends with. -/
theorem Lawful.init (hlawful : Lawful service capacity world (h ++ [e])) :
    Lawful service capacity world h ∧ Follows service capacity world h e := by
  refine ⟨fun past e' future heq => ?_, hlawful h e [] rfl⟩
  exact hlawful past e' (future ++ [e]) (by rw [heq, List.append_assoc, List.cons_append])

/-- No operation is sent twice. -/
theorem Lawful.nodup_sentIds (hlawful : Lawful service capacity world h) :
    (sentIds h).Nodup := by
  induction h using List.reverseRecOn with
  | nil => exact List.nodup_nil
  | append_singleton h e ih =>
    obtain ⟨hinit, hlast⟩ := hlawful.init
    rw [sentIds_append]
    cases e with
    | sent i =>
      have hnot : i ∉ sentIds h := hlast.2.1
      exact List.nodup_append.mpr ⟨ih hinit, List.nodup_singleton i, fun a ha b hb heq => by
        obtain rfl := List.mem_singleton.mp hb
        exact hnot (heq ▸ ha)⟩
    | _ =>
      simp only [Event.sentId, Option.toList_none, List.append_nil]
      exact ih hinit

end

/-! ## Lawful histories -/

/-- The history is that of a service which performs each operation at one moment, and the moments
lie within the calls. -/
structure Linearizable (service : Service σ Op Answer Reply Outside) (world : σ)
    (h : List (Event Op Answer Reply Outside)) : Prop where
  /-- An operation is performed on the state that the ones before it have left. -/
  sequential : ∀ past i op answer reply future,
    h = past ++ .performed i op answer reply :: future →
    ∃ world', service.perform (replay service world past) op answer = some (reply, world')
  /-- It is performed after its call has started and before that returns. -/
  within : ∀ past i op answer reply future,
    h = past ++ .performed i op answer reply :: future →
    .called i op ∈ past ∧ ∀ result, .returned i result ∉ past
  /-- None is performed twice. -/
  once : (performedIds h).Nodup
  /-- They are performed in the order in which they were sent. -/
  fifo : performedIds h <+: sentIds h
  /-- A call that returns has the reply to its own operation. -/
  own : ∀ past i reply future, h = past ++ .returned i (.ok reply) :: future →
    ∃ op answer, .performed i op answer (some reply) ∈ past
  /-- A call fails only when the worker has ended, and has no reply then or later. -/
  failed : ∀ past i error future, h = past ++ .returned i (.error error) :: future →
    Stopped past ∧ ∀ op answer reply, .performed i op answer (some reply) ∉ h
  /-- A call ends at most once. -/
  ends : (overIds h).Nodup

section
variable {service : Service σ Op Answer Reply Outside} {capacity : ℕ} {world : σ}
  {h : List (Event Op Answer Reply Outside)} {e e' : Event Op Answer Reply Outside}
  {i : ℕ}

/-- Of two events, one is before the other. -/
theorem before_or_before (he : e ∈ h) (he' : e' ∈ h) (hne : e ≠ e') :
    (∃ past future, h = past ++ e' :: future ∧ e ∈ past) ∨
      ∃ past future, h = past ++ e :: future ∧ e' ∈ past := by
  obtain ⟨past, future, rfl⟩ := List.append_of_mem he
  rcases List.mem_append.mp he' with hpast | hrest
  · exact Or.inr ⟨past, future, rfl, hpast⟩
  · rcases List.mem_cons.mp hrest with rfl | hfuture
    · exact absurd rfl hne
    · obtain ⟨between, future', rfl⟩ := List.append_of_mem hfuture
      exact Or.inl ⟨past ++ e :: between, future', by simp, by simp⟩

/-- A worker that has ended has ended for good. -/
theorem Stopped.mono {h' : List (Event Op Answer Reply Outside)} (hstopped : Stopped h)
    (hsub : h ⊆ h') : Stopped h' := by
  obtain ⟨e, he, hstops⟩ := hstopped
  exact ⟨e, hsub he, hstops⟩

/-- A beginning of a lawful history is lawful. -/
theorem Lawful.left {h' : List (Event Op Answer Reply Outside)}
    (hlawful : Lawful service capacity world (h ++ h')) : Lawful service capacity world h :=
  fun past e future heq => hlawful past e (future ++ h') (by
    rw [heq, List.append_assoc, List.cons_append])

/-- What was taken was sent, in the same order. -/
theorem Lawful.takenIds_begin (hlawful : Lawful service capacity world h) :
    takenIds h <+: sentIds h := by
  induction h using List.reverseRecOn with
  | nil => exact List.prefix_rfl
  | append_singleton h e ih =>
    obtain ⟨hinit, hlast⟩ := hlawful.init
    rw [takenIds_append, sentIds_append]
    cases e with
    | taken i =>
      simp only [Event.takenId, Event.sentId, Option.toList_some, Option.toList_none,
        List.append_nil]
      exact hlast.2.2
    | _ =>
      simp only [Event.takenId, Option.toList_none, List.append_nil]
      exact (ih hinit).trans (List.prefix_append _ _)

/-- What was performed was taken, in the same order. -/
theorem Lawful.performedIds_begin (hlawful : Lawful service capacity world h) :
    performedIds h <+: takenIds h := by
  induction h using List.reverseRecOn with
  | nil => exact List.prefix_rfl
  | append_singleton h e ih =>
    obtain ⟨hinit, hlast⟩ := hlawful.init
    rw [takenIds_append, performedIds_append]
    cases e with
    | performed i op answer reply =>
      simp only [Event.takenId, Event.performedId, Option.toList_some, Option.toList_none,
        List.append_nil]
      exact hlast.1 ▸ List.prefix_rfl
    | _ =>
      simp only [Event.performedId, Option.toList_none, List.append_nil]
      exact (ih hinit).trans (List.prefix_append _ _)

/-- The tickets are those of the operations. -/
theorem Lawful.called_mem (hlawful : Lawful service capacity world h) {op : Op}
    (hop : (calledOps h)[i]? = some op) : .called i op ∈ h := by
  induction h using List.reverseRecOn with
  | nil => cases hop
  | append_singleton h e ih =>
    obtain ⟨hinit, hlast⟩ := hlawful.init
    rw [calledOps_append] at hop
    rw [List.mem_append, List.mem_singleton]
    by_cases hlt : i < (calledOps h).length
    · rw [List.getElem?_append_left hlt] at hop
      exact Or.inl (ih hinit hop)
    · cases e with
      | called j op' =>
        have hj : j = (calledOps h).length := hlast
        obtain ⟨hi, heq⟩ := List.getElem?_eq_some_iff.mp hop
        simp only [Event.calledOp, Option.toList_some, List.length_append,
          List.length_singleton] at hi
        obtain rfl : i = j := by omega
        simp only [hj, Event.calledOp, Option.toList_some, List.getElem_concat_length] at heq
        exact Or.inr (by rw [heq])
      | _ =>
        simp only [Event.calledOp, Option.toList_none, List.append_nil] at hop
        exact Or.inl (ih hinit hop)

/-- No call ends twice. -/
theorem Lawful.nodup_overIds (hlawful : Lawful service capacity world h) :
    (overIds h).Nodup := by
  induction h using List.reverseRecOn with
  | nil => exact List.nodup_nil
  | append_singleton h e ih =>
    obtain ⟨hinit, hlast⟩ := hlawful.init
    have hends : ∀ j, j ∉ overIds h → (overIds h ++ [j]).Nodup := by
      intro j hj
      refine List.nodup_append.mpr ⟨ih hinit, List.nodup_singleton j, fun a ha b hb heq => ?_⟩
      obtain rfl := List.mem_singleton.mp hb
      exact hj (heq ▸ ha)
    rw [overIds_append]
    match e, hlast with
    | .returned j (.ok reply), hlast => exact hends j hlast.1
    | .returned j (.error .send), hlast => exact hends j hlast.2.1
    | .returned j (.error .receive), hlast => exact hends j hlast.1
    | .cancelled j, hlast => exact hends j hlast.2
    | .called _ _, _ | .sent _, _ | .taken _, _ | .performed _ _ _ _, _ | .disturbed _, _
    | .stopped, _ =>
      simp only [Event.overId, Option.toList_none, List.append_nil]
      exact ih hinit

/-- An operation that is performed has its ticket among those of the performed ones. -/
theorem performedId_mem {op : Op} {answer : Answer} {reply : Option Reply}
    (hmem : .performed i op answer reply ∈ h) : i ∈ performedIds h :=
  List.mem_filterMap.mpr ⟨_, hmem, rfl⟩

/-- An operation that is performed was not performed before, and was sent. -/
theorem Lawful.of_performed {past future : List (Event Op Answer Reply Outside)} {op : Op}
    {answer : Answer} {reply : Option Reply}
    (hlawful : Lawful service capacity world (past ++ .performed i op answer reply :: future)) :
    i ∉ performedIds past ∧ i ∈ sentIds past := by
  have hpast := hlawful.left
  have htaken : takenIds past = performedIds past ++ [i] := (hlawful past _ future rfl).1
  have hbegin := hpast.takenIds_begin
  refine ⟨fun hmem => ?_, hbegin.subset (by rw [htaken]; simp)⟩
  have hnodup := hpast.nodup_sentIds.sublist hbegin.sublist
  rw [htaken] at hnodup
  exact (List.nodup_append.mp hnodup).2.2 i hmem i (List.mem_singleton_self i) rfl

/-- An operation is performed once. -/
theorem Lawful.performed_eq (hlawful : Lawful service capacity world h) {op op' : Op}
    {answer answer' : Answer} {reply reply' : Option Reply}
    (hperformed : .performed i op answer reply ∈ h)
    (hperformed' : .performed i op' answer' reply' ∈ h) :
    op = op' ∧ answer = answer' ∧ reply = reply' := by
  by_contra hne
  have hevents : (.performed i op answer reply : Event Op Answer Reply Outside) ≠
      .performed i op' answer' reply' := by
    intro hsame
    exact hne (Event.performed.inj hsame).2
  rcases before_or_before hperformed hperformed' hevents with
    ⟨past, future, rfl, hmem⟩ | ⟨past, future, rfl, hmem⟩
  · exact hlawful.of_performed.1 (performedId_mem hmem)
  · exact hlawful.of_performed.1 (performedId_mem hmem)

/-- A ticket is that of one call. -/
theorem Lawful.called_unique {past future : List (Event Op Answer Reply Outside)} {op : Op}
    (hlawful : Lawful service capacity world (past ++ .called i op :: future)) (op' : Op) :
    .called i op' ∉ past ∧ .called i op' ∉ future := by
  have hi : i = (calledOps past).length := hlawful past _ future rfl
  constructor
  · intro hmem
    obtain ⟨past', between, rfl⟩ := List.append_of_mem hmem
    have hi' : i = (calledOps past').length := hlawful.left past' _ between rfl
    simp only [calledOps, List.filterMap_append, List.filterMap_cons, Event.calledOp,
      List.length_append, List.length_cons] at hi hi'
    omega
  · intro hmem
    obtain ⟨between, future', rfl⟩ := List.append_of_mem hmem
    have hi' : i = (calledOps (past ++ .called i op :: between)).length :=
      hlawful _ (.called i op') future' (by simp)
    simp only [calledOps, List.filterMap_append, List.filterMap_cons, Event.calledOp,
      List.length_append, List.length_cons] at hi hi'
    omega

/-- A call has one operation. -/
theorem Lawful.called_eq (hlawful : Lawful service capacity world h) {op op' : Op}
    (hcalled : .called i op ∈ h) (hcalled' : .called i op' ∈ h) : op = op' := by
  obtain ⟨past, future, rfl⟩ := List.append_of_mem hcalled
  obtain ⟨hpast, hfuture⟩ := hlawful.called_unique op'
  rcases List.mem_append.mp hcalled' with hmem | hmem
  · exact absurd hmem hpast
  · rcases List.mem_cons.mp hmem with hsame | hmem
    · exact (Event.called.inj hsame).2.symm
    · exact absurd hmem hfuture

/-- What every event of a part of the history keeps, the part keeps. -/
theorem replay_of_keeps {P : σ → Prop} {w : σ} (hP : P w)
    (hkeeps : ∀ e ∈ h, ∀ w, P w → P (e.apply service w)) : P (replay service w h) := by
  induction h generalizing w with
  | nil => exact hP
  | cons e h ih =>
    exact ih (hkeeps e List.mem_cons_self w hP) fun e' he' => hkeeps e' (List.mem_cons_of_mem _ he')

/-- A lawful history is linearizable. -/
theorem Lawful.linearizable (hlawful : Lawful service capacity world h) :
    Linearizable service world h where
  sequential past i op answer reply future heq := (hlawful past _ future heq).2.2.2
  within past i op answer reply future heq := by
    have hpast : Lawful service capacity world past := by
      rw [heq] at hlawful
      exact hlawful.left
    obtain ⟨-, hlive, hop, -⟩ := hlawful past _ future heq
    refine ⟨hpast.called_mem hop, fun result hmem => ?_⟩
    rw [heq] at hlawful
    -- No call that has returned is performed afterwards, whatever it has returned.
    obtain ⟨hnot, -⟩ := hlawful.of_performed
    obtain ⟨past', future', rfl⟩ := List.append_of_mem hmem
    have hreturned := hpast past' _ future' rfl
    have hsub : past' ⊆ past' ++ .returned i result :: future' := List.subset_append_left _ _
    match result, hreturned with
    | .ok reply', hreturned =>
      obtain ⟨-, op', answer', hmem'⟩ := hreturned
      exact hnot (performedId_mem (hsub hmem'))
    | .error .send, hreturned => exact hlive (hreturned.2.2.1.mono hsub)
    | .error .receive, hreturned => exact hlive (hreturned.2.1.mono hsub)
  once :=
    -- What is performed is a part of what is taken, and that of what is sent, each once.
    hlawful.nodup_sentIds.sublist
      (hlawful.performedIds_begin.trans hlawful.takenIds_begin).sublist
  fifo := hlawful.performedIds_begin.trans hlawful.takenIds_begin
  own past i reply future heq := (hlawful past _ future heq).2
  failed past i error future heq := by
    have hreturned := hlawful past _ future heq
    have hpast : Lawful service capacity world past := by
      rw [heq] at hlawful
      exact hlawful.left
    have hstopped : Stopped past := by
      match error, hreturned with
      | .send, hreturned => exact hreturned.2.2.1
      | .receive, hreturned => exact hreturned.2.1
    refine ⟨hstopped, fun op answer reply hmem => ?_⟩
    subst heq
    rcases List.mem_append.mp hmem with hbefore | hafter
    · -- It was sent then, and has a reply.
      match error, hreturned with
      | .send, hreturned =>
        have hbegin := hpast.performedIds_begin.trans hpast.takenIds_begin
        exact hreturned.2.2.2 (hbegin.subset (performedId_mem hbefore))
      | .receive, hreturned => exact hreturned.2.2.2 op answer reply hbefore
    · -- A worker that has ended performs nothing.
      rcases List.mem_cons.mp hafter with heq | hfuture
      · cases heq
      · obtain ⟨between, future', rfl⟩ := List.append_of_mem hfuture
        have hperformed := hlawful (past ++ .returned i (.error error) :: between)
          (.performed i op answer (some reply)) future' (by simp)
        exact hperformed.2.1 (hstopped.mono (List.subset_append_left _ _))
  ends := hlawful.nodup_overIds

/-- A call that returns a reply has that of its own operation. -/
theorem Lawful.perform_of_returned (hlawful : Lawful service capacity world h) {op : Op}
    {reply : Reply} (hcalled : .called i op ∈ h) (hreturned : .returned i (.ok reply) ∈ h) :
    ∃ w answer w', service.perform w op answer = some (some reply, w') := by
  have hlinear := hlawful.linearizable
  obtain ⟨past, future, rfl⟩ := List.append_of_mem hreturned
  obtain ⟨op', answer, hperformed⟩ := hlinear.own _ _ _ _ rfl
  obtain ⟨past', future', rfl⟩ := List.append_of_mem hperformed
  have heq : past' ++ .performed i op' answer (some reply) :: future' ++
      .returned i (.ok reply) :: future = past' ++ .performed i op' answer (some reply) ::
        (future' ++ .returned i (.ok reply) :: future) := by simp
  obtain ⟨w', hperform⟩ := hlinear.sequential _ _ _ _ _ _ heq
  -- The operation is that of the call.
  have hcalled' : .called i op' ∈ past' ++ .performed i op' answer (some reply) :: future' ++
      .returned i (.ok reply) :: future := by
    rw [heq]
    exact List.mem_append_left _ (hlinear.within _ _ _ _ _ _ heq).1
  obtain rfl := hlawful.called_eq hcalled' hcalled
  exact ⟨_, answer, w', hperform⟩

/-- The operation of a call that returns a reply is performed while the call is in progress. -/
theorem Lawful.performed_between {before during after : List (Event Op Answer Reply Outside)}
    {op : Op} {reply : Reply} (hlawful : Lawful service capacity world
      (before ++ .called i op :: during ++ .returned i (.ok reply) :: after)) :
    ∃ first answer last, during = first ++ .performed i op answer (some reply) :: last := by
  have hlinear := hlawful.linearizable
  obtain ⟨op', answer, hmem⟩ := hlinear.own (before ++ .called i op :: during) i reply after rfl
  obtain ⟨past, future, heq⟩ := List.append_of_mem hmem
  have hcalled := (hlinear.within past i op' answer (some reply)
    (future ++ .returned i (.ok reply) :: after) (by rw [heq]; simp)).1
  have hsplit : Lawful service capacity world (before ++ .called i op :: during) := hlawful.left
  have hunique := hsplit.called_unique
  -- It is the operation of the call, for the ticket is that of no other one.
  obtain rfl : op' = op := by
    refine hsplit.called_eq ?_ (List.mem_append_right _ List.mem_cons_self)
    rw [heq]
    exact List.mem_append_left _ hcalled
  rcases List.mem_append.mp hmem with hbefore | hrest
  · -- It is not performed before the call.
    obtain ⟨past', future', rfl⟩ := List.append_of_mem hbefore
    have hcalled' := (hlinear.within past' i op' answer (some reply)
      (future' ++ .called i op' :: during ++ .returned i (.ok reply) :: after) (by simp)).1
    exact absurd (List.mem_append_left _ hcalled') (hunique op').1
  · rcases List.mem_cons.mp hrest with hsame | hduring
    · cases hsame
    · obtain ⟨first, last, rfl⟩ := List.append_of_mem hduring
      exact ⟨first, answer, last, rfl⟩

/-- A call that starts has a ticket past those of the calls before it. -/
theorem Lawful.length_le_of_called {past future : List (Event Op Answer Reply Outside)} {op : Op}
    (hlawful : Lawful service capacity world (past ++ future)) (hmem : .called i op ∈ future) :
    (calledOps past).length ≤ i := by
  obtain ⟨between, future', rfl⟩ := List.append_of_mem hmem
  have hi : i = (calledOps (past ++ between)).length :=
    hlawful _ (.called i op) future' (by simp)
  rw [hi, calledOps, calledOps, List.filterMap_append, List.length_append]
  exact Nat.le_add_right _ _

/-- After the worker has ended, nothing is performed. -/
theorem Lawful.not_performed_after {past future : List (Event Op Answer Reply Outside)}
    (hlawful : Lawful service capacity world (past ++ e :: future)) (hstops : e.Stops) {op : Op}
    {answer : Answer} {reply : Option Reply} : .performed i op answer reply ∉ future := by
  intro hmem
  obtain ⟨between, future', rfl⟩ := List.append_of_mem hmem
  have hperformed := hlawful (past ++ e :: between) (.performed i op answer reply) future'
    (by simp)
  exact hperformed.2.1 ⟨e, by simp, hstops⟩

/-- After the worker has ended, a call that starts cannot send its operation, and fails so. -/
theorem Lawful.refused_after {past future : List (Event Op Answer Reply Outside)}
    (hlawful : Lawful service capacity world (past ++ e :: future)) (hstops : e.Stops) {op : Op}
    (hcalled : .called i op ∈ future) {result : Except ChannelError Reply}
    (hreturned : .returned i result ∈ past ++ e :: future) : result = .error .send := by
  have hsplit : past ++ e :: future = (past ++ [e]) ++ future := by simp
  have hlt := (hsplit ▸ hlawful).length_le_of_called hcalled
  obtain ⟨past', future', heq⟩ := List.append_of_mem hreturned
  have hbegin : Lawful service capacity world past' := by
    rw [heq] at hlawful
    exact hlawful.left
  -- The operation of such a call is not sent.
  have hnot : i ∉ sentIds past' := by
    intro hmem
    obtain ⟨e', he', hid⟩ := List.mem_filterMap.mp hmem
    have hin : e' ∈ past ++ e :: future := by
      rw [heq]
      exact List.mem_append_left _ he'
    cases e' with
    | sent j =>
      obtain rfl := Option.some.inj hid
      have hstep : ∀ before after, past ++ e :: future = before ++ .sent j :: after →
          j < (calledOps before).length ∧ ¬ Stopped before := fun before after h =>
        ⟨(hlawful before _ after h).1, (hlawful before _ after h).2.2.2.1⟩
      rcases List.mem_append.mp hin with hpast | hrest
      · obtain ⟨before, between, rfl⟩ := List.append_of_mem hpast
        have hbound := (hstep before (between ++ e :: future) (by simp)).1
        simp only [calledOps, List.filterMap_append, List.length_append] at hlt hbound
        omega
      · rcases List.mem_cons.mp hrest with rfl | hfuture
        · exact hstops
        · obtain ⟨between, after, rfl⟩ := List.append_of_mem hfuture
          exact (hstep (past ++ e :: between) after (by simp)).2 ⟨e, by simp, hstops⟩
    | _ => cases hid
  have hreturn := hlawful past' _ future' heq
  match result, hreturn with
  | .error .send, _ => rfl
  | .error .receive, hreturn => exact absurd hreturn.2.2.1 hnot
  | .ok reply, hreturn =>
    obtain ⟨-, op', answer, hmem⟩ := hreturn
    have hperformed := hbegin.performedIds_begin.trans hbegin.takenIds_begin
    exact absurd (hperformed.subset (performedId_mem hmem)) hnot

end

end

end Worker
