import Elgate.Foundation.Amortized
import Elgate.Foundation.Worker

/-!
# Runs of a worker behind a channel

Every run keeps what the state says of the history (`Inv`): the channel has the operations that were
sent and not taken, the phase of a call says whether its operation was sent and performed, and each
event follows from the ones before it. While a call is in progress, a caller or the worker can take
a step (`Inv.progress`), and they take no more than four for each call (`internal_le`).
-/

namespace Worker

open Transition

section
variable {σ Op Answer Reply Outside : Type*}

/-! ## What holds in every run -/

/-- What the phase of the call `i` says of the history. -/
def PhaseSays (h : List (Event Op Answer Reply Outside)) (i : ℕ) : Option (Phase Op Reply) → Prop
  | none => i ∈ overIds h ∨ (calledOps h).length ≤ i
  | some (.sending op) => (calledOps h)[i]? = some op ∧ i ∉ sentIds h ∧ i ∉ overIds h
  | some .waiting => i ∈ sentIds h ∧ i ∉ overIds h ∧
      ∀ op answer reply, .performed i op answer (some reply) ∉ h
  | some (.answered reply) => i ∈ performedIds h ∧ i ∉ overIds h ∧
      ∃ op answer, .performed i op answer (some reply) ∈ h

/-- The state is the one that the history says. -/
structure Inv (service : Service σ Op Answer Reply Outside) (capacity : ℕ) (world : σ)
    (s : State σ Op Answer Reply Outside) : Prop where
  /-- Every event follows from the ones before it. -/
  lawful : Lawful service capacity world s.history
  /-- The calls have got the tickets below the next one. -/
  next : s.next = (calledOps s.history).length
  /-- The state that the worker works on is the one that its operations have left. -/
  world : s.world = replay service world s.history
  /-- The worker is live until it ends. -/
  live : s.live = true ↔ ¬ Stopped s.history
  /-- The channel has no more than its capacity. -/
  room : s.channel.length ≤ capacity
  /-- The worker has performed what it has taken, but the operation that it serves. -/
  taken : takenIds s.history = performedIds s.history ++ (s.serving.map Prod.fst).toList
  /-- What was sent has been taken, or is in the channel, unless that was closed. -/
  sent : takenIds s.history ++ s.channel.map Prod.fst <+: sentIds s.history ∧
    (s.live = true → takenIds s.history ++ s.channel.map Prod.fst = sentIds s.history)
  /-- A channel that was closed is empty. -/
  closed : s.live = false → s.channel = [] ∧ s.serving = none
  /-- The operations are those of the calls. -/
  ops : ∀ p ∈ s.serving.toList ++ s.channel, (calledOps s.history)[p.1]? = some p.2
  /-- What was sent or has ended was called. -/
  bounds : ∀ i ∈ sentIds s.history ++ overIds s.history, i < (calledOps s.history).length
  /-- The phases are right. -/
  phase : ∀ i, PhaseSays s.history i (s.phase i)

section
variable {service : Service σ Op Answer Reply Outside} {capacity : ℕ} {world : σ}
  {h : List (Event Op Answer Reply Outside)} {e : Event Op Answer Reply Outside}
  {s s' : State σ Op Answer Reply Outside} {i j : ℕ}

/-- An event of another call leaves what a phase says. -/
theorem PhaseSays.append {phase : Option (Phase Op Reply)} (hphases : PhaseSays h j phase)
    (hticket : e.ticket ≠ some j) (hcalled : ∀ i op, e = .called i op → i = (calledOps h).length) :
    PhaseSays (h ++ [e]) j phase := by
  -- The event is not about the call, so that each record of it is as before.
  have hsent : j ∈ sentIds (h ++ [e]) ↔ j ∈ sentIds h := by
    rw [sentIds_append, List.mem_append]
    refine or_iff_left fun hmem => hticket ?_
    cases e <;> simp [Event.sentId] at hmem
    rw [hmem, Event.ticket]
  have hover : j ∈ overIds (h ++ [e]) ↔ j ∈ overIds h := by
    rw [overIds_append, List.mem_append]
    refine or_iff_left fun hmem => hticket ?_
    cases e <;> simp [Event.overId] at hmem <;> rw [hmem, Event.ticket]
  have hperformed : ∀ op answer reply, .performed j op answer (some reply) ∈ h ++ [e] ↔
      .performed j op answer (some reply) ∈ h := by
    intro op answer reply
    rw [List.mem_append, List.mem_singleton]
    refine or_iff_left fun heq => hticket ?_
    rw [← heq, Event.ticket]
  have hcalledOps : ∀ op, (calledOps h)[j]? = some op → (calledOps (h ++ [e]))[j]? = some op := by
    intro op hop
    rw [calledOps_append, List.getElem?_append_left (List.getElem?_eq_some_iff.mp hop).1, hop]
  cases phase with
  | none =>
    rcases hphases with hmem | hle
    · exact Or.inl (hover.mpr hmem)
    · -- A call that starts has the next ticket, which is not that one.
      refine Or.inr ?_
      cases e with
      | called i op =>
        have hi := hcalled i op rfl
        have hne : i ≠ j := fun heq => hticket (by rw [Event.ticket, heq])
        simp only [calledOps_append, Event.calledOp, Option.toList_some, List.length_append,
          List.length_singleton]
        omega
      | _ =>
        simp only [calledOps_append, Event.calledOp, Option.toList_none, List.append_nil]
        exact hle
  | some phase =>
    cases phase with
    | sending op =>
      obtain ⟨hop, hnot, hnot'⟩ := hphases
      exact ⟨hcalledOps op hop, fun hmem => hnot (hsent.mp hmem),
        fun hmem => hnot' (hover.mp hmem)⟩
    | waiting =>
      obtain ⟨hmem, hnot, hreply⟩ := hphases
      exact ⟨hsent.mpr hmem, fun hmem => hnot (hover.mp hmem),
        fun op answer reply hmem => hreply op answer reply ((hperformed op answer reply).mp hmem)⟩
    | answered reply =>
      obtain ⟨hmem, hnot, op, answer, hreply⟩ := hphases
      refine ⟨?_, fun hmem => hnot (hover.mp hmem), op, answer,
        (hperformed op answer reply).mpr hreply⟩
      rw [performedIds_append]
      exact List.mem_append_left _ hmem

/-- No call has started. -/
theorem Inv.start (world : σ) : Inv service capacity world (State.start world) where
  lawful := Lawful.nil
  next := rfl
  world := rfl
  live := by simp [State.start, Stopped]
  room := Nat.zero_le _
  taken := rfl
  sent := ⟨List.prefix_rfl, fun _ => rfl⟩
  closed := by simp [State.start]
  ops := by simp [State.start]
  bounds := by simp [State.start, sentIds, overIds]
  phase _ := Or.inr (Nat.zero_le _)

/-- A call that is in progress has started. -/
theorem Inv.lt_of_phase (hinv : Inv service capacity world s) {phase : Phase Op Reply}
    (hphase : s.phase i = some phase) :
    i < (calledOps s.history).length ∧ i ∉ overIds s.history := by
  have hphases := hinv.phase i
  rw [hphase] at hphases
  cases phase with
  | sending op => exact ⟨(List.getElem?_eq_some_iff.mp hphases.1).1, hphases.2.2⟩
  | waiting => exact ⟨hinv.bounds i (List.mem_append_left _ hphases.1), hphases.2.1⟩
  | answered reply =>
    refine ⟨hinv.bounds i (List.mem_append_left _ ?_), hphases.2.1⟩
    have hbegin : performedIds s.history <+: sentIds s.history := by
      refine List.IsPrefix.trans ?_ hinv.sent.1
      rw [hinv.taken, List.append_assoc]
      exact List.prefix_append _ _
    exact hbegin.subset hphases.1

/-- A call starts. -/
theorem Inv.call (hinv : Inv service capacity world s) (op : Op) :
    Inv service capacity world (({ s with next := s.next + 1 }.setPhase s.next
      (some (.sending op))).record (.called s.next op)) where
  lawful := hinv.lawful.append hinv.next
  next := by simp [State.record, State.setPhase, hinv.next, Event.calledOp]
  world := by simp [State.record, State.setPhase, hinv.world, Event.apply]
  live := by simp [State.record, State.setPhase, hinv.live, Event.Stops]
  room := hinv.room
  taken := by simp [State.record, State.setPhase, hinv.taken, Event.takenId, Event.performedId]
  sent := by
    simpa [State.record, State.setPhase, Event.takenId, Event.sentId] using hinv.sent
  closed := hinv.closed
  ops p hp := by
    have hop := hinv.ops p hp
    simp only [State.record, State.setPhase, calledOps_append]
    rw [List.getElem?_append_left (List.getElem?_eq_some_iff.mp hop).1, hop]
  bounds i hi := by
    have hlt := hinv.bounds i (by simpa [State.record, State.setPhase, Event.sentId, Event.overId]
      using hi)
    simp only [State.record, State.setPhase, calledOps_append, Event.calledOp, Option.toList_some,
      List.length_append, List.length_singleton]
    omega
  phase i := by
    -- The new ticket is in no record yet, as all recorded ones are below it.
    by_cases hi : i = s.next
    · subst hi
      have hbound : s.next ∉ sentIds s.history ++ overIds s.history := fun hmem =>
        absurd (hinv.bounds _ hmem) (by rw [hinv.next]; exact Nat.lt_irrefl _)
      rw [List.mem_append, not_or] at hbound
      simp only [State.record, State.setPhase, Function.update_self]
      refine ⟨?_, ?_, ?_⟩
      · rw [calledOps_append, hinv.next]
        exact List.getElem?_concat_length
      · simpa [Event.sentId] using hbound.1
      · simpa [Event.overId] using hbound.2
    · have hphases := hinv.phase i
      simp only [State.record, State.setPhase, Function.update_of_ne hi]
      refine hphases.append (by simp [Event.ticket, Ne.symm hi]) ?_
      rintro j op' heq
      obtain ⟨rfl, -⟩ := Event.called.inj heq
      exact hinv.next

/-- The operation of a call is sent. -/
theorem Inv.send (hinv : Inv service capacity world s) {op : Op}
    (hphase : s.phase i = some (.sending op)) (hlive : s.live = true)
    (hroom : s.channel.length < capacity) :
    Inv service capacity world (({ s with channel := s.channel ++ [(i, op)] }.setPhase i
      (some .waiting)).record (.sent i)) := by
  have hphases := hinv.phase i
  rw [hphase] at hphases
  obtain ⟨hop, hsent, hover⟩ := hphases
  have hstopped := hinv.live.mp hlive
  have hchannel := hinv.sent.2 hlive
  have hlen := congrArg List.length hchannel
  rw [List.length_append, List.length_map] at hlen
  have hfollows : Follows service capacity world s.history (.sent i) :=
    ⟨(List.getElem?_eq_some_iff.mp hop).1, hsent, hover, hstopped, by omega⟩
  have hnext : takenIds s.history ++ (s.channel ++ [(i, op)]).map Prod.fst =
      sentIds s.history ++ [i] := by
    rw [List.map_append, ← List.append_assoc, hchannel]
    rfl
  exact {
    lawful := hinv.lawful.append hfollows
    next := by simp [State.record, State.setPhase, hinv.next, Event.calledOp]
    world := by simp [State.record, State.setPhase, hinv.world, Event.apply]
    live := by simp [State.record, State.setPhase, hinv.live, Event.Stops]
    room := by
      simp only [State.record, State.setPhase, List.length_append, List.length_singleton]
      omega
    taken := by simp [State.record, State.setPhase, hinv.taken, Event.takenId, Event.performedId]
    sent := by
      have heq : takenIds (s.history ++ [.sent i]) ++ (s.channel ++ [(i, op)]).map Prod.fst =
          sentIds (s.history ++ [.sent i]) := by
        rw [takenIds_append, sentIds_append]
        simpa [Event.takenId, Event.sentId] using hnext
      exact ⟨heq ▸ List.prefix_rfl, fun _ => heq⟩
    closed := fun hdead => absurd (hlive.symm.trans hdead) (by decide)
    ops := by
      intro p hp
      simp only [State.record, State.setPhase, calledOps_append, Event.calledOp, Option.toList_none,
        List.append_nil]
      simp only [State.record, State.setPhase] at hp
      rw [← List.append_assoc, List.mem_append, List.mem_singleton] at hp
      rcases hp with hp | rfl
      · exact hinv.ops p hp
      · exact hop
    bounds := by
      intro j hj
      simp only [State.record, State.setPhase, calledOps_append, Event.calledOp, Option.toList_none,
        List.append_nil]
      simp only [State.record, State.setPhase, sentIds_append, overIds_append, Event.sentId,
        Event.overId, Option.toList_some, Option.toList_none, List.append_nil, List.mem_append,
        List.mem_singleton] at hj
      rcases hj with (hj | rfl) | hj
      · exact hinv.bounds j (List.mem_append_left _ hj)
      · exact (List.getElem?_eq_some_iff.mp hop).1
      · exact hinv.bounds j (List.mem_append_right _ hj)
    phase := by
      intro j
      by_cases hj : j = i
      · subst hj
        simp only [State.record, State.setPhase, Function.update_self]
        refine ⟨by simp [Event.sentId], by simpa [Event.overId] using hover, ?_⟩
        intro op' answer reply hmem
        -- What was not sent has not been performed.
        rw [List.mem_append, List.mem_singleton] at hmem
        have hperformed : j ∈ performedIds s.history := by
          rcases hmem with hmem | heq
          · exact List.mem_filterMap.mpr ⟨_, hmem, rfl⟩
          · cases heq
        refine hsent (List.IsPrefix.subset ?_ hperformed)
        refine List.IsPrefix.trans ?_ hinv.sent.1
        rw [hinv.taken, List.append_assoc]
        exact List.prefix_append _ _
      · simp only [State.record, State.setPhase, Function.update_of_ne hj]
        exact (hinv.phase j).append (by simp [Event.ticket, Ne.symm hj])
          (by rintro j op' heq; cases heq) }

/-- A call ends. -/
theorem Inv.endCall (hinv : Inv service capacity world s)
    (he : (∃ result, e = .returned i result) ∨ e = .cancelled i)
    (hfollows : Follows service capacity world s.history e)
    (hlt : i < (calledOps s.history).length) :
    Inv service capacity world ((s.setPhase i none).record e) := by
  -- A return and a cancellation are recorded in the same way: only the call is over.
  have hids : e.calledOp = none ∧ e.sentId = none ∧ e.takenId = none ∧ e.performedId = none ∧
      e.overId = some i ∧ e.ticket = some i ∧ ¬ e.Stops ∧
      (∀ w, e.apply service w = w) ∧ ∀ j op, e ≠ .called j op := by
    rcases he with ⟨result, rfl⟩ | rfl <;>
      exact ⟨rfl, rfl, rfl, rfl, rfl, rfl, id, fun _ => rfl, by rintro j op ⟨⟩⟩
  obtain ⟨hcalled, hsent, htaken, hperformed, hover, hticket, hstops, happly, hnot⟩ := hids
  exact {
    lawful := hinv.lawful.append hfollows
    next := by simp [State.record, State.setPhase, hinv.next, hcalled]
    world := by simp [State.record, State.setPhase, hinv.world, happly]
    live := by simp [State.record, State.setPhase, hinv.live, hstops]
    room := hinv.room
    taken := by simp [State.record, State.setPhase, hinv.taken, htaken, hperformed]
    sent := by simpa [State.record, State.setPhase, htaken, hsent] using hinv.sent
    closed := hinv.closed
    ops := by simpa [State.record, State.setPhase, hcalled] using hinv.ops
    bounds := by
      intro j hj
      simp only [State.record, State.setPhase, calledOps_append, hcalled, Option.toList_none,
        List.append_nil]
      simp only [State.record, State.setPhase, sentIds_append, overIds_append, hsent, hover,
        Option.toList_some, Option.toList_none, List.append_nil, List.mem_append,
        List.mem_singleton] at hj
      rcases hj with hj | hj | rfl
      · exact hinv.bounds j (List.mem_append_left _ hj)
      · exact hinv.bounds j (List.mem_append_right _ hj)
      · exact hlt
    phase := by
      intro j
      by_cases hj : j = i
      · subst hj
        simp only [State.record, State.setPhase, Function.update_self]
        exact Or.inl (by simp [hover])
      · simp only [State.record, State.setPhase, Function.update_of_ne hj]
        refine (hinv.phase j).append (by simp [hticket, Ne.symm hj]) ?_
        intro j op heq
        exact absurd heq (hnot j op) }

/-- The worker takes the oldest operation of the channel. -/
theorem Inv.take (hinv : Inv service capacity world s) {op : Op} {rest : List (ℕ × Op)}
    (hserving : s.serving = none) (hchannel : s.channel = (i, op) :: rest) :
    Inv service capacity world
      ({ s with channel := rest, serving := some (i, op) }.record (.taken i)) := by
  have hlive : s.live = true := by
    cases hdead : s.live with
    | true => rfl
    | false => exact absurd (hinv.closed hdead).1 (by rw [hchannel]; exact List.cons_ne_nil _ _)
  have htaken : takenIds s.history = performedIds s.history := by
    rw [hinv.taken, hserving]
    exact List.append_nil _
  have hsent := hinv.sent.2 hlive
  rw [hchannel, List.map_cons, List.append_cons] at hsent
  have hroom := hinv.room
  rw [hchannel, List.length_cons] at hroom
  have hnext : takenIds (s.history ++ [.taken i]) ++ rest.map Prod.fst =
      sentIds (s.history ++ [.taken i]) := by
    simpa [Event.takenId, Event.sentId] using hsent
  have hfollows : Follows service capacity world s.history (.taken i) :=
    ⟨htaken, hinv.live.mp hlive, hsent ▸ List.prefix_append _ _⟩
  exact {
    lawful := hinv.lawful.append hfollows
    next := by simp [State.record, hinv.next, Event.calledOp]
    world := by simp [State.record, hinv.world, Event.apply]
    live := by simp [State.record, hinv.live, Event.Stops]
    room := Nat.le_of_succ_le hroom
    taken := by simp [State.record, htaken, Event.takenId, Event.performedId]
    sent := ⟨hnext ▸ List.prefix_rfl, fun _ => hnext⟩
    closed := fun hdead => absurd (hlive.symm.trans hdead) (by decide)
    ops := by
      intro p hp
      simp only [State.record, calledOps_append, Event.calledOp, Option.toList_none,
        List.append_nil]
      refine hinv.ops p ?_
      rw [hserving, hchannel]
      exact hp
    bounds := by simpa [State.record, Event.sentId, Event.overId, Event.calledOp] using hinv.bounds
    phase := by
      intro j
      have hphases := hinv.phase j
      simp only [State.record]
      -- Nothing depends on what was taken.
      cases hphase : s.phase j with
      | none => simpa [PhaseSays, hphase, Event.overId, Event.calledOp] using hphases
      | some phase =>
        rw [hphase] at hphases
        cases phase with
        | sending op' =>
          simpa [PhaseSays, Event.overId, Event.calledOp, Event.sentId] using hphases
        | waiting => simpa [PhaseSays, Event.overId, Event.sentId] using hphases
        | answered reply => simpa [PhaseSays, Event.overId, Event.performedId] using hphases }

/-- The phases after an operation is performed: that of its call, and the others. -/
theorem PhaseSays.afterPerform (hinv : Inv service capacity world s) {op : Op} {answer : Answer}
    {reply : Option Reply} (w : σ) (hsent : i ∈ sentIds s.history)
    (hperformed : i ∉ performedIds s.history) (j : ℕ) :
    PhaseSays (s.history ++ [.performed i op answer reply]) j
      ((s.afterPerform i w reply).phase j) := by
  have hothers : ∀ {phase}, j ≠ i → s.phase j = phase →
      PhaseSays (s.history ++ [.performed i op answer reply]) j phase := by
    intro phase hj hphase
    refine (hphase ▸ hinv.phase j).append (by simp [Event.ticket, Ne.symm hj]) ?_
    rintro k op' heq
    cases heq
  have hphases := hinv.phase j
  by_cases hj : j = i
  · subst hj
    cases hphase : s.phase j with
    | none =>
      rw [hphase] at hphases
      have hnone : (s.afterPerform j w reply).phase j = none := by
        unfold State.afterPerform
        cases reply <;> simp [State.close, hphase]
      rw [hnone]
      simpa [PhaseSays, Event.overId, Event.calledOp] using hphases
    | some phase =>
      rw [hphase] at hphases
      cases phase with
      | sending op' => exact absurd hsent hphases.2.1
      | answered reply' => exact absurd hphases.1 hperformed
      | waiting =>
        obtain ⟨hmem, hover, hreply⟩ := hphases
        cases reply with
        | none =>
          -- The worker has panicked, so there is no reply.
          have hsame : (s.afterPerform j w none).phase j = some .waiting := hphase
          rw [hsame]
          refine ⟨by simp [hmem], by simpa [Event.overId] using hover, ?_⟩
          intro op' answer' reply' hmem'
          rw [List.mem_append, List.mem_singleton] at hmem'
          rcases hmem' with hmem' | heq
          · exact hreply op' answer' reply' hmem'
          · cases heq
        | some reply =>
          have hanswered : (s.afterPerform j w (some reply)).phase j = some (.answered reply) := by
            simp [State.afterPerform, State.setPhase, hphase]
          rw [hanswered]
          exact ⟨by simp [Event.performedId], by simpa [Event.overId] using hover, op, answer,
            by simp⟩
  · refine hothers hj ?_
    unfold State.afterPerform
    cases reply with
    | none => rfl
    | some reply =>
      dsimp only
      split
      · simp [State.setPhase, Function.update_of_ne hj]
      · rfl

/-- The worker performs the operation that it has taken. -/
theorem Inv.perform (hinv : Inv service capacity world s) {op : Op} {answer : Answer}
    {reply : Option Reply} {w : σ} (hserving : s.serving = some (i, op))
    (hperform : service.perform s.world op answer = some (reply, w)) :
    Inv service capacity world
      ((s.afterPerform i w reply).record (.performed i op answer reply)) := by
  have hlive : s.live = true := by
    cases hdead : s.live with
    | true => rfl
    | false =>
      exact absurd (hinv.closed hdead).2 (by rw [hserving]; exact Option.some_ne_none _)
  have htaken : takenIds s.history = performedIds s.history ++ [i] := by
    rw [hinv.taken, hserving]
    rfl
  have hsentIds := hinv.sent.2 hlive
  have hsent : i ∈ sentIds s.history := by
    rw [← hsentIds, htaken]
    simp
  have hperformed : i ∉ performedIds s.history := by
    have hnodup := hinv.lawful.nodup_sentIds
    rw [← hsentIds, htaken] at hnodup
    have hleft := (List.nodup_append.mp hnodup).1
    exact fun hmem => (List.nodup_append.mp hleft).2.2 i hmem i (List.mem_singleton_self i) rfl
  have hop : (calledOps s.history)[i]? = some op := by
    refine hinv.ops (i, op) ?_
    rw [hserving]
    exact List.mem_append_left _ (List.mem_singleton_self _)
  have hworld : service.perform (replay service world s.history) op answer = some (reply, w) := by
    rw [← hinv.world, hperform]
  have hfollows : Follows service capacity world s.history (.performed i op answer reply) :=
    ⟨htaken, hinv.live.mp hlive, hop, w, hworld⟩
  -- What does not depend on whether the worker goes on.
  have hrest : (s.afterPerform i w reply).next = s.next ∧ (s.afterPerform i w reply).world = w ∧
      (s.afterPerform i w reply).serving = none ∧
      (s.afterPerform i w reply).history = s.history := by
    unfold State.afterPerform
    cases reply with
    | none => exact ⟨rfl, rfl, rfl, rfl⟩
    | some reply =>
      dsimp only
      split <;> exact ⟨rfl, rfl, rfl, rfl⟩
  have hgoes : ((∃ r, reply = some r) ∧ (s.afterPerform i w reply).live = true ∧
      (s.afterPerform i w reply).channel = s.channel) ∨
      (reply = none ∧ (s.afterPerform i w reply).live = false ∧
        (s.afterPerform i w reply).channel = []) := by
    unfold State.afterPerform
    cases reply with
    | none => exact Or.inr ⟨rfl, rfl, rfl⟩
    | some reply =>
      dsimp only
      split <;> exact Or.inl ⟨⟨_, rfl⟩, hlive, rfl⟩
  obtain ⟨hnext', hworld', hserving', hhistory'⟩ := hrest
  have hphases : ∀ j, PhaseSays (s.history ++ [.performed i op answer reply]) j
      ((s.afterPerform i w reply).phase j) :=
    fun j => PhaseSays.afterPerform hinv w hsent hperformed j
  generalize s.afterPerform i w reply = t at hnext' hworld' hserving' hhistory' hgoes hphases ⊢
  exact {
    lawful := by
      simp only [State.record, hhistory']
      exact hinv.lawful.append hfollows
    next := by simp [State.record, hnext', hhistory', hinv.next, Event.calledOp]
    world := by simp [State.record, hworld', hhistory', Event.apply, hworld]
    live := by
      simp only [State.record, hhistory', stopped_append]
      rcases hgoes with ⟨⟨r, rfl⟩, hlive', -⟩ | ⟨rfl, hlive', -⟩
      · simp [hlive', Event.Stops, hinv.live.mp hlive]
      · simp [hlive', Event.Stops]
    room := by
      rcases hgoes with ⟨-, -, hchannel'⟩ | ⟨-, -, hchannel'⟩
      · exact Nat.le_trans (Nat.le_of_eq (congrArg List.length hchannel')) hinv.room
      · exact Nat.le_trans (Nat.le_of_eq (congrArg List.length hchannel')) (Nat.zero_le _)
    taken := by
      simp [State.record, hserving', hhistory', htaken, Event.takenId, Event.performedId]
    sent := by
      simp only [State.record, hhistory', takenIds_append, sentIds_append, Event.takenId,
        Event.sentId, Option.toList_none, List.append_nil]
      rcases hgoes with ⟨-, -, hchannel'⟩ | ⟨-, hlive', hchannel'⟩
      · rw [hchannel', hsentIds]
        exact ⟨List.prefix_rfl, fun _ => rfl⟩
      · rw [hchannel', List.map_nil, List.append_nil]
        refine ⟨(List.prefix_append _ _).trans hinv.sent.1, fun hlive'' => ?_⟩
        rw [hlive'] at hlive''
        cases hlive''
    closed := by
      intro hdead
      rcases hgoes with ⟨-, hlive', -⟩ | ⟨-, -, hchannel'⟩
      · exact absurd (hlive'.symm.trans hdead) (by decide)
      · exact ⟨hchannel', hserving'⟩
    ops := by
      intro p hp
      simp only [State.record, hserving', Option.toList_none, List.nil_append] at hp
      simp only [State.record, hhistory', calledOps_append, Event.calledOp, Option.toList_none,
        List.append_nil]
      refine hinv.ops p (List.mem_append_right _ ?_)
      rcases hgoes with ⟨-, -, hchannel'⟩ | ⟨-, -, hchannel'⟩
      · rwa [hchannel'] at hp
      · rw [hchannel'] at hp
        exact absurd hp List.not_mem_nil
    bounds := by
      simpa [State.record, hhistory', Event.sentId, Event.overId, Event.calledOp] using hinv.bounds
    phase := by
      intro j
      simp only [State.record, hhistory']
      exact hphases j }

/-- The state changes otherwise. -/
theorem Inv.disturb (hinv : Inv service capacity world s) {change : Outside} {w : σ}
    (hdisturb : service.disturb s.world change = some w) :
    Inv service capacity world ({ s with world := w }.record (.disturbed change)) where
  lawful := hinv.lawful.append ⟨w, by rw [← hinv.world, hdisturb]⟩
  next := by simp [State.record, hinv.next, Event.calledOp]
  world := by simp [State.record, Event.apply, ← hinv.world, hdisturb]
  live := by simp [State.record, hinv.live, Event.Stops]
  room := hinv.room
  taken := by simp [State.record, hinv.taken, Event.takenId, Event.performedId]
  sent := by simpa [State.record, Event.takenId, Event.sentId] using hinv.sent
  closed := hinv.closed
  ops := by simpa [State.record, Event.calledOp] using hinv.ops
  bounds := by simpa [State.record, Event.sentId, Event.overId, Event.calledOp] using hinv.bounds
  phase j := (hinv.phase j).append (by simp [Event.ticket]) (by rintro i op ⟨⟩)

/-- The worker is stopped. -/
theorem Inv.stop (hinv : Inv service capacity world s) (hlive : s.live = true)
    (hserving : s.serving = none) : Inv service capacity world (s.close.record .stopped) where
  lawful := by
    refine hinv.lawful.append ⟨hinv.live.mp hlive, ?_⟩
    rw [hinv.taken, hserving]
    exact List.append_nil _
  next := by simp [State.record, State.close, hinv.next, Event.calledOp]
  world := by simp [State.record, State.close, hinv.world, Event.apply]
  live := by simp [State.record, State.close, Event.Stops]
  room := Nat.zero_le _
  taken := by simp [State.record, State.close, hinv.taken, Event.takenId, Event.performedId]
  sent := by
    refine ⟨?_, fun hdead => by cases hdead⟩
    simpa [State.record, State.close, Event.takenId, Event.sentId] using
      (List.prefix_append _ _).trans hinv.sent.1
  closed _ := ⟨rfl, hserving⟩
  ops := by simp [State.record, State.close, hserving]
  bounds := by
    simpa [State.record, State.close, Event.sentId, Event.overId, Event.calledOp] using hinv.bounds
  phase j := (hinv.phase j).append (by simp [Event.ticket]) (by rintro i op ⟨⟩)

/-- A worker that is not live has ended. -/
theorem Inv.stopped_of_not_live (hinv : Inv service capacity world s) (hdead : ¬ s.live = true) :
    Stopped s.history :=
  Classical.not_not.mp fun hnot => hdead (hinv.live.mpr hnot)

/-- Every step keeps the invariant. -/
theorem Inv.step (hinv : Inv service capacity world s) {a : Action Op Answer Outside}
    (hstep : step service capacity s a = some s') : Inv service capacity world s' := by
  cases a with
  | call op =>
    obtain rfl := Option.some.inj hstep
    exact hinv.call op
  | send i =>
    simp only [Worker.step] at hstep
    split at hstep
    · rename_i op hphase
      split at hstep
      · rename_i hroom
        obtain rfl := Option.some.inj hstep
        exact hinv.send hphase hroom.1 hroom.2
      · cases hstep
    · cases hstep
  | refuse i =>
    simp only [Worker.step] at hstep
    split at hstep
    · rename_i op hphase
      split at hstep
      · cases hstep
      · -- The worker has ended, so that the operation is not performed later either.
        rename_i hdead
        obtain rfl := Option.some.inj hstep
        obtain ⟨hlt, hover⟩ := hinv.lt_of_phase hphase
        have hphases := hinv.phase i
        rw [hphase] at hphases
        have hstopped := hinv.stopped_of_not_live hdead
        exact hinv.endCall (Or.inl ⟨_, rfl⟩) ⟨hlt, hover, hstopped, hphases.2.1⟩ hlt
    · cases hstep
  | take =>
    simp only [Worker.step] at hstep
    split at hstep
    · rename_i i op rest hserving hchannel
      obtain rfl := Option.some.inj hstep
      exact hinv.take hserving hchannel
    · cases hstep
  | perform answer =>
    simp only [Worker.step] at hstep
    split at hstep
    · rename_i i op hserving
      obtain ⟨⟨reply, w⟩, hperform, rfl⟩ := Option.map_eq_some_iff.mp hstep
      exact hinv.perform hserving hperform
    · cases hstep
  | receive i =>
    simp only [Worker.step] at hstep
    split at hstep
    · rename_i reply hphase
      obtain rfl := Option.some.inj hstep
      obtain ⟨hlt, hover⟩ := hinv.lt_of_phase hphase
      have hphases := hinv.phase i
      rw [hphase] at hphases
      exact hinv.endCall (Or.inl ⟨_, rfl⟩) ⟨hover, hphases.2.2⟩ hlt
    · cases hstep
  | forsake i =>
    simp only [Worker.step] at hstep
    split at hstep
    · rename_i hphase
      split at hstep
      · cases hstep
      · rename_i hdead
        obtain rfl := Option.some.inj hstep
        obtain ⟨hlt, hover⟩ := hinv.lt_of_phase hphase
        have hphases := hinv.phase i
        rw [hphase] at hphases
        have hstopped := hinv.stopped_of_not_live hdead
        exact hinv.endCall (Or.inl ⟨_, rfl⟩) ⟨hover, hstopped, hphases.1, hphases.2.2⟩ hlt
    · cases hstep
  | cancel i =>
    simp only [Worker.step] at hstep
    split at hstep
    · rename_i phase hphase
      obtain rfl := Option.some.inj hstep
      obtain ⟨hlt, hover⟩ := hinv.lt_of_phase hphase
      exact hinv.endCall (Or.inr rfl) ⟨hlt, hover⟩ hlt
    · cases hstep
  | disturb change =>
    obtain ⟨w, hdisturb, rfl⟩ := Option.map_eq_some_iff.mp hstep
    exact hinv.disturb hdisturb
  | stop =>
    simp only [Worker.step] at hstep
    split at hstep
    · rename_i hstops
      obtain rfl := Option.some.inj hstep
      exact hinv.stop hstops.1 hstops.2
    · cases hstep

/-- The invariant holds in every run. -/
theorem Inv.of_reaches
    (hrun : Reaches (Worker.step service capacity) Always (State.start world) s) :
    Inv service capacity world s :=
  hrun.invariant (Inv.start world) fun _ _ _ ht _ hstep => ht.step hstep

/-- A reply is received, or waits for its call, unless the call was cancelled. -/
theorem Inv.reply_delivered (hinv : Inv service capacity world s) {op : Op} {answer : Answer}
    {reply : Reply} (hmem : .performed i op answer (some reply) ∈ s.history) :
    .returned i (.ok reply) ∈ s.history ∨ s.phase i = some (.answered reply) ∨
      .cancelled i ∈ s.history := by
  have hlinear := hinv.lawful.linearizable
  -- A ticket has one reply.
  have hunique : ∀ op' answer' reply', .performed i op' answer' (some reply') ∈ s.history →
      reply' = reply := by
    intro op' answer' reply' hmem'
    by_contra hne
    have hdiffer : (.performed i op' answer' (some reply') : Event Op Answer Reply Outside) ≠
        .performed i op answer (some reply) := by
      intro heq
      exact hne (Option.some.inj (Event.performed.inj heq).2.2.2)
    rcases before_or_before hmem' hmem hdiffer with ⟨past, future, heq, hbefore⟩ |
      ⟨past, future, heq, hbefore⟩
    · exact (heq ▸ hinv.lawful).of_performed.1 (performedId_mem hbefore)
    · exact (heq ▸ hinv.lawful).of_performed.1 (performedId_mem hbefore)
  have hphases := hinv.phase i
  cases hphase : s.phase i with
  | some phase =>
    rw [hphase] at hphases
    cases phase with
    | sending op' =>
      have hbegin := hinv.lawful.performedIds_begin.trans hinv.lawful.takenIds_begin
      exact absurd (hbegin.subset (performedId_mem hmem)) hphases.2.1
    | waiting => exact absurd hmem (hphases.2.2 op answer reply)
    | answered reply' =>
      obtain ⟨-, -, op', answer', hmem'⟩ := hphases
      exact Or.inr (Or.inl (by rw [hunique op' answer' reply' hmem']))
  | none =>
    rw [hphase] at hphases
    rcases hphases with hover | hle
    · obtain ⟨e, he, hid⟩ := List.mem_filterMap.mp hover
      cases e with
      | cancelled j =>
        obtain rfl := Option.some.inj hid
        exact Or.inr (Or.inr he)
      | returned j result =>
        obtain rfl := Option.some.inj hid
        obtain ⟨past, future, heq⟩ := List.append_of_mem he
        cases result with
        | error error => exact absurd hmem ((hlinear.failed _ _ _ _ heq).2 op answer reply)
        | ok reply' =>
          obtain ⟨op', answer', hmem'⟩ := hlinear.own _ _ _ _ heq
          have hin : .performed j op' answer' (some reply') ∈ s.history := by
            rw [heq]
            exact List.mem_append_left _ hmem'
          rw [hunique op' answer' reply' hin] at he
          exact Or.inl he
      | _ => cases hid
    · -- It has been called.
      obtain ⟨past, future, heq⟩ := List.append_of_mem hmem
      have hsent := (heq ▸ hinv.lawful).of_performed.2
      have hlt := hinv.bounds i (List.mem_append_left _ (by
        rw [heq, sentIds, List.filterMap_append]
        exact List.mem_append_left _ hsent))
      exact absurd hlt (Nat.not_lt.mpr hle)

/-! ## Progress -/

/-- The step is one of the callers or of the worker, and starts or cancels no call. -/
def Action.Internal : Action Op Answer Outside → Bool
  | .send _ | .refuse _ | .take | .perform _ | .receive _ | .forsake _ => true
  | .call _ | .cancel _ | .disturb _ | .stop => false

/-- While a call is in progress, a step is possible, if the outside answers every operation. -/
theorem Inv.progress (hinv : Inv service capacity world s) (hcapacity : 0 < capacity)
    (hanswers : ∀ world op, ∃ answer, (service.perform world op answer).isSome = true)
    (hphase : s.phase i ≠ none) :
    ∃ a : Action Op Answer Outside, a.Internal = true ∧
      (Worker.step service capacity s a).isSome = true := by
  -- The worker goes on when there is an operation for it.
  have hworker : s.serving ≠ none ∨ s.channel ≠ [] →
      ∃ a : Action Op Answer Outside, a.Internal = true ∧
        (Worker.step service capacity s a).isSome = true := by
    intro hwork
    cases hserving : s.serving with
    | some p =>
      obtain ⟨j, op⟩ := p
      obtain ⟨answer, hanswer⟩ := hanswers s.world op
      exact ⟨.perform answer, rfl, by simpa [Worker.step, hserving] using hanswer⟩
    | none =>
      cases hchannel : s.channel with
      | nil => simp [hserving, hchannel] at hwork
      | cons p rest => exact ⟨.take, rfl, by simp [Worker.step, hserving, hchannel]⟩
  have hphases := hinv.phase i
  cases hcall : s.phase i with
  | none => exact absurd hcall hphase
  | some phase =>
    rw [hcall] at hphases
    cases phase with
    | answered reply => exact ⟨.receive i, rfl, by simp [Worker.step, hcall]⟩
    | sending op =>
      cases hlive : s.live with
      | false => exact ⟨.refuse i, rfl, by simp [Worker.step, hcall, hlive]⟩
      | true =>
        by_cases hroom : s.channel.length < capacity
        · exact ⟨.send i, rfl, by simp [Worker.step, hcall, hlive, hroom]⟩
        · refine hworker (Or.inr fun hnil => hroom ?_)
          rw [hnil]
          exact hcapacity
    | waiting =>
      cases hlive : s.live with
      | false => exact ⟨.forsake i, rfl, by simp [Worker.step, hcall, hlive]⟩
      | true =>
        refine hworker ?_
        by_contra hidle
        obtain ⟨hserving, hchannel⟩ := not_or.mp hidle
        -- Otherwise it has performed all that was sent, and without a panic.
        have hsent := hinv.sent.2 hlive
        rw [not_not.mp hchannel, List.map_nil, List.append_nil, hinv.taken,
          not_not.mp hserving, Option.map_none, Option.toList_none, List.append_nil] at hsent
        have hmem := hphases.1
        rw [← hsent] at hmem
        obtain ⟨e, he, hid⟩ := List.mem_filterMap.mp hmem
        cases e with
        | performed j op answer reply =>
          obtain rfl := Option.some.inj hid
          cases reply with
          | some reply => exact hphases.2.2 op answer reply he
          | none => exact hinv.live.mp hlive ⟨_, he, trivial⟩
        | _ => cases hid

/-- What the calls have gone through: each is sent, taken, performed, and ended. -/
def moves (h : List (Event Op Answer Reply Outside)) : ℕ :=
  (sentIds h).length + (takenIds h).length + (performedIds h).length + (overIds h).length

/-- An event is one move of its call, or none. -/
theorem moves_append : moves (h ++ [e]) = moves h + (e.sentId.toList.length +
    e.takenId.toList.length + e.performedId.toList.length + e.overId.toList.length) := by
  simp only [moves, sentIds_append, takenIds_append, performedIds_append, overIds_append,
    List.length_append]
  omega

/-- No call goes through more than four moves. -/
theorem Inv.moves_le (hinv : Inv service capacity world s) :
    moves s.history ≤ 4 * (calledOps s.history).length := by
  have hbound : ∀ ids : List ℕ, ids.Nodup → ids ⊆ sentIds s.history ++ overIds s.history →
      ids.length ≤ (calledOps s.history).length := by
    intro ids hnodup hsub
    have hrange : ids ⊆ List.range (calledOps s.history).length := fun i hi =>
      List.mem_range.mpr (hinv.bounds i (hsub hi))
    have hle := (List.subperm_of_subset hnodup hrange).length_le
    rwa [List.length_range] at hle
  have hsent := hbound _ hinv.lawful.nodup_sentIds (List.subset_append_left _ _)
  have hover := hbound _ hinv.lawful.nodup_overIds (List.subset_append_right _ _)
  have htaken := hinv.lawful.takenIds_begin.length_le
  have hperformed := hinv.lawful.performedIds_begin.length_le
  unfold moves
  omega

/-- A step of a caller or of the worker is a move. -/
theorem moves_step {a : Action Op Answer Outside}
    (hstep : Worker.step service capacity s a = some s') :
    moves s.history + 1 ≤ moves s'.history + if !a.Internal then 1 else 0 := by
  -- The one event that a step records is a move, or it comes from outside.
  have hrecord : ∀ (t : State σ Op Answer Reply Outside) (e : Event Op Answer Reply Outside)
      (n : ℕ), t.history = s.history → 1 ≤ e.sentId.toList.length + e.takenId.toList.length +
        e.performedId.toList.length + e.overId.toList.length + n →
      moves s.history + 1 ≤ moves (t.record e).history + n := by
    intro t e n ht hle
    rw [State.record, ht, moves_append]
    omega
  cases a with
  | call op =>
    obtain rfl := Option.some.inj hstep
    exact hrecord _ _ _ rfl (Nat.le_refl _)
  | send i =>
    simp only [Worker.step] at hstep
    split at hstep
    · split at hstep
      · obtain rfl := Option.some.inj hstep
        exact hrecord _ _ _ rfl (Nat.le_refl _)
      · cases hstep
    · cases hstep
  | refuse i | forsake i =>
    simp only [Worker.step] at hstep
    split at hstep
    · split at hstep
      · cases hstep
      · obtain rfl := Option.some.inj hstep
        exact hrecord _ _ _ rfl (Nat.le_refl _)
    · cases hstep
  | take | receive i =>
    simp only [Worker.step] at hstep
    split at hstep
    · obtain rfl := Option.some.inj hstep
      exact hrecord _ _ _ rfl (Nat.le_refl _)
    · cases hstep
  | perform answer =>
    simp only [Worker.step] at hstep
    split at hstep
    · obtain ⟨⟨reply, w⟩, -, rfl⟩ := Option.map_eq_some_iff.mp hstep
      refine hrecord _ _ _ ?_ (Nat.le_refl _)
      unfold State.afterPerform
      cases reply with
      | none => rfl
      | some reply =>
        dsimp only
        split <;> rfl
    · cases hstep
  | cancel i =>
    simp only [Worker.step] at hstep
    split at hstep
    · obtain rfl := Option.some.inj hstep
      exact hrecord _ _ _ rfl (Nat.le_succ _)
    · cases hstep
  | disturb change =>
    obtain ⟨w, -, rfl⟩ := Option.map_eq_some_iff.mp hstep
    exact hrecord _ _ _ rfl (Nat.le_refl _)
  | stop =>
    simp only [Worker.step] at hstep
    split at hstep
    · obtain rfl := Option.some.inj hstep
      exact hrecord _ _ _ rfl (Nat.le_refl _)
    · cases hstep

/-- A run has no more than four steps for each call, and those from outside. -/
theorem length_le {as : List (Action Op Answer Outside)}
    (hrun : runWhere (Worker.step service capacity) Always (State.start world) as = some s) :
    as.length ≤ 4 * (calledOps s.history).length + as.countP fun a => !a.Internal := by
  have hpaid := length_le_of_pays (I := fun _ => True) (fun _ => 0)
    (fun s : State σ Op Answer Reply Outside => moves s.history)
    (fun a : Action Op Answer Outside => if !a.Internal then 1 else 0)
    (fun s a s' _ _ hstep => by have := moves_step hstep; omega) (fun _ _ _ _ _ _ => trivial)
    trivial hrun
  rw [Amortized.sum_map_ite] at hpaid
  have hmoves := (Inv.of_reaches (Reaches.of_runWhere hrun)).moves_le
  omega

end

end

end Worker
