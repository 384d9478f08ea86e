import Elgate.Ring.Ledger
import Elgate.Ring.Session

/-!
# One writer and one reader

A `read` that overtakes the `write` whose slot it passes resets the slot and never comes back to it
before the next lap, so the message is lost although `write` returns `Ok`
(`pipeline_inOrder_fails`). In a run in which the reader finds every slot that it passes `Ready`
(`System.FindsReady`), nothing is lost and the order is kept (`pipeline_inOrder`).
-/

namespace Elgate.Ring

open Threads Transition

section
variable {W R : Type}

/-- The calls of a single writer that have not failed, after one more event: the call that fails is
the last one that has started. -/
def unfailedStep (l : List WriteCall) : Event W R → List WriteCall
  | .writeCalled _ call => l ++ [call]
  | .writeReturned _ _ (.error _) => l.dropLast
  | _ => l

/-- The calls of a single writer that have not failed, in call order. -/
def unfailed (h : List (Event W R)) : List WriteCall := h.foldl unfailedStep []

/-- When no call fails, the calls that start are added to those before. -/
theorem foldl_unfailedStep {h : List (Event W R)} (hfailures : failures h = [])
    (l : List WriteCall) : h.foldl unfailedStep l = l ++ (calls h).map Prod.snd := by
  induction h generalizing l with
  | nil => exact (List.append_nil l).symm
  | cons ev h ih =>
    rw [List.foldl_cons]
    cases ev with
    | writeReturned w call result =>
      cases result with
      | ok idx => exact ih hfailures l
      | error e => cases hfailures
    | writeCalled w call =>
      rw [unfailedStep, ih hfailures, List.append_assoc]
      rfl
    | claimed | readyStored | readCalled | passed | readReturned => exact ih hfailures l

/-- When no call has failed, these are all calls. -/
theorem unfailed_eq {h : List (Event W R)} (hfailures : failures h = []) :
    unfailed h = (calls h).map Prod.snd := foldl_unfailedStep hfailures []

end

/-- Nothing is lost and the order is kept: the messages that have been returned are the first ones
of the writes that have not failed, and when the ring reads as empty while no call is in progress,
they include those of all writes that have returned `Ok`. -/
structure InOrder (rb : RingBuffer) (s : System Unit Unit) : Prop where
  /-- The messages are returned in call order. -/
  order : readMessages s.history <+: (unfailed s.history).map WriteCall.message
  /-- No message is left when nothing is read. -/
  complete : s.writer () = none → s.reader () = none →
    ((read rb).exec s.memory).1 = .ok none → okMessages s.history <+: readMessages s.history

namespace System

/-- The payload of a call that starts fits, and after the step all slots but one are claimed and not
passed, at most. -/
def Paced (rb : RingBuffer) (s : System Unit Unit) (a : Action Unit Unit) : Prop :=
  (match a with
    | .callWrite _ call => Fits rb call
    | _ => True) ∧
  ∀ s' ∈ s.step rb a,
    (claims s'.history).length ≤ (passes s'.history).length + (s.memory.header.slotCount - 1)

instance (rb : RingBuffer) (s : System Unit Unit) (a : Action Unit Unit) :
    Decidable (s.Paced rb a) := by
  cases a <;> exact inferInstanceAs (Decidable (_ ∧ _))

/-- When the reader checks the slot that it has passed, the slot is `Ready`. -/
def FindsReady (s : System Unit Unit) : Action Unit Unit → Prop
  | .stepRead _ _ =>
    match s.reader () with
    | some (.checkReady idx) => (s.memory.slots idx).getStatus = .ready
    | _ => True
  | _ => True

instance (s : System Unit Unit) (a : Action Unit Unit) : Decidable (s.FindsReady a) := by
  unfold FindsReady
  split
  · split <;> infer_instance
  · infer_instance

/-- A step that keeps the pace and finds the slots `Ready` keeps the messages in order. -/
theorem InFlight.step_of_paced {rb : RingBuffer} {N base : ℕ} {s s' : System Unit Unit}
    {a : Action Unit Unit} (h : InFlight rb N base [] s) (hpaced : s.Paced rb a)
    (hfinds : s.FindsReady a) (hstep : s.step rb a = some s') : InFlight rb N base [] s' := by
  obtain ⟨hfit, hafter⟩ := hpaced
  have hN : 0 < N ∧ s.memory.header.slotCount = N := by
    obtain ⟨c, l, hflow, -⟩ := h
    exact ⟨hflow.slotCount_pos, hflow.slotCount⟩
  refine h.step ?_ ?_ (fun _ => ?_) hstep
  · rintro w call rfl
    exact hfit
  · rintro spurious idx rfl hr
    simpa [FindsReady, hr] using hfinds
  · have hle := hafter s' hstep
    rw [hN.2] at hle
    simp only [List.length_nil]
    omega

/-- Messages in flight are in order, and an empty ring has none. -/
theorem InFlight.inOrder {rb : RingBuffer} {N base : ℕ} {s : System Unit Unit}
    (h : InFlight rb N base [] s) : InOrder rb s := by
  obtain ⟨c, l, hflow, hledger⟩ := h
  have hmessages : claimedMessages s.history = readMessages s.history ++ l := hledger.messages
  have hall : ∀ {α : Type} (l : List (Unit × α)), byThread () l = l := by
    intro α l
    simp [byThread]
  have hcalls := hledger.calls ()
  have hreturns := hledger.returns ()
  rw [hall, hall] at hcalls hreturns
  refine ⟨?_, fun hw hr hnone => ?_⟩
  · have hprefix : claimedMessages s.history <+:
        (unfailed s.history).map WriteCall.message := by
      rw [unfailed_eq hledger.failures, hcalls, List.map_map, List.map_append, List.map_map]
      exact List.prefix_append _ _
    exact List.IsPrefix.trans ⟨l, hmessages.symm⟩ hprefix
  · obtain ⟨hrot, hroom⟩ := hflow.rotation (fun _ => hw) hr
    have hnil : l = [] := by
      by_cases hidx : s.memory.header.producerIdx = s.memory.header.consumerIdx
      · exact hrot.nil_of_idx_eq hroom hidx
      · obtain ⟨msg, rest, m', -, hread, -⟩ := hrot.read_some hflow.valid.fits hidx
        rw [hread] at hnone
        cases hnone
    have hnone : s.unreturned () = [] := by simp [unreturned, hw]
    rw [hnone, List.append_nil] at hreturns
    rw [hnil, List.append_nil, claimedMessages, hreturns] at hmessages
    exact hmessages ▸ List.prefix_rfl

end System

/-- In a run with a slot to spare in which the reader finds every slot that it passes `Ready`,
nothing is lost and the order is kept. -/
theorem pipeline_inOrder {options : RingBufferOptions} {m : RingMemory} {rb : RingBuffer}
    {s : System Unit Unit} (hc : Created options m rb) (hN : 2 ≤ m.header.slotCount)
    (hrun : Reaches (System.step rb) (fun s a => s.Paced rb a ∧ s.FindsReady a)
      (System.start m) s) : InOrder rb s := by
  have hpos : 0 < m.header.slotCount := by omega
  have hstart : System.InFlight rb m.header.slotCount 0 [] (System.start m : System Unit Unit) :=
    System.InFlight.start (Session.Inv.start hc hpos).rotation (hc.slotsFit hpos) hpos
  have h := hrun.invariant hstart fun _ _ _ h hok hstep => h.step_of_paced hok.1 hok.2 hstep
  exact h.inOrder

/-- The reader passes the slot that the writer has claimed before the writer stores to it. The
writer goes on and returns `Ok`, and the ring reads as empty. -/
theorem pipeline_inOrder_fails : ∃ m rb s, Created ⟨448, 128⟩ m rb ∧ 2 ≤ m.header.slotCount ∧
    Reaches (System.step rb) (System.Paced rb) (System.start m) s ∧ ¬ InOrder rb s := by
  obtain ⟨m, rb, s, hc, hrun, hN, hw, hr, hread, hok, hdel⟩ : ∃ m rb s, Created ⟨448, 128⟩ m rb ∧
      Reaches (System.step rb) (System.Paced rb) (System.start m) s ∧ 2 ≤ m.header.slotCount ∧
      s.writer () = none ∧ s.reader () = none ∧ ((read rb).exec s.memory).1 = .ok none ∧
      okMessages s.history = [⟨.custom, [1]⟩] ∧ readMessages s.history = [] := by
    refine ⟨_, _, _, ⟨0, Or.inl rfl⟩, Reaches.get_runWhere
      (.callWrite () ⟨.custom, [1], Uuid.nil, 0⟩ :: List.replicate 4 (.stepWrite () false) ++
        .callRead () :: List.replicate 13 (.stepRead () false) ++
        List.replicate 19 (.stepWrite () false)) (by decide +kernel), ?_⟩
    decide +kernel
  refine ⟨m, rb, s, hc, hN, hrun, fun h => ?_⟩
  have hprefix := h.complete hw hr hread
  rw [hok, hdel] at hprefix
  exact absurd hprefix.length_le (by simp)

/-- A message is read while the next one is written. -/
theorem pipeline_inOrder_twoMessages : ∃ m rb s, Created ⟨448, 128⟩ m rb ∧
    Reaches (System.step rb) (fun s a => s.Paced rb a ∧ s.FindsReady a) (System.start m) s ∧
    readMessages s.history = [⟨.custom, [1]⟩] ∧ (calls s.history).length = 2 ∧ InOrder rb s := by
  obtain ⟨m, rb, s, hc, hrun, hN, hdel, hcalls⟩ : ∃ m rb s, Created ⟨448, 128⟩ m rb ∧
      Reaches (System.step rb) (fun s a => s.Paced rb a ∧ s.FindsReady a) (System.start m) s ∧
      2 ≤ m.header.slotCount ∧ readMessages s.history = [⟨.custom, [1]⟩] ∧
      (calls s.history).length = 2 := by
    refine ⟨_, _, _, ⟨0, Or.inl rfl⟩, Reaches.get_runWhere
      (.callWrite () ⟨.custom, [1], Uuid.nil, 0⟩ :: List.replicate 23 (.stepWrite () false) ++
        .callRead () :: List.replicate 4 (.stepRead () false) ++
        .callWrite () ⟨.custom, [2], Uuid.nil, 0⟩ :: List.replicate 13 (.stepWrite () false) ++
        List.replicate 8 (.stepRead () false)) (by decide +kernel), ?_⟩
    decide +kernel
  exact ⟨m, rb, s, hc, hrun, hdel, hcalls, pipeline_inOrder hc hN hrun⟩

end Elgate.Ring
