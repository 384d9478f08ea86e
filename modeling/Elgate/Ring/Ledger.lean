import Mathlib.Data.List.Nodup
import Elgate.Foundation.Threads
import Elgate.Ring.Flow

/-!
# What the history says of the messages in flight

The history of a system whose messages are in flight in order (`System.Flow`) accounts for them: the
claimed messages are the ones that have been returned and then the ones on the list, the claimed
slots follow one another, no call of `write` fails, and every thread claims one slot for each of its
calls and returns it (`System.Ledger`). The ledger needs no more than how each step moves the list
(`System.Moved`).
-/

namespace Elgate.Ring

open Threads

section
variable {W : Type}

/-- The call that has claimed a slot. -/
def claimant (claim : W × WriteCall × ℕ) : W × WriteCall := (claim.1, claim.2.1)

end

namespace System

section
variable {W : Type}

/-- The call that a thread is in, if it has not claimed a slot. -/
def unclaimed (s : System W Unit) (w : W) : List (W × WriteCall) :=
  match s.writer w with
  | some (call, pc) => if pc.claimed = none then [(w, call)] else []
  | none => []

/-- The call that a thread is in and the slot that it has claimed, if it has. -/
def unreturned (s : System W Unit) (w : W) : List (W × WriteCall × ℕ) :=
  match s.writer w with
  | some (call, pc) => (pc.claimed.map fun idx => (w, call, idx)).toList
  | none => []

end

variable {W : Type} [DecidableEq W]

/-- What the history says of the messages in flight, when the ring contained the messages `old` at
position `base` at the start. -/
structure Ledger (N base : ℕ) (old : List Message) (c : ℕ) (l : List Message)
    (s : System W Unit) : Prop where
  /-- The list starts after the messages that have been returned. -/
  position : c = base + (readMessages s.history).length
  /-- The messages of the ring are the old ones and the claimed ones. -/
  messages : old ++ claimedMessages s.history = readMessages s.history ++ l
  /-- A slot is passed for each message that is returned, and one if the reader is in a slot. -/
  passes : (passes s.history).length = (readMessages s.history).length + s.passed
  /-- The claimed slots follow the old messages. -/
  indices : (claims s.history).map (fun claim => claim.2.2) =
    (List.range (claims s.history).length).map fun k => (base + old.length + k) % N
  /-- No call of `write` has failed. -/
  failures : failures s.history = []
  /-- Every call of a thread has claimed a slot, unless it is to. -/
  calls : ∀ w, byThread w (calls s.history) =
    (byThread w (claims s.history)).map claimant ++ s.unclaimed w
  /-- Every slot that a thread has claimed has been returned, unless it is to. -/
  returns : ∀ w, byThread w (claims s.history) =
    byThread w (okReturns s.history) ++ s.unreturned w

namespace Ledger

variable {N base c c' : ℕ} {old l l' : List Message} {s s' : System W Unit}

/-- The start of a run. -/
theorem start (m : RingMemory) : Ledger N base old base old (System.start m : System W Unit) where
  position := rfl
  messages := by simp [System.start, claimedMessages, readMessages, claims, deliveries]
  passes := rfl
  indices := rfl
  failures := rfl
  calls _ := rfl
  returns _ := rfl

/-- The next claimed slot is the one after the list. -/
theorem position_eq (h : Ledger N base old c l s) :
    c + l.length = base + old.length + (claims s.history).length := by
  have hlen := congrArg List.length h.messages
  simp only [List.length_append, claimedMessages, List.length_map] at hlen
  rw [h.position]
  omega

/-- A step of `write`, of which the history records the calls, claims, and returns of its thread. -/
theorem write_step (h : Ledger N base old c l s) {w : W} {call : WriteCall}
    {e : Effect W Unit WritePc} (hdeliveries : deliveries e.events = [])
    (hpasses : Ring.passes e.events = []) (hfailures : Ring.failures e.events = [])
    (hmessages : l' = l ++ claimedMessages e.events)
    (hindices : claims e.events = [] ∨ claims e.events = [(w, call, (c + l.length) % N)])
    (hcalls : s.unclaimed w ++ byThread w (Ring.calls e.events) =
      (byThread w (claims e.events)).map claimant ++ (s.afterWrite w call e).unclaimed w)
    (hreturns : s.unreturned w ++ byThread w (claims e.events) =
      byThread w (okReturns e.events) ++ (s.afterWrite w call e).unreturned w)
    (hother : ∀ w', w' ≠ w → byThread w' (Ring.calls e.events) = [] ∧
      byThread w' (claims e.events) = [] ∧ byThread w' (okReturns e.events) = []) :
    Ledger N base old c l' (s.afterWrite w call e) := by
  have hhist : (s.afterWrite w call e).history = s.history ++ e.events := rfl
  have hread : readMessages (s.history ++ e.events) = readMessages s.history := by
    rw [readMessages, deliveries_append, hdeliveries, List.append_nil]
    rfl
  refine ⟨?_, ?_, ?_, ?_, ?_, fun w' => ?_, fun w' => ?_⟩
  · rw [hhist, hread, h.position]
  · rw [hhist, hread, hmessages, ← List.append_assoc, ← h.messages, List.append_assoc,
      claimedMessages, claims_append, List.map_append]
    rfl
  · rw [hhist, hread, passes_append, hpasses, List.append_nil, h.passes]
    rfl
  · rw [hhist, claims_append]
    -- A claim is of the slot after the last one.
    rcases hindices with hnil | hone
    · rw [hnil, List.append_nil, h.indices]
    · rw [hone, List.map_append, h.indices, List.length_append, List.length_singleton,
        List.range_succ, List.map_append, h.position_eq]
      rfl
  · rw [hhist, failures_append, h.failures, hfailures]
    rfl
  · rw [hhist, calls_append, claims_append, byThread_append, byThread_append, List.map_append,
      h.calls w']
    -- The history records nothing of the other threads.
    by_cases hw : w' = w
    · subst hw
      rw [List.append_assoc, List.append_assoc, hcalls]
    · obtain ⟨h1, h2, -⟩ := hother w' hw
      simp [h1, h2, unclaimed, afterWrite, hw]
  · rw [hhist, okReturns_append, claims_append, byThread_append, byThread_append, h.returns w']
    by_cases hw : w' = w
    · subst hw
      rw [List.append_assoc, List.append_assoc, hreturns]
    · obtain ⟨-, h1, h2⟩ := hother w' hw
      simp [h1, h2, unreturned, afterWrite, hw]

/-- A step of `read`. -/
theorem read_step (h : Ledger N base old c l s) {e : Effect W Unit ReadPc}
    (hof : OfRead e.events) (hposition : c' = c + (readMessages e.events).length)
    (hmessages : l = readMessages e.events ++ l')
    (hpasses : (Ring.passes e.events).length + s.passed =
      (readMessages e.events).length + e.pc.elim 0 ReadPc.passed) :
    Ledger N base old c' l' (s.afterRead () e) := by
  have hhist : (s.afterRead () e).history = s.history ++ e.events := rfl
  -- A step of the reader claims nothing.
  have hclaims : claims (s.history ++ e.events) = claims s.history := by
    rw [claims_append, hof.claims, List.append_nil]
  have hread : readMessages (s.history ++ e.events) =
      readMessages s.history ++ readMessages e.events := by
    rw [readMessages, deliveries_append, List.map_append]
    rfl
  have hpassed : (s.afterRead () e).passed = e.pc.elim 0 ReadPc.passed := by
    simp [passed, afterRead]
  refine ⟨?_, ?_, ?_, ?_, ?_, fun w => ?_, fun w => ?_⟩
  · rw [hhist, hread, List.length_append, hposition, h.position, Nat.add_assoc]
  · rw [hhist, claimedMessages, hclaims, hread, List.append_assoc, ← hmessages]
    exact h.messages
  · rw [hhist, hread, passes_append, List.length_append, List.length_append, h.passes, hpassed]
    omega
  · rw [hhist, hclaims, h.indices]
  · rw [hhist, failures_append, hof.failures, h.failures]
    rfl
  · rw [hhist, hclaims, calls_append, hof.calls, List.append_nil]
    exact h.calls w
  · rw [hhist, hclaims, okReturns_append, hof.okReturns, List.append_nil]
    exact h.returns w

/-- Every step that moves the list keeps the ledger. -/
theorem moved (h : Ledger N base old c l s) (hmoved : Moved N s c l s' c' l') :
    Ledger N base old c' l' s' := by
  cases hmoved with
  | writeCalled w call hw =>
    refine h.write_step rfl rfl rfl (List.append_nil l).symm (Or.inl rfl) ?_ ?_ fun w' hne =>
      ⟨byThread_of_ne hne.symm, rfl, rfl⟩
    · simp [Ring.calls, claims, Event.call, Event.claim, unclaimed, afterWrite, hw,
        List.filterMap_cons]
    · simp [okReturns, claims, Event.okReturn, Event.claim, unreturned, afterWrite, hw,
        List.filterMap_cons]
  | writeMoved w call pc pc' hw hclaimed =>
    refine h.write_step rfl rfl rfl (List.append_nil l).symm (Or.inl rfl) ?_ ?_ fun w' hne =>
      ⟨rfl, rfl, rfl⟩
    · simp [Ring.calls, claims, unclaimed, afterWrite, hw, hclaimed]
    · simp [okReturns, claims, unreturned, afterWrite, hw, hclaimed]
  | claimed w call pc m' attempts hw hclaimed =>
    refine h.write_step rfl rfl rfl rfl (Or.inr rfl) ?_ ?_ fun w' hne =>
      ⟨rfl, byThread_of_ne hne.symm, rfl⟩
    · simp [Ring.calls, claims, Event.call, Event.claim, unclaimed, afterWrite, hw, hclaimed,
        List.filterMap_cons, claimant]
    · simp [okReturns, claims, Event.okReturn, Event.claim, unreturned, afterWrite, hw, hclaimed,
        List.filterMap_cons]
  | stored w call m' idx st rest hw =>
    -- The last store returns the slot that the call has claimed.
    obtain ⟨hcalls, hclaims, hfailures, hpasses, hdeliveries, hreturns⟩ :=
      storeEvents_records (R := Unit) w call idx st rest
    refine h.write_step hdeliveries hpasses hfailures ?_ (Or.inl hclaims) ?_ ?_ fun w' hne => ?_
    · rw [claimedMessages, hclaims]
      exact (List.append_nil l).symm
    · rw [hcalls, hclaims]
      cases rest <;> simp [unclaimed, afterWrite, hw, WritePc.ofStores]
    · rw [hreturns, hclaims]
      cases rest <;> simp [unreturned, afterWrite, hw, WritePc.ofStores]
    · rw [hcalls, hclaims, hreturns]
      cases rest with
      | nil => exact ⟨rfl, rfl, byThread_of_ne hne.symm⟩
      | cons st' rest => exact ⟨rfl, rfl, rfl⟩
  | readMoved e he hof =>
    -- No message is returned.
    refine h.read_step hof ?_ ?_ ?_
    · rw [readMessages, he.deliveries]
      rfl
    · rw [readMessages, he.deliveries]
      rfl
    · rw [readMessages, he.deliveries]
      simpa [passed] using he.passes
  | returned m' msg l' hl hr =>
    refine h.read_step ⟨rfl, rfl, rfl, rfl, rfl⟩ rfl hl ?_
    simp [Ring.passes, readMessages, deliveries, Event.pass, Event.delivery, passed, hr,
      ReadPc.passed]

/-- A thread has claimed no more slots than it has called `write`. -/
theorem claims_prefix (h : Ledger N base old c l s) (w : W) :
    (byThread w (claims s.history)).map claimant <+: byThread w (Ring.calls s.history) :=
  ⟨_, (h.calls w).symm⟩

/-- A thread has returned from no more slots than it has claimed. -/
theorem returns_prefix (h : Ledger N base old c l s) (w : W) :
    byThread w (okReturns s.history) <+: byThread w (claims s.history) :=
  ⟨_, (h.returns w).symm⟩

/-- No more slots are claimed than `write` is called. -/
theorem claims_length_le (h : Ledger N base old c l s) :
    (claims s.history).length ≤ (Ring.calls s.history).length := by
  have hsub : ((claims s.history).map claimant).Subperm (Ring.calls s.history) :=
    subperm_of_byThread fun w => by
      rw [byThread_map claimant fun _ => rfl]
      exact h.claims_prefix w
  simpa using hsub.length_le

/-- Fewer claims than the ring has slots are of different slots. -/
theorem claims_nodup (h : Ledger N base old c l s) (hle : (claims s.history).length ≤ N) :
    ((claims s.history).map fun claim => claim.2.2).Nodup := by
  rw [h.indices]
  refine List.Nodup.map_on (fun k hk k' hk' heq => ?_) List.nodup_range
  rw [List.mem_range] at hk hk'
  have := Cyclic.mod_inj (base + old.length) (by omega) (by omega) (by omega) (by omega) heq
  omega

/-- Neither is a slot returned twice then. -/
theorem returns_nodup (h : Ledger N base old c l s) (hle : (claims s.history).length ≤ N) :
    ((okReturns s.history).map fun return' => return'.2.2).Nodup := by
  obtain ⟨returns, hperm, hsub⟩ := subperm_of_byThread h.returns_prefix
  exact ((h.claims_nodup hle).sublist (hsub.map _)).perm (hperm.map _)

end Ledger

/-- The messages are in flight in order, and the history accounts for them. -/
def InFlight (rb : RingBuffer) (N base : ℕ) (old : List Message) (s : System W Unit) : Prop :=
  ∃ c l, Flow rb N c l s ∧ Ledger N base old c l s

namespace InFlight

variable {rb : RingBuffer} {N base : ℕ} {old : List Message} {s s' : System W Unit}

/-- The start of a run on a ring that one thread has used. -/
theorem start {m : RingMemory} (h : Rotation rb.payloadSize base old.length old m)
    (hfits : SlotsFit rb.slotSize m.header.slotCount) (hroom : old.length < m.header.slotCount) :
    InFlight rb m.header.slotCount base old (System.start m : System W Unit) :=
  ⟨base, old, Flow.start h hfits hroom, Ledger.start m⟩

/-- Every step keeps the messages in order, if the payload of a call that starts fits, the reader
finds the slot that it has passed `Ready`, and the claims leave a slot to spare. -/
theorem step (h : InFlight rb N base old s) {a : Action W Unit}
    (hfit : ∀ w call, a = .callWrite w call → Fits rb call)
    (hready : ∀ spurious idx, a = .stepRead () spurious → s.reader () = some (.checkReady idx) →
      (s.memory.slots idx).getStatus = .ready)
    (hroom : (claims s'.history).length ≤ (calls s'.history).length →
      old.length + (claims s'.history).length < N + (passes s'.history).length)
    (hstep : s.step rb a = some s') : InFlight rb N base old s' := by
  obtain ⟨c, l, hflow, hledger⟩ := h
  obtain ⟨c', l', hmoved, hflow'⟩ := hflow.step hfit hready hstep
  have hledger' := hledger.moved hmoved
  refine ⟨c', l', hflow' ?_, hledger'⟩
  -- The claims that no read has passed are the messages in flight.
  have hroom := hroom hledger'.claims_length_le
  have hlen := congrArg List.length hledger'.messages
  simp only [List.length_append, claimedMessages, List.length_map] at hlen
  rw [hledger'.passes] at hroom
  omega

end InFlight

end System

end Elgate.Ring
