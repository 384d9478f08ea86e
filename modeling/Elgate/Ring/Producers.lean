import Elgate.Ring.Ledger
import Elgate.Ring.Queue

/-!
# Many writers and no reader

Any number of threads write to a ring that one thread has used below capacity, and their messages
fit into the slots that are left. Then the threads never meet in a slot, every call claims one slot
and returns it, and the messages are read afterwards in the order of the claims
(`producers_inOrder`).
-/

namespace Elgate.Ring

open Threads Transition

/-- `n` calls of `read`, one after the other. -/
def reads (rb : RingBuffer) : ℕ → RingM (List (Option Message))
  | 0 => return []
  | n + 1 => do
    let msg ← read rb
    return msg :: (← reads rb n)

/-- Reads deliver the unread messages in order, and then nothing. -/
theorem Rotation.reads {rb : RingBuffer} (unread : List Message) :
    ∀ {m : RingMemory} {base : ℕ}, SlotsFit rb.slotSize m.header.slotCount →
      Rotation rb.payloadSize base unread.length unread m → unread.length < m.header.slotCount →
      ((Ring.reads rb (unread.length + 1)).exec m).1 = .ok (unread.map some ++ [none]) := by
  induction unread with
  | nil =>
    intro m base _ h _
    simp [Ring.reads, read_empty h.idx_eq_of_nil]
  | cons msg unread ih =>
    intro m base hfits h hroom
    have hidx : m.header.producerIdx ≠ m.header.consumerIdx := by
      intro heq
      cases h.nil_of_idx_eq hroom heq
    obtain ⟨msg', rest, m', hcons, hread, hrot, hg, -⟩ := h.read_some hfits hidx
    obtain ⟨rfl, rfl⟩ := List.cons.inj hcons
    rw [← hg.slotCount] at hfits hroom
    have hrest := ih hfits hrot (Nat.lt_of_succ_lt hroom)
    rw [List.length_cons, Ring.reads]
    simp only [RingM.exec_bind, hread]
    rcases hexec : (Ring.reads rb (unread.length + 1)).exec m' with ⟨_ | msgs, m''⟩
    · rw [hexec] at hrest
      cases hrest
    · rw [hexec] at hrest
      cases hrest
      rfl

namespace System

variable {W : Type} [DecidableEq W]

/-- The step is one of `write`, the payload of a call that starts fits, and with `u` unread messages
the calls leave a slot to spare. -/
def Writes (rb : RingBuffer) (u : ℕ) (s : System W Unit) (a : Action W Unit) : Prop :=
  (match a with
    | .callWrite _ call => Fits rb call
    | .stepWrite _ _ => True
    | _ => False) ∧
  ∀ s' ∈ s.step rb a, u + (calls s'.history).length ≤ s.memory.header.slotCount - 1

instance (rb : RingBuffer) (u : ℕ) (s : System W Unit) :
    (a : Action W Unit) → Decidable (s.Writes rb u a)
  | .callWrite .. | .stepWrite .. => inferInstanceAs (Decidable (_ ∧ _))
  | .callRead .. | .stepRead .. => isFalse fun h => h.1

/-- The messages are in flight, and nothing has been read. -/
structure Unread (rb : RingBuffer) (N base : ℕ) (old : List Message) (s : System W Unit) :
    Prop where
  /-- The messages are in flight. -/
  inFlight : InFlight rb N base old s
  /-- No call of `read` is in progress. -/
  reader : s.reader () = none
  /-- Nothing has been read. -/
  deliveries : deliveries s.history = []

/-- A step of `write` leaves the messages unread. -/
theorem Unread.step {rb : RingBuffer} {N base : ℕ} {old : List Message} {s s' : System W Unit}
    {a : Action W Unit} (h : Unread rb N base old s) (hwrites : s.Writes rb old.length a)
    (hstep : s.step rb a = some s') : Unread rb N base old s' := by
  obtain ⟨hfit, hafter⟩ := hwrites
  have hN : 0 < N ∧ s.memory.header.slotCount = N := by
    obtain ⟨c, l, hflow, -⟩ := h.inFlight
    exact ⟨hflow.slotCount_pos, hflow.slotCount⟩
  -- The calls leave room for the claims, which are no more.
  have hinFlight : InFlight rb N base old s' := by
    refine h.inFlight.step ?_ ?_ (fun hle => ?_) hstep
    · rintro w call rfl
      exact hfit
    · rintro spurious idx rfl
      exact hfit.elim
    · have hcalls := hafter s' hstep
      rw [hN.2] at hcalls
      omega
  have hdel : ∀ {es : List (Event W Unit)}, Ring.deliveries es = [] →
      Ring.deliveries (s.history ++ es) = [] := by
    intro es hes
    rw [deliveries_append, h.deliveries, hes]
    rfl
  rcases step_cases hstep with ⟨w, call, rfl, -, rfl⟩ | ⟨w, spurious, call, pc, rfl, -, rfl⟩ |
    ⟨r, rfl, -, -⟩ | ⟨r, spurious, pc, rfl, -, -⟩
  · exact ⟨hinFlight, h.reader, hdel (writeCall_private rb w call s.memory).deliveries_eq⟩
  · refine ⟨hinFlight, h.reader, hdel ?_⟩
    rcases writeStep_cases (R := Unit) rb w call s.memory spurious pc with
      ⟨idx, st, rest, rfl⟩ | ⟨idx, -, he⟩ | ⟨-, hpriv⟩
    · exact (storeEvents_records w call idx st rest).2.2.2.2.1
    · rw [he]
      rfl
    · exact hpriv.deliveries_eq
  · exact hfit.elim
  · exact hfit.elim

end System

/-- When every thread has as many claims as calls, so have all of them together. -/
theorem calls_length_le {W R : Type} [DecidableEq W] {h : List (Event W R)}
    (hcalls : ∀ w, (byThread w (claims h)).map claimant = byThread w (calls h)) :
    (calls h).length ≤ (claims h).length := by
  have hclaimants : ∀ w, byThread w ((claims h).map claimant) = byThread w (calls h) := by
    intro w
    rw [byThread_map claimant fun _ => rfl, hcalls w]
  have hsub : (calls h).Subperm ((claims h).map claimant) :=
    subperm_of_byThread fun w => ⟨[], by rw [List.append_nil, hclaimants w]⟩
  have hle := hsub.length_le
  rwa [List.length_map] at hle

/-- Any number of threads write to a ring with `u` unread messages, as many messages as leave a slot
to spare. No call fails, every call claims one slot and returns it, and no slot is returned twice.
When all calls have returned, each thread has claimed a slot for each of its calls in call order,
and reads through any handle return the old messages, the new ones in the order of the claims, and
then nothing. -/
theorem producers_inOrder {W : Type} [DecidableEq W] {options : RingBufferOptions}
    {m : RingMemory} {rb rb' : RingBuffer} {s₀ : Session} {s : System W Unit}
    (hc : Created options m rb) (hN : 0 < m.header.slotCount)
    (hsession : Reaches Session.step Session.KeepsRoom (Session.start m rb) s₀)
    (hrb : rb' ∈ s₀.handles)
    (hrun : Reaches (System.step rb') (System.Writes rb' (unreadCount s₀.history))
      (System.start s₀.memory) s) :
    failures s.history = [] ∧
    (∀ w, byThread w (okReturns s.history) <+: byThread w (claims s.history) ∧
      (byThread w (claims s.history)).map claimant <+: byThread w (calls s.history)) ∧
    ((okReturns s.history).map fun return' => return'.2.2).Nodup ∧
    ((∀ w, s.writer w = none) →
      (∀ w, byThread w (okReturns s.history) = byThread w (claims s.history) ∧
        (byThread w (claims s.history)).map claimant = byThread w (calls s.history)) ∧
      ∀ rb'' ∈ s₀.handles,
        ((reads rb'' (unreadCount s₀.history + (calls s.history).length + 1)).exec s.memory).1 =
          .ok (((accepted s₀.history).drop (delivered s₀.history).length ++
            claimedMessages s.history).map some ++ [none])) := by
  obtain ⟨unread, hbelow⟩ := Session.Below.of_keepsRoom hc hN hsession
  have hslot : ∀ {rb''}, rb'' ∈ s₀.handles → rb''.slotSize = rb.slotSize :=
    fun h => hbelow.handles _ h
  have hfits : ∀ {rb''}, rb'' ∈ s₀.handles →
      SlotsFit rb''.slotSize s₀.memory.header.slotCount := by
    intro rb'' h
    rw [hslot h, hbelow.slotCount]
    exact hc.slotsFit hN
  have hold : (accepted s₀.history).drop (delivered s₀.history).length = unread := by
    rw [hbelow.accepted, List.drop_left]
  rw [hbelow.unreadCount_eq] at hrun ⊢
  rw [hold]
  have hrot := hbelow.rotation
  rw [← payloadSize_eq (hslot hrb)] at hrot
  have hstart : System.Unread rb' s₀.memory.header.slotCount (delivered s₀.history).length unread
      (System.start s₀.memory : System W Unit) :=
    ⟨System.InFlight.start hrot (hfits hrb) (hbelow.slotCount ▸ hbelow.room), rfl, rfl⟩
  obtain ⟨⟨c, l, hflow, hledger⟩, hreader, hdel⟩ :=
    hrun.invariant hstart fun _ _ _ h hok hstep => h.step hok hstep
  -- Nothing is delivered, so that the messages in flight are the old ones and those claimed.
  have hl : unread ++ claimedMessages s.history = l := by
    have hmessages := hledger.messages
    rwa [readMessages, hdel, List.map_nil, List.nil_append] at hmessages
  have hlength : unread.length + (claims s.history).length = l.length := by
    rw [← hl, List.length_append, claimedMessages, List.length_map]
  have hclaims := hflow.layout.length_le
  refine ⟨hledger.failures, fun w => ⟨hledger.returns_prefix w, hledger.claims_prefix w⟩,
    hledger.returns_nodup (by omega), fun hw => ?_⟩
  -- No thread is in a call, so that no claim and no return is to come.
  have hreturns : ∀ w, byThread w (okReturns s.history) = byThread w (claims s.history) := by
    intro w
    simp [hledger.returns w, System.unreturned, hw w]
  have hcalls : ∀ w, (byThread w (claims s.history)).map claimant =
      byThread w (calls s.history) := by
    intro w
    simp [hledger.calls w, System.unclaimed, hw w]
  refine ⟨fun w => ⟨hreturns w, hcalls w⟩, fun rb'' hrb'' => ?_⟩
  have hcount := calls_length_le hcalls
  have hle := hledger.claims_length_le
  obtain ⟨hrot', hroom⟩ := hflow.rotation hw hreader
  rw [payloadSize_eq ((hslot hrb).trans (hslot hrb'').symm)] at hrot'
  rw [hl, show unread.length + (calls s.history).length = l.length by omega]
  refine Rotation.reads l ?_ hrot' hroom
  rw [hflow.slotCount]
  exact hfits hrb''

/-- Two threads write to a ring of four slots with one unread message. The one that starts second is
the first to claim a slot. -/
theorem producers_inOrder_twoThreads : ∃ m rb s₀ s, Created ⟨704, 128⟩ m rb ∧
    Reaches Session.step Session.KeepsRoom (Session.start m rb) s₀ ∧
    Reaches (System.step rb) (System.Writes rb (unreadCount s₀.history))
      (System.start s₀.memory : System Bool Unit) s ∧
    failures s.history = [] ∧ (okReturns s.history).length = 2 ∧
    ((reads rb 4).exec s.memory).1 =
      .ok [some ⟨.custom, [1]⟩, some ⟨.diskRead, [3]⟩, some ⟨.custom, [2]⟩, none] := by
  obtain ⟨m, rb, s₀, s, hc, hsession, hrun, hN, hrb, hok, hw, hcount, hold, hclaimed⟩ :
      ∃ m rb s₀ s, Created ⟨704, 128⟩ m rb ∧
        Reaches Session.step Session.KeepsRoom (Session.start m rb) s₀ ∧
        Reaches (System.step rb) (System.Writes rb (unreadCount s₀.history))
          (System.start s₀.memory : System Bool Unit) s ∧
        0 < m.header.slotCount ∧ rb ∈ s₀.handles ∧ (okReturns s.history).length = 2 ∧
        (∀ w, s.writer w = none) ∧ unreadCount s₀.history + (calls s.history).length + 1 = 4 ∧
        (accepted s₀.history).drop (delivered s₀.history).length = [⟨.custom, [1]⟩] ∧
        claimedMessages s.history = [⟨.diskRead, [3]⟩, ⟨.custom, [2]⟩] := by
    refine ⟨_, _, _, _, ⟨0, Or.inl rfl⟩,
      Reaches.get_runWhere [.write 0 ⟨.custom, [1], Uuid.nil, 0⟩] (by decide +kernel),
      Reaches.get_runWhere
        (.callWrite false ⟨.custom, [2], Uuid.nil, 0⟩ :: .stepWrite false false ::
          .callWrite true ⟨.diskRead, [3], Uuid.nil, 0⟩ ::
          List.replicate 10 (.stepWrite true false) ++
          List.replicate 22 (.stepWrite false false) ++
          List.replicate 13 (.stepWrite true false)) (by decide +kernel), ?_⟩
    decide +kernel
  obtain ⟨hfailures, -, -, hquiet⟩ := producers_inOrder hc hN hsession hrb hrun
  have hreads := (hquiet hw).2 rb hrb
  rw [hcount, hold, hclaimed] at hreads
  exact ⟨m, rb, s₀, s, hc, hsession, hrun, hfailures, hok, hreads⟩

end Elgate.Ring
