import Elgate.Foundation.Transition
import Elgate.Ring.Create
import Elgate.Ring.Rotation

/-!
# One thread at a time

A `Session` is a ring with the handles on it, used by calls that do not overlap: `open`, and
`write` and `read` through any handle. Its `history` records the results of the writes and reads;
no call depends on it. `Session.Inv` is what holds of every session of a created ring that has a
slot. It gives that reads deliver the accepted messages in order, however full the ring has been
(`session_fifo`).
-/

namespace Elgate.Ring

open Transition

/-- The result of a finished call. -/
inductive CallResult
  /-- `write` returned. -/
  | wrote (call : WriteCall) (result : Except Fault ℕ)
  /-- `read` returned. -/
  | read (result : Except Fault (Option Message))

/-- The message of a `write` that returned `Ok`. -/
def CallResult.accepted : CallResult → Option Message
  | .wrote call (.ok _) => some call.message
  | _ => none

/-- The message of a `read` that returned one. -/
def CallResult.delivered : CallResult → Option Message
  | .read (.ok msg) => msg
  | _ => none

/-- The messages of the writes that returned `Ok`, in call order. -/
def accepted (history : List CallResult) : List Message := history.filterMap CallResult.accepted

/-- The messages that reads returned, in call order. -/
def delivered (history : List CallResult) : List Message := history.filterMap CallResult.delivered

/-- The number of accepted messages that no read has returned. -/
def unreadCount (history : List CallResult) : ℕ :=
  (accepted history).length - (delivered history).length

/-- How many writes have failed because the ring was full, up to this result, since the last one
that returned `Ok`. -/
def countFull (failures : ℕ) : CallResult → ℕ
  | .wrote _ (.ok _) => 0
  | .wrote _ (.error (.err (.ringBufferFull _))) => failures + 1
  | _ => failures

/-- How many writes have failed because the ring was full since the last one that returned `Ok`. -/
def fullFailures (history : List CallResult) : ℕ := history.foldl countFull 0

section
variable (history : List CallResult) (call : WriteCall)

@[simp] theorem accepted_wrote_ok (idx : ℕ) :
    accepted (history ++ [.wrote call (.ok idx)]) = accepted history ++ [call.message] := by
  simp [accepted, CallResult.accepted]

@[simp] theorem accepted_wrote_error (e : Fault) :
    accepted (history ++ [.wrote call (.error e)]) = accepted history := by
  simp [accepted, CallResult.accepted]

@[simp] theorem accepted_read (result : Except Fault (Option Message)) :
    accepted (history ++ [.read result]) = accepted history := by
  simp [accepted, CallResult.accepted]

@[simp] theorem delivered_wrote (result : Except Fault ℕ) :
    delivered (history ++ [.wrote call result]) = delivered history := by
  simp [delivered, CallResult.delivered]

@[simp] theorem delivered_read_none :
    delivered (history ++ [.read (.ok none)]) = delivered history := by
  simp [delivered, CallResult.delivered]

@[simp] theorem delivered_read_error (e : Fault) :
    delivered (history ++ [.read (.error e)]) = delivered history := by
  simp [delivered, CallResult.delivered]

@[simp] theorem delivered_read_some (msg : Message) :
    delivered (history ++ [.read (.ok (some msg))]) = delivered history ++ [msg] := by
  simp [delivered, CallResult.delivered]

@[simp] theorem fullFailures_append (result : CallResult) :
    fullFailures (history ++ [result]) = countFull (fullFailures history) result := by
  simp [fullFailures]

end

/-- A ring, the handles on it, and what its calls have returned. -/
structure Session where
  /-- The mapped file. -/
  memory : RingMemory
  /-- The handles, the creating one first. -/
  handles : List RingBuffer
  /-- The results of the writes and reads, the first one first. -/
  history : List CallResult

/-- A call, through the handle with the given number. -/
inductive Call
  | openRing (options : RingBufferOptions)
  | write (handle : ℕ) (call : WriteCall)
  | read (handle : ℕ)

/-- Handles of the same slot size have the same payload area. -/
theorem payloadSize_eq {rb rb' : RingBuffer} (h : rb'.slotSize = rb.slotSize) :
    rb'.payloadSize = rb.payloadSize := by
  rw [RingBuffer.payloadSize, h, RingBuffer.payloadSize]

namespace Session

/-- The session that starts with the creation of a ring. -/
def start (m : RingMemory) (rb : RingBuffer) : Session := ⟨m, [rb], []⟩

/-- A call through an existing handle. -/
def step (s : Session) : Call → Option Session
  | .openRing options =>
    match openRing s.memory.header options with
    | .ok rb => some { s with handles := s.handles ++ [rb] }
    | .error _ => some s
  | .write handle call => s.handles[handle]?.map fun rb =>
    let r := (write rb call).exec s.memory
    { s with memory := r.2, history := s.history ++ [.wrote call r.1] }
  | .read handle => s.handles[handle]?.map fun rb =>
    let r := (read rb).exec s.memory
    { s with memory := r.2, history := s.history ++ [.read r.1] }

/-- Every handle has the slot size of the first one, `rb`, and of the header. -/
structure Handles (rb : RingBuffer) (s : Session) : Prop where
  /-- The header has the handle's slot size. -/
  header : s.memory.header.slotSize = rb.slotSize
  /-- So do the handles. -/
  handles : ∀ rb' ∈ s.handles, rb'.slotSize = rb.slotSize

/-- The first handle of a created ring. -/
theorem Handles.start {options : RingBufferOptions} {m : RingMemory} {rb : RingBuffer}
    (h : Fresh options m rb) : Handles rb (start m rb) where
  header := h.headerSlotSize.trans h.slotSize.symm
  handles rb' hrb' := by
    obtain rfl := List.mem_singleton.mp hrb'
    rfl

/-- A handle from `open` has the slot size of the header, whatever the options. -/
theorem openRing_slotSize {header : RingHeader} {options : RingBufferOptions} {rb : RingBuffer}
    (h : openRing header options = .ok rb) : rb.slotSize = header.slotSize := by
  unfold openRing at h
  split at h
  · obtain rfl := pure_eq_ok h
    rfl
  · exact absurd h throw_ne_ok

/-- What a call leaves: `open` adds a handle of the same slot size, and `write` and `read` change
the memory as they do when run on it. -/
theorem step_cases {rb : RingBuffer} {s s' : Session} {c : Call} (h : Handles rb s)
    (hstep : s.step c = some s') :
    (∃ options, c = .openRing options ∧ Handles rb s' ∧ s'.memory = s.memory ∧
      s'.history = s.history) ∨
    (∃ handle call rb', c = .write handle call ∧ s.handles[handle]? = some rb' ∧
      rb'.slotSize = rb.slotSize ∧ s'.handles = s.handles ∧
      s'.memory = ((write rb' call).exec s.memory).2 ∧
      s'.history = s.history ++ [.wrote call ((write rb' call).exec s.memory).1]) ∨
    (∃ handle rb', c = .read handle ∧ s.handles[handle]? = some rb' ∧
      rb'.slotSize = rb.slotSize ∧ s'.handles = s.handles ∧
      s'.memory = ((read rb').exec s.memory).2 ∧
      s'.history = s.history ++ [.read ((read rb').exec s.memory).1]) := by
  cases c with
  | openRing options =>
    refine Or.inl ⟨options, rfl, ?_⟩
    cases hopened : openRing s.memory.header options with
    | ok rb' =>
      simp only [step, hopened] at hstep
      obtain rfl := Option.some.inj hstep
      refine ⟨⟨h.header, fun rb'' hrb'' => ?_⟩, rfl, rfl⟩
      rcases List.mem_append.mp hrb'' with hold | hnew
      · exact h.handles rb'' hold
      · obtain rfl := List.mem_singleton.mp hnew
        exact (openRing_slotSize hopened).trans h.header
    | error e =>
      simp only [step, hopened] at hstep
      obtain rfl := Option.some.inj hstep
      exact ⟨h, rfl, rfl⟩
  | write handle call =>
    obtain ⟨rb', hrb', rfl⟩ := Option.map_eq_some_iff.mp hstep
    exact Or.inr (Or.inl ⟨handle, call, rb', rfl, hrb',
      h.handles rb' (List.mem_of_getElem? hrb'), rfl, rfl, rfl⟩)
  | read handle =>
    obtain ⟨rb', hrb', rfl⟩ := Option.map_eq_some_iff.mp hstep
    exact Or.inr (Or.inr ⟨handle, rb', rfl, hrb',
      h.handles rb' (List.mem_of_getElem? hrb'), rfl, rfl, rfl⟩)

/-- A call keeps the handles. -/
theorem Handles.of_sameGeometry {rb : RingBuffer} {s s' : Session} (h : Handles rb s)
    (hhandles : s'.handles = s.handles) (hm : s'.memory.SameGeometry s.memory) :
    Handles rb s' where
  header := hm.slotSize.trans h.header
  handles := by rw [hhandles]; exact h.handles

/-- What holds of a session on a ring of `N` slots: the messages that are accepted and not yet
delivered are in the ring, and while it is full every failed write moves the producer index on by
eleven slots. -/
structure Inv (rb : RingBuffer) (N j : ℕ) (unread : List Message) (s : Session) : Prop
    extends Handles rb s where
  /-- The ring has `N` slots. -/
  slotCount : s.memory.header.slotCount = N
  /-- The unread messages are the accepted ones after the delivered ones. -/
  accepted : accepted s.history = delivered s.history ++ unread
  /-- They are in the ring. -/
  rotation : Rotation rb.payloadSize (delivered s.history).length j unread s.memory
  /-- Where the producer index of a full ring is. -/
  full : unread.length = N → j % N = (maxAttempts + 1) * fullFailures s.history % N

section
variable {rb rb' : RingBuffer} {N j : ℕ} {unread : List Message} {s s' : Session}

/-- A created ring has no unread messages. -/
theorem Inv.start {options : RingBufferOptions} {m : RingMemory} (hc : Created options m rb)
    (hN : 0 < m.header.slotCount) : Inv rb m.header.slotCount 0 [] (Session.start m rb) := by
  have hfresh := hc.fresh.1
  refine ⟨Handles.start hfresh, rfl, rfl, ?_, fun _ => by simp [Session.start, fullFailures]⟩
  exact {
    layout := {
      length_le := Nat.zero_le _
      holds := fun i hi => absurd hi (by simp)
      free := fun i _ _ => by
        show (m.slots _).available = true
        rw [hfresh.slots]
        rfl }
    slotCount_pos := hN
    consumerIdx := by simp [Session.start, hfresh.consumerIdx, delivered]
    producerIdx := by simp [Session.start, hfresh.producerIdx, delivered]
    le := Nat.zero_le _ }

/-- `open` keeps the invariant. -/
theorem Inv.openRing_step (h : Inv rb N j unread s) (hh : Handles rb s')
    (hm : s'.memory = s.memory) (hhist : s'.history = s.history) : Inv rb N j unread s' where
  toHandles := hh
  slotCount := by rw [hm, h.slotCount]
  accepted := by rw [hhist, h.accepted]
  rotation := by rw [hm, hhist]; exact h.rotation
  full := by rw [hhist]; exact h.full

/-- `write` returns `Ok` and the unread messages have one more, or it fails and they are the same. A
payload that does not fit changes nothing, and one that fits is refused only when the ring is full,
or when the end of the unread messages is more than ten slots past the producer index. -/
theorem Inv.write_step (hfits : SlotsFit rb.slotSize N) (h : Inv rb N j unread s)
    {call : WriteCall} (hslot : rb'.slotSize = rb.slotSize) (hhs : s'.handles = s.handles)
    (hm : s'.memory = ((write rb' call).exec s.memory).2)
    (hhist : s'.history = s.history ++ [.wrote call ((write rb' call).exec s.memory).1]) :
    (s'.history = s.history ++
        [.wrote call (.ok (((delivered s.history).length + unread.length) % N))] ∧
      s'.memory.header.operationsCompleted = s.memory.header.operationsCompleted ∧
      Inv rb N (unread.length + 1) (unread ++ [call.message]) s') ∨
    (¬ Fits rb' call ∧ s'.memory = s.memory ∧
      s'.history = s.history ++ [.wrote call (.error (.err .dataTooLarge))] ∧
      Inv rb N j unread s') ∨
    ((unread.length = N ∨ j + maxAttempts < unread.length) ∧ ∃ j', Inv rb N j' unread s') := by
  have hrot := h.rotation
  rw [← payloadSize_eq hslot] at hrot
  rw [← hslot, ← h.slotCount] at hfits
  rcases hrot.write_cases hfits call with ⟨-, -, -, m', hw, hrot', hg, hops⟩ | ⟨hfit, hw⟩ |
    ⟨-, hwhy, j', m', hw, hrot', hj', hg, -⟩
  · -- The message is appended, and the producer index is at the end of the messages.
    rw [hw, h.slotCount] at hhist
    rw [hw] at hm
    refine Or.inl ⟨hhist, by rw [hm, hops], h.toHandles.of_sameGeometry hhs (hm ▸ hg), ?_, ?_, ?_,
      ?_⟩
    · rw [hm, hg.slotCount, h.slotCount]
    · rw [hhist, accepted_wrote_ok, delivered_wrote, h.accepted, List.append_assoc]
    · rw [hm, hhist, delivered_wrote, ← payloadSize_eq hslot]
      exact hrot'
    · -- A ring that this write has filled has seen no failure since.
      intro hfull
      rw [List.length_append, List.length_singleton] at hfull
      rw [hfull, hhist, fullFailures_append, countFull]
      simp
  · -- The payload is too large.
    rw [hw] at hm hhist
    exact Or.inr (Or.inl ⟨hfit, hm, hhist, h.toHandles.of_sameGeometry hhs (hm ▸ ⟨rfl, rfl⟩),
      hm ▸ h.slotCount, by rw [hhist]; simpa using h.accepted,
      by rw [hm, hhist, delivered_wrote]; exact h.rotation,
      by rw [hhist, fullFailures_append]; exact h.full⟩)
  · -- No slot is found: the producer index moves on, and the messages stay.
    rw [hw] at hm hhist
    refine Or.inr (Or.inr ⟨h.slotCount ▸ hwhy, j', h.toHandles.of_sameGeometry hhs (hm ▸ hg), ?_,
      ?_, ?_, ?_⟩)
    · rw [hm, hg.slotCount, h.slotCount]
    · rw [hhist, accepted_wrote_error, delivered_wrote, h.accepted]
    · rw [hm, hhist, delivered_wrote, ← payloadSize_eq hslot]
      exact hrot'
    · intro hfull
      rw [hhist, fullFailures_append, countFull, hj' (hfull.trans h.slotCount.symm), h.slotCount,
        Nat.mod_mod, Nat.mul_succ, Nat.add_mod, h.full hfull, ← Nat.add_mod]

/-- `read` returns nothing and changes nothing when the indices are equal, and delivers the oldest
unread message otherwise. -/
theorem Inv.read_step (hfits : SlotsFit rb.slotSize N) (h : Inv rb N j unread s)
    (hslot : rb'.slotSize = rb.slotSize) (hhs : s'.handles = s.handles)
    (hm : s'.memory = ((read rb').exec s.memory).2)
    (hhist : s'.history = s.history ++ [.read ((read rb').exec s.memory).1]) :
    (s.memory.header.producerIdx = s.memory.header.consumerIdx ∧
      s'.history = s.history ++ [.read (.ok none)] ∧
      s'.memory.header.operationsCompleted = s.memory.header.operationsCompleted ∧
      Inv rb N j unread s') ∨
    (∃ msg rest, unread = msg :: rest ∧ s'.history = s.history ++ [.read (.ok (some msg))] ∧
      s'.memory.header.operationsCompleted =
        (s.memory.header.operationsCompleted + 1) % 2^64 ∧
      Inv rb N (j - 1) rest s') := by
  have hrot := h.rotation
  rw [← payloadSize_eq hslot] at hrot
  rw [← hslot, ← h.slotCount] at hfits
  by_cases hidx : s.memory.header.producerIdx = s.memory.header.consumerIdx
  · rw [read_empty hidx] at hm hhist
    exact Or.inl ⟨hidx, hhist, by rw [hm], h.toHandles.of_sameGeometry hhs (hm ▸ ⟨rfl, rfl⟩),
      hm ▸ h.slotCount, by rw [hhist]; simpa using h.accepted,
      by rw [hm, hhist, delivered_read_none]; exact h.rotation,
      by rw [hhist, fullFailures_append]; exact h.full⟩
  · obtain ⟨msg, rest, m', rfl, hr, hrot', hg, hops⟩ := hrot.read_some hfits hidx
    rw [hr] at hm hhist
    refine Or.inr ⟨msg, rest, rfl, hhist, by rw [hm, hops],
      h.toHandles.of_sameGeometry hhs (hm ▸ hg), ?_, ?_, ?_, ?_⟩
    · rw [hm, hg.slotCount, h.slotCount]
    · rw [hhist, accepted_read, delivered_read_some, h.accepted, List.append_assoc]
      rfl
    · rw [hm, hhist, delivered_read_some, List.length_append, ← payloadSize_eq hslot]
      exact hrot'
    · -- A ring is not full after a read.
      intro hfull
      have hle := h.rotation.layout.length_le
      rw [h.slotCount, List.length_cons] at hle
      omega

/-- Every call keeps the invariant. -/
theorem Inv.step {c : Call} (hfits : SlotsFit rb.slotSize N) (h : Inv rb N j unread s)
    (hstep : s.step c = some s') : ∃ j' unread', Inv rb N j' unread' s' := by
  rcases step_cases h.toHandles hstep with ⟨options, rfl, hh, hm, hhist⟩ |
    ⟨handle, call, rb', rfl, -, hslot, hhs, hm, hhist⟩ |
    ⟨handle, rb', rfl, -, hslot, hhs, hm, hhist⟩
  · exact ⟨j, unread, h.openRing_step hh hm hhist⟩
  · rcases h.write_step hfits hslot hhs hm hhist with ⟨-, -, h'⟩ | ⟨-, -, -, h'⟩ | ⟨-, j', h'⟩
    · exact ⟨_, _, h'⟩
    · exact ⟨j, unread, h'⟩
    · exact ⟨j', unread, h'⟩
  · rcases h.read_step hfits hslot hhs hm hhist with ⟨-, -, -, h'⟩ | ⟨msg, rest, -, -, -, h'⟩
    · exact ⟨j, unread, h'⟩
    · exact ⟨j - 1, rest, h'⟩

end

/-- Every session of a created ring that has a slot keeps the invariant. -/
theorem Inv.of_reaches {options : RingBufferOptions} {m : RingMemory} {rb : RingBuffer}
    {s : Session} (hc : Created options m rb) (hN : 0 < m.header.slotCount)
    (hrun : Reaches Session.step Always (Session.start m rb) s) :
    ∃ j unread, Inv rb m.header.slotCount j unread s :=
  @Reaches.invariant _ _ _ _ (fun s => ∃ j unread, Inv rb m.header.slotCount j unread s) _ _ hrun
    ⟨0, [], Inv.start hc hN⟩
    fun _ _ _ ⟨_, _, h⟩ _ hstep => h.step (hc.slotsFit hN) hstep

/-- What holds of a session on a ring without slots. -/
structure NoSlots (s : Session) : Prop where
  /-- There is no slot. -/
  slotCount : s.memory.header.slotCount = 0
  /-- The indices are equal. -/
  idx_eq : s.memory.header.producerIdx = s.memory.header.consumerIdx
  /-- Nothing is delivered. -/
  delivered : delivered s.history = []

/-- Every call keeps a ring without slots as it is. -/
theorem NoSlots.step {s s' : Session} {c : Call} (h : NoSlots s) (hstep : s.step c = some s') :
    NoSlots s' := by
  cases c with
  | openRing options =>
    simp only [Session.step] at hstep
    split at hstep
    · obtain rfl := Option.some.inj hstep
      exact ⟨h.slotCount, h.idx_eq, h.delivered⟩
    · obtain rfl := Option.some.inj hstep
      exact h
  | write handle call =>
    obtain ⟨rb, -, rfl⟩ := Option.map_eq_some_iff.mp hstep
    obtain ⟨e, he⟩ := @write_noSlots rb _ call h.slotCount h.idx_eq
    simp only [he]
    exact ⟨h.slotCount, h.idx_eq, by simpa using h.delivered⟩
  | read handle =>
    obtain ⟨rb, -, rfl⟩ := Option.map_eq_some_iff.mp hstep
    simp only [@read_empty rb _ h.idx_eq]
    exact ⟨h.slotCount, h.idx_eq, by simpa using h.delivered⟩

end Session

/-- Reads deliver the messages of the writes that returned `Ok`, in call order: however the session
has gone, nothing is skipped, duplicated, reordered or altered. -/
theorem session_fifo {options : RingBufferOptions} {m : RingMemory} {rb : RingBuffer} {s : Session}
    (hc : Created options m rb) (hrun : Reaches Session.step Always (Session.start m rb) s) :
    delivered s.history <+: accepted s.history := by
  rcases Nat.eq_zero_or_pos m.header.slotCount with hN | hN
  · -- A ring without a slot delivers nothing.
    have hfresh := hc.fresh.1
    have h0 : Session.NoSlots (Session.start m rb) :=
      ⟨hN, hfresh.producerIdx.trans hfresh.consumerIdx.symm, rfl⟩
    have h := hrun.invariant h0 fun _ _ _ h _ hstep => h.step hstep
    rw [h.delivered]
    exact List.nil_prefix
  · obtain ⟨j, unread, h⟩ := Session.Inv.of_reaches hc hN hrun
    exact ⟨unread, h.accepted.symm⟩

/-- A ring of two slots that is filled, refuses a write, is opened, and is used on. -/
theorem session_fifo_twoSlots : ∃ m rb s, Created ⟨448, 128⟩ m rb ∧
    Reaches Session.step Always (Session.start m rb) s ∧ (accepted s.history).length = 3 ∧
    delivered s.history = [⟨.custom, [1]⟩] ∧ delivered s.history <+: accepted s.history := by
  obtain ⟨m, rb, s, hc, hrun, hacc, hdel⟩ : ∃ m rb s, Created ⟨448, 128⟩ m rb ∧
      Reaches Session.step Always (Session.start m rb) s ∧ (accepted s.history).length = 3 ∧
      delivered s.history = [⟨.custom, [1]⟩] := by
    refine ⟨_, _, _, ⟨0, Or.inl rfl⟩, Reaches.get_runWhere
      [.write 0 ⟨.custom, [1], Uuid.nil, 0⟩, .write 0 ⟨.custom, [2], Uuid.nil, 0⟩,
        .write 0 ⟨.custom, [3], Uuid.nil, 0⟩, .openRing ⟨0, 0⟩, .read 1,
        .write 1 ⟨.diskRead, [4], Uuid.nil, 0⟩] (by decide +kernel), ?_, ?_⟩
    all_goals decide +kernel
  exact ⟨m, rb, s, hc, hrun, hacc, hdel, session_fifo hc hrun⟩

end Elgate.Ring
