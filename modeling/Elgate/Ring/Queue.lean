import Elgate.Ring.Session

/-!
# A ring below capacity is a queue

What a ring is for is a queue of messages without a bound (`Queue`). As long as a slot is left, a
session behaves exactly as the queue does (`session_refines_queue`): every write is accepted, and
every read returns the oldest unread message if there is one.
-/

namespace Elgate.Ring

open Transition

/-- A queue of messages without a bound. -/
structure Queue where
  /-- The messages that are written and not yet read, the oldest first. -/
  unread : List Message
  /-- How many messages have been written. -/
  writes : ℕ

namespace Queue

/-- The result of a call on a queue, and the queue after it. The messages are numbered modulo `N`
in the order of the writes. -/
inductive Step (N : ℕ) : Queue → CallResult → Queue → Prop
  /-- `write` is accepted. -/
  | wrote (q : Queue) (call : WriteCall) :
    Step N q (.wrote call (.ok (q.writes % N))) ⟨q.unread ++ [call.message], q.writes + 1⟩
  /-- `read` takes the oldest message, if there is one. -/
  | read (q : Queue) : Step N q (.read (.ok q.unread.head?)) ⟨q.unread.tail, q.writes⟩

/-- The results of calls on an empty queue, and the queue after them. -/
inductive Run (N : ℕ) : List CallResult → Queue → Prop
  /-- No call. -/
  | nil : Run N [] ⟨[], 0⟩
  /-- One more call. -/
  | snoc {history : List CallResult} {q q' : Queue} {result : CallResult} :
    Run N history q → Step N q result q' → Run N (history ++ [result]) q'

/-- What a queue contains is what has been accepted and not delivered. -/
theorem Run.accepted_eq {N : ℕ} {history : List CallResult} {q : Queue} (h : Run N history q) :
    accepted history = delivered history ++ q.unread ∧ q.writes = (accepted history).length := by
  induction h with
  | nil => exact ⟨rfl, rfl⟩
  | @snoc history q q' result _ hstep ih =>
    obtain ⟨hacc, hwrites⟩ := ih
    cases hstep with
    | wrote call =>
      rw [accepted_wrote_ok, delivered_wrote]
      exact ⟨by rw [hacc, List.append_assoc], by simp [hwrites]⟩
    | read =>
      rw [accepted_read]
      refine ⟨?_, hwrites⟩
      rw [hacc]
      cases hq : q.unread with
      | nil => simp
      | cons msg rest => simp

end Queue

/-- The call leaves at least one slot without an unread message. -/
def Session.KeepsRoom (s : Session) (c : Call) : Prop :=
  ∀ s' ∈ s.step c, unreadCount s'.history < s'.memory.header.slotCount

instance (s : Session) (c : Call) : Decidable (s.KeepsRoom c) := by
  unfold Session.KeepsRoom
  infer_instance

/-- The payload of a `write` fits, and the call leaves at least one slot without an unread
message. -/
def Session.BelowCapacity (s : Session) (c : Call) : Prop :=
  (match c with
    | .write handle call => ∀ rb ∈ s.handles[handle]?, Fits rb call
    | _ => True) ∧ s.KeepsRoom c

instance (s : Session) (c : Call) : Decidable (s.BelowCapacity c) := by
  cases c <;> exact inferInstanceAs (Decidable (_ ∧ _))

namespace Session

variable {rb : RingBuffer} {N : ℕ} {unread : List Message} {s s' : Session}

/-- What holds of a session below capacity: there is a slot to spare, the producer index is at the
end of the unread messages, and the reads that returned a message are counted. -/
structure Below (rb : RingBuffer) (N : ℕ) (unread : List Message) (s : Session) : Prop
    extends Inv rb N unread.length unread s where
  /-- There is a slot to spare. -/
  room : unread.length < N
  /-- The completed operations are the deliveries. -/
  operationsCompleted :
    s.memory.header.operationsCompleted = (delivered s.history).length % 2^64

/-- A created ring with a slot is below capacity. -/
theorem Below.start {options : RingBufferOptions} {m : RingMemory} (hc : Created options m rb)
    (hN : 0 < m.header.slotCount) : Below rb m.header.slotCount [] (Session.start m rb) where
  toInv := Inv.start hc hN
  room := hN
  operationsCompleted := hc.fresh.1.operationsCompleted

/-- The number of unread messages. -/
theorem Inv.unreadCount_eq {j : ℕ} (h : Inv rb N j unread s) :
    unreadCount s.history = unread.length := by
  rw [unreadCount, h.accepted, List.length_append, Nat.add_sub_cancel_left]

/-- The result of a call that leaves room, and the unread messages after it. -/
inductive Outcome (s : Session) (N : ℕ) (unread : List Message) :
    Call → List CallResult → List Message → Prop
  /-- `open` has no result. -/
  | opened (options : RingBufferOptions) : Outcome s N unread (.openRing options) [] unread
  /-- `write` is accepted. -/
  | wrote (handle : ℕ) (call : WriteCall) : Outcome s N unread (.write handle call)
    [.wrote call (.ok (((delivered s.history).length + unread.length) % N))]
    (unread ++ [call.message])
  /-- `write` refuses a payload that does not fit. -/
  | refused (handle : ℕ) (call : WriteCall) (rb : RingBuffer)
    (hget : s.handles[handle]? = some rb) (hfit : ¬ Fits rb call) :
    Outcome s N unread (.write handle call) [.wrote call (.error (.err .dataTooLarge))] unread
  /-- `read` takes the oldest message, if there is one. -/
  | read (handle : ℕ) : Outcome s N unread (.read handle) [.read (.ok unread.head?)] unread.tail

/-- A call that leaves room keeps a session below capacity. -/
theorem Below.outcome {c : Call} (hfits : SlotsFit rb.slotSize N)
    (h : Below rb N unread s) (hok : s.KeepsRoom c) (hstep : s.step c = some s') :
    ∃ results unread', Outcome s N unread c results unread' ∧
      s'.history = s.history ++ results ∧ Below rb N unread' s' := by
  have hcount := hok s' hstep
  rcases step_cases h.toHandles hstep with ⟨options, rfl, hh, hm, hhist⟩ |
    ⟨handle, call, rb', rfl, hget, hslot, hhs, hm, hhist⟩ |
    ⟨handle, rb', rfl, -, hslot, hhs, hm, hhist⟩
  · have hinv := h.openRing_step hh hm hhist
    exact ⟨[], unread, .opened options, by rw [hhist, List.append_nil], hinv, h.room,
      by rw [hm, hhist]; exact h.operationsCompleted⟩
  · rcases h.write_step hfits hslot hhs hm hhist with ⟨hhist, hops, hinv⟩ |
      ⟨hbig, hm, hhist, hinv⟩ | ⟨hwhy, -⟩
    · rw [hinv.unreadCount_eq, hinv.slotCount] at hcount
      have hinv' : Inv rb N (unread ++ [call.message]).length (unread ++ [call.message]) s' := by
        rw [List.length_append]
        exact hinv
      exact ⟨_, _, .wrote handle call, hhist, hinv', hcount,
        by rw [hops, hhist, delivered_wrote, h.operationsCompleted]⟩
    · exact ⟨_, _, .refused handle call rb' hget hbig, hhist, hinv, h.room,
        by rw [hm, hhist, delivered_wrote, h.operationsCompleted]⟩
    · rcases hwhy with hfull | hfar
      · exact absurd hfull (Nat.ne_of_lt h.room)
      · omega
  · rcases h.read_step hfits hslot hhs hm hhist with ⟨hidx, hhist, hops, hinv⟩ |
      ⟨msg, rest, rfl, hhist, hops, hinv⟩
    · obtain rfl : unread = [] :=
        h.rotation.nil_of_idx_eq (by rw [h.slotCount]; exact h.room) hidx
      exact ⟨_, _, .read handle, hhist, hinv, h.room,
        by rw [hops, hhist, delivered_read_none, h.operationsCompleted]⟩
    · refine ⟨_, _, .read handle, hhist, hinv, Nat.lt_of_succ_lt h.room, ?_⟩
      rw [hops, hhist, delivered_read_some, h.operationsCompleted, List.length_append,
        Nat.mod_add_mod]
      rfl

/-- Every session that leaves room is below capacity. -/
theorem Below.of_keepsRoom {options : RingBufferOptions} {m : RingMemory}
    (hc : Created options m rb) (hN : 0 < m.header.slotCount)
    (hrun : Reaches Session.step KeepsRoom (Session.start m rb) s) :
    ∃ unread, Below rb m.header.slotCount unread s :=
  @Reaches.invariant _ _ _ _ (fun s => ∃ unread, Below rb m.header.slotCount unread s) _ _ hrun
    ⟨[], Below.start hc hN⟩ fun _ _ _ ⟨_, h⟩ hok hstep => by
      obtain ⟨_, unread', -, -, h'⟩ := h.outcome (hc.slotsFit hN) hok hstep
      exact ⟨unread', h'⟩

/-- A call below capacity does what it does on the queue. -/
theorem Below.step {q : Queue} {c : Call} (hfits : SlotsFit rb.slotSize N)
    (h : Below rb N unread s) (hq : Queue.Run N s.history q) (hok : s.BelowCapacity c)
    (hstep : s.step c = some s') :
    ∃ unread' q', Below rb N unread' s' ∧ Queue.Run N s'.history q' := by
  obtain ⟨hfit, hroom⟩ := hok
  obtain ⟨results, unread', hout, hhist, h'⟩ := h.outcome hfits hroom hstep
  obtain ⟨hacc, hwrites⟩ := hq.accepted_eq
  have hunread : q.unread = unread := by
    rw [h.accepted] at hacc
    exact (List.append_cancel_left hacc).symm
  rw [hhist]
  cases hout with
  | opened options => exact ⟨_, q, h', by rw [List.append_nil]; exact hq⟩
  | wrote handle call =>
    have hidx : (delivered s.history).length + unread.length = q.writes := by
      rw [hwrites, h.accepted, List.length_append]
    rw [hidx]
    exact ⟨_, _, h', hq.snoc (.wrote q call)⟩
  | refused handle call rb' hget hbig => exact absurd (hfit rb' hget) hbig
  | read handle =>
    rw [← hunread]
    exact ⟨_, _, h', hq.snoc (.read q)⟩

/-- Every session below capacity is a run of the queue. -/
theorem Below.of_reaches {options : RingBufferOptions} {m : RingMemory}
    (hc : Created options m rb) (hN : 0 < m.header.slotCount)
    (hrun : Reaches Session.step BelowCapacity (Session.start m rb) s) :
    ∃ unread q, Below rb m.header.slotCount unread s ∧ Queue.Run m.header.slotCount s.history q :=
  @Reaches.invariant _ _ _ _ (fun s => ∃ unread q, Below rb m.header.slotCount unread s ∧
      Queue.Run m.header.slotCount s.history q) _ _ hrun
    ⟨[], _, Below.start hc hN, Queue.Run.nil⟩
    fun _ _ _ ⟨_, _, h, hq⟩ hok hstep => h.step (hc.slotsFit hN) hq hok hstep

end Session

/-- Below capacity the calls return what they return on a queue: a write its number modulo the slot
count, and a read the oldest unread message, or nothing when there is none. The completed operations
are the reads that returned a message. -/
theorem session_refines_queue {options : RingBufferOptions} {m : RingMemory} {rb : RingBuffer}
    {s : Session} (hc : Created options m rb) (hN : 0 < m.header.slotCount)
    (hrun : Reaches Session.step Session.BelowCapacity (Session.start m rb) s) :
    (∃ q, Queue.Run m.header.slotCount s.history q) ∧
    s.memory.header.operationsCompleted = (delivered s.history).length % 2^64 := by
  obtain ⟨unread, q, h, hq⟩ := Session.Below.of_reaches hc hN hrun
  exact ⟨⟨q, hq⟩, h.operationsCompleted⟩

/-- Three writes and three reads of a ring of two slots. -/
theorem session_refines_queue_twoSlots : ∃ m rb s, Created ⟨448, 128⟩ m rb ∧
    Reaches Session.step Session.BelowCapacity (Session.start m rb) s ∧
    (accepted s.history).length = 3 ∧ (∃ q, Queue.Run m.header.slotCount s.history q) ∧
    s.memory.header.operationsCompleted = (delivered s.history).length % 2^64 := by
  obtain ⟨m, rb, s, hc, hrun, hacc, hN⟩ : ∃ m rb s, Created ⟨448, 128⟩ m rb ∧
      Reaches Session.step Session.BelowCapacity (Session.start m rb) s ∧
      (accepted s.history).length = 3 ∧ 0 < m.header.slotCount := by
    refine ⟨_, _, _, ⟨0, Or.inl rfl⟩, Reaches.get_runWhere
      [.write 0 ⟨.custom, [1], Uuid.nil, 0⟩, .read 0, .write 0 ⟨.custom, [2], Uuid.nil, 0⟩,
        .read 0, .write 0 ⟨.diskRead, [3], Uuid.nil, 0⟩, .read 0] (by decide +kernel), ?_⟩
    decide +kernel
  exact ⟨m, rb, s, hc, hrun, hacc, session_refines_queue hc hN hrun⟩

end Elgate.Ring
