import Elgate.Foundation.Atomic
import Elgate.Ring.Ledger
import Elgate.Ring.Queue

/-!
# Many writers and a reader at the same time

Any number of threads call `write` while another one calls `read`. As long as the payloads fit, a
slot is left to spare, and the reader finds every slot that it passes `Ready`, the ring is a
linearizable queue (`ring_linearizable`): the calls and returns are those of a queue on which each
call is performed at one moment. A `write` is performed when it claims its slot, a `read` when it
passes the slot of its message, and a `read` that returns `None` when it loads the producer index
(`writePhase`, `readPhase`). Between its load and its comparison of the indices, such a `read`
returns `None` although messages have been written meanwhile.
-/

namespace Elgate.Ring

open Transition

/-- An operation on a queue of messages. -/
inductive QueueOp
  /-- Appends a message. -/
  | write (msg : Message)
  /-- Takes the first message. -/
  | read
  deriving DecidableEq

/-- A queue of messages: a write always succeeds, and a read takes the first message, if there is
one. -/
def queue : Atomic.Object (List Message) QueueOp (Except Fault (Option Message))
  | q, .write msg => (.ok none, q ++ [msg])
  | q, .read => (.ok q.head?, q.tail)

section
variable {W R : Type}

/-- What the other threads see of an event. The slot that `write` returns is left out. -/
def Event.seen : Event W R → Option (Atomic.Seen (W ⊕ R) QueueOp (Except Fault (Option Message)))
  | .writeCalled w call => some (.called (.inl w) (.write call.message))
  | .writeReturned w _ (.ok _) => some (.returned (.inl w) (.ok none))
  | .writeReturned w _ (.error e) => some (.returned (.inl w) (.error e))
  | .readCalled r => some (.called (.inr r) .read)
  | .readReturned r _ result => some (.returned (.inr r) result)
  | .claimed _ _ _ | .readyStored _ _ | .passed _ _ => none

/-- What is seen of a history. -/
def seen (h : List (Event W R)) :
    List (Atomic.Seen (W ⊕ R) QueueOp (Except Fault (Option Message))) :=
  h.filterMap Event.seen

@[simp] theorem seen_append (h h' : List (Event W R)) : seen (h ++ h') = seen h ++ seen h' :=
  List.filterMap_append

/-- The messages in the ring that no read has returned, when it contained `old` at the start. -/
def unread (old : List Message) (h : List (Event W R)) : List Message :=
  (old ++ claimedMessages h).drop (readMessages h).length

/-- A store is seen when it is the last one of its call. -/
theorem seen_storeEvents (w : W) (call : WriteCall) (idx : ℕ) (st : Store) (rest : List Store) :
    seen (storeEvents w idx st ++ returnEvents w call idx rest : List (Event W R)) =
      if rest = [] then [.returned (.inl w) (.ok none)] else [] := by
  have hstore : seen (storeEvents w idx st : List (Event W R)) = [] := by
    cases st with
    | status status => cases status <;> rfl
    | operation | size | id | timestamp | payload => rfl
  rw [seen_append, hstore, List.nil_append]
  cases rest <;> rfl

/-- A step of `read` that is not its last one is not seen. -/
theorem readStep_seen (rb : RingBuffer) (r : R) (m : RingMemory) (spurious : Bool) (pc : ReadPc) :
    (readStep rb r m spurious pc : Effect W R ReadPc).pc = none ∨
      seen (readStep rb r m spurious pc : Effect W R ReadPc).events = [] := by
  cases pc with
  | loadProducerIdx | loadCurrent | loadOperation | storeReading | copy => exact Or.inr rfl
  | increment => exact Or.inl rfl
  | loadConsumerIdx | checkReady | recheckReady | loadSize =>
    simp only [readStep]
    split <;> first | exact Or.inl rfl | exact Or.inr rfl
  | compareExchange current =>
    simp only [readStep]
    repeat' split
    all_goals first | exact Or.inl rfl | exact Or.inr rfl
  | storeComplete idx kind data => cases data <;> exact Or.inr rfl
  | resetting idx st rest => cases rest <;> first | exact Or.inl rfl | exact Or.inr rfl

end

/-- The slot whose status the call checks after it has passed it. -/
def ReadPc.checking : ReadPc → Option ℕ
  | .checkReady idx => some idx
  | _ => none

/-! ## How far the calls are -/

/-- A call of `write` has been performed when it has claimed a slot. -/
def writePhase (call : Option (WriteCall × WritePc)) :
    Option (Atomic.Phase QueueOp (Except Fault (Option Message))) :=
  call.map fun p =>
    if p.2.claimed = none then .called (.write p.1.message) else .performed (.ok none)

/-- The call of `read` has been performed when it has passed the slot of the first message, or has
loaded a producer index that is the consumer index. -/
def readPhase (m : RingMemory) (l : List Message) (pc : Option ReadPc) :
    Option (Atomic.Phase QueueOp (Except Fault (Option Message))) :=
  pc.map fun
    | .loadConsumerIdx producerIdx =>
      if producerIdx = m.header.consumerIdx then .performed (.ok none) else .called .read
    | pc => if pc.passed = 0 then .called .read else .performed (.ok l.head?)

namespace System

variable {W : Type}

/-- The state of the queue that a ring is, and of its calls. -/
structure Simulates (old : List Message) (s : System W Unit)
    (t : Atomic.State (W ⊕ Unit) (List Message) QueueOp (Except Fault (Option Message))) :
    Prop where
  /-- The queue has the messages whose slots are claimed and not passed. -/
  object : t.object = (unread old s.history).drop s.passed
  /-- The phases of the writers. -/
  writer : ∀ w, t.phase (.inl w) = writePhase (s.writer w)
  /-- The phase of the reader. -/
  reader : t.phase (.inr ()) = readPhase s.memory (unread old s.history) (s.reader ())
  /-- What is seen. -/
  history : t.history = seen s.history

variable {rb : RingBuffer} {N base c : ℕ} {old l : List Message} {s s' : System W Unit}
  {t t' : Atomic.State (W ⊕ Unit) (List Message) QueueOp (Except Fault (Option Message))}

/-- The list of messages in flight is what the history says is unread. -/
theorem Ledger.unread_eq [DecidableEq W] (h : Ledger N base old c l s) :
    unread old s.history = l := by
  unfold unread
  rw [h.messages, List.drop_left]

section
variable [DecidableEq W] {w : W} {call : WriteCall} {e : Effect W Unit WritePc}

/-- After a step of `write`. -/
theorem Simulates.afterWrite (h : Simulates old s t)
    (hobject : t'.object = (unread old (s.history ++ e.events)).drop s.passed)
    (hphase : t'.phase = Function.update t.phase (.inl w)
      (writePhase (e.pc.map fun pc => (call, pc))))
    (hreader : readPhase e.memory (unread old (s.history ++ e.events)) (s.reader ()) =
      readPhase s.memory (unread old s.history) (s.reader ()))
    (hhistory : t'.history = t.history ++ seen e.events) :
    Simulates old (s.afterWrite w call e) t' where
  object := hobject
  writer w' := by
    rw [hphase]
    by_cases hw : w' = w
    · subst hw
      simp [System.afterWrite]
    · have hne : (Sum.inl w' : W ⊕ Unit) ≠ .inl w := fun heq => hw (Sum.inl.inj heq)
      rw [Function.update_of_ne hne, h.writer w']
      simp [System.afterWrite, Function.update_of_ne hw]
  reader := by
    rw [hphase, Function.update_of_ne (by simp), h.reader]
    exact hreader.symm
  history := by
    rw [hhistory, h.history, ← seen_append]
    rfl

/-- After a step of `read`. -/
theorem Simulates.afterRead {e : Effect W Unit ReadPc} (h : Simulates old s t)
    (hobject : t'.object = (unread old (s.history ++ e.events)).drop (e.pc.elim 0 ReadPc.passed))
    (hphase : t'.phase = Function.update t.phase (.inr ())
      (readPhase e.memory (unread old (s.history ++ e.events)) e.pc))
    (hhistory : t'.history = t.history ++ seen e.events) :
    Simulates old (s.afterRead () e) t' where
  object := by
    have hpassed : (s.afterRead () e).passed = e.pc.elim 0 ReadPc.passed := by
      simp [passed, System.afterRead]
    rw [hpassed]
    exact hobject
  writer w := by
    rw [hphase, Function.update_of_ne (by simp), h.writer w]
    rfl
  reader := by
    rw [hphase, Function.update_self]
    simp [System.afterRead]
  history := by
    rw [hhistory, h.history, ← seen_append]
    rfl

end

/-! ## The steps -/

/-- A call of `read` that has passed a slot has the message of that slot. -/
theorem Flow.ne_nil (h : Flow rb N c l s) {pc : ReadPc} (hr : s.reader () = some pc)
    (hpassed : pc.passed = 1) : l ≠ [] := by
  have hsees := h.reader pc hr
  rintro rfl
  cases pc with
  | checkReady => exact hsees.2 rfl
  | loadOperation | recheckReady | storeReading | loadSize | copy | storeComplete =>
    obtain ⟨-, msg, hmsg, -⟩ := hsees
    cases hmsg
  | increment =>
    obtain ⟨-, hmsg, -⟩ := hsees
    cases hmsg
  | resetting => exact hsees
  | loadProducerIdx | loadConsumerIdx | loadCurrent | compareExchange => cases hpassed

/-- A slot that a call of `read` is to check holds the first message when it is `Ready`. -/
theorem Flow.holds_of_ready (h : Flow rb N c l s) {pc : ReadPc} (hr : s.reader () = some pc)
    (hreading : pc.reading = none) : ∀ msg ∈ l.head?,
      (s.memory.slots (c % N)).getStatus = .ready → (s.memory.slots (c % N)).Holds msg := by
  intro msg hmsg hready
  cases l with
  | nil => cases hmsg
  | cons msg' l =>
    obtain rfl := Option.some.inj hmsg
    -- Such a slot is not claimed, and the call is not reading yet.
    rcases h.layout.head with ⟨pc', hr', hidx⟩ | hholds | ⟨w, call, hclaims, -⟩
    · obtain rfl := Option.some.inj (hr.symm.trans hr')
      rw [hreading] at hidx
      cases hidx
    · exact hholds
    · exact absurd hready (h.not_ready hclaims)

/-- The phase of the reader does not change when a message is appended. -/
theorem Flow.readPhase_append (h : Flow rb N c l s) {m' : RingMemory}
    (hconsumer : m'.header.consumerIdx = s.memory.header.consumerIdx) (l' : List Message) :
    readPhase m' (l ++ l') (s.reader ()) = readPhase s.memory l (s.reader ()) := by
  cases hr : s.reader () with
  | none => rfl
  | some pc =>
    have hhead : pc.passed = 1 → (l ++ l').head? = l.head? := by
      intro hpassed
      rw [List.head?_append_of_ne_nil _ (h.ne_nil hr hpassed)]
    cases pc <;> simp_all [readPhase, ReadPc.passed]

section
variable [DecidableEq W]

/-- A step of `write` that claims no slot. -/
theorem Simulates.write_move (h : Simulates old s t) (hledger : Ledger N base old c l s)
    (hflow : Flow rb N c l s) {w : W} {call : WriteCall} {e : Effect W Unit WritePc}
    (hconsumer : e.memory.header.consumerIdx = s.memory.header.consumerIdx)
    (hclaims : claims e.events = []) (hdeliveries : deliveries e.events = [])
    (hobject : t'.object = t.object)
    (hphase : t'.phase = Function.update t.phase (.inl w)
      (writePhase (e.pc.map fun pc => (call, pc))))
    (hhistory : t'.history = t.history ++ seen e.events) :
    Simulates old (s.afterWrite w call e) t' := by
  have hsame : unread old (s.history ++ e.events) = unread old s.history := by
    unfold unread readMessages claimedMessages
    rw [claims_append, deliveries_append, hclaims, hdeliveries, List.append_nil, List.append_nil]
  refine h.afterWrite ?_ hphase ?_ hhistory
  · rw [hsame, hobject]
    exact h.object
  · have hreader := hflow.readPhase_append hconsumer []
    rw [List.append_nil] at hreader
    rw [hsame, hledger.unread_eq]
    exact hreader

/-- The queue answers a step of a writer. -/
theorem Simulates.answer_write (h : Simulates old s t) (hledger : Ledger N base old c l s)
    (hflow : Flow rb N c l s) {w : W} {call : WriteCall} {pc : WritePc}
    (hw : s.writer w = some (call, pc)) (spurious : Bool) :
    ∃ t', Reaches (Atomic.step queue) Always t t' ∧
      Simulates old (s.afterWrite w call (writeStep rb w call s.memory spurious pc)) t' := by
  have hphase := h.writer w
  rw [hw] at hphase
  rcases writeStep_of_sees (R := Unit) hflow.valid (hflow.writer _ _ _ hw) w spurious with
    ⟨pc', he, hclaimed, -⟩ | ⟨hclaimed, attempts, he⟩ | ⟨idx, st, rest, rfl⟩
  · -- The call is as far as before.
    refine ⟨t, Reaches.refl t, ?_⟩
    rw [he]
    refine h.write_move hledger hflow rfl rfl rfl rfl ?_ (List.append_nil _).symm
    have hsame : writePhase (some (call, pc')) = writePhase (some (call, pc)) := by
      simp [writePhase, hclaimed]
    rw [Option.map_some, hsame, ← hphase, Function.update_eq_self]
  · -- The claim is the moment of the write.
    have hcalled : t.phase (.inl w) = some (.called (.write call.message)) := by
      rw [hphase]
      simp [writePhase, hclaimed]
    refine ⟨_, Atomic.reaches_perform hcalled, ?_⟩
    rw [he]
    have happend : unread old (s.history ++ [.claimed w call s.memory.header.producerIdx]) =
        l ++ [call.message] := by
      have hmessages : old ++ claimedMessages s.history = readMessages s.history ++ l :=
        hledger.messages
      have hclaims : claimedMessages (s.history ++
          [(.claimed w call s.memory.header.producerIdx : Event W Unit)]) =
            claimedMessages s.history ++ [call.message] := by
        simp [claimedMessages, claims, Event.claim]
      have hreads : readMessages (s.history ++
          [(.claimed w call s.memory.header.producerIdx : Event W Unit)]) =
            readMessages s.history := by
        simp [readMessages, deliveries, Event.delivery]
      unfold unread
      rw [hclaims, hreads, ← List.append_assoc, hmessages, List.append_assoc, List.drop_left]
    -- The message goes to the end, behind the one that the reader has passed.
    have hpassed : s.passed ≤ l.length := by
      cases hr : s.reader () with
      | none => simp [passed, hr]
      | some pc' =>
        have hle := pc'.passed_le
        have hne := hflow.ne_nil hr
        rcases Nat.lt_or_ge 0 l.length with hpos | hzero
        · simp only [passed, hr, Option.elim_some]
          omega
        · have hnil := List.length_eq_zero_iff.mp (Nat.le_zero.mp hzero)
          have hnot : pc'.passed ≠ 1 := fun heq => hne heq hnil
          simp only [passed, hr, Option.elim_some]
          omega
    refine h.afterWrite ?_ rfl ?_ (List.append_nil _).symm
    · show t.object ++ [call.message] = _
      rw [h.object, hledger.unread_eq, happend, List.drop_append_of_le_length hpassed]
    · have hconsumer : (s.memory.setProducerIdx ((s.memory.header.producerIdx + 1) %
          s.memory.header.slotCount)).header.consumerIdx = s.memory.header.consumerIdx := rfl
      have hreader := hflow.readPhase_append hconsumer [call.message]
      rw [happend, hledger.unread_eq]
      exact hreader
  · -- The last store returns from the call.
    obtain ⟨-, hclaims, -, -, hdeliveries, -⟩ :=
      storeEvents_records (R := Unit) w call idx st rest
    have hseen := seen_storeEvents (R := Unit) w call idx st rest
    have hperformed : t.phase (.inl w) = some (.performed (.ok none)) := by
      rw [hphase]
      simp [writePhase]
    cases rest with
    | nil =>
      refine ⟨_, Atomic.reaches_finish hperformed, ?_⟩
      refine h.write_move hledger hflow rfl hclaims hdeliveries rfl rfl ?_
      exact congrArg _ hseen.symm
    | cons st' rest =>
      refine ⟨t, Reaches.refl t, ?_⟩
      refine h.write_move hledger hflow rfl hclaims hdeliveries rfl ?_ ?_
      · have hsame : writePhase ((WritePc.ofStores idx (st' :: rest)).map fun pc => (call, pc)) =
            t.phase (.inl w) := by
          rw [hperformed]
          simp [writePhase, WritePc.ofStores]
        show t.phase = Function.update t.phase (.inl w)
          (writePhase ((WritePc.ofStores idx (st' :: rest)).map fun pc => (call, pc)))
        rw [hsame, Function.update_eq_self]
      · show t.history = t.history ++
          seen (storeEvents w idx st ++ returnEvents w call idx (st' :: rest) :
            List (Event W Unit))
        rw [hseen, if_neg (List.cons_ne_nil _ _), List.append_nil]

/-- A step of `read` that returns no message. -/
theorem Simulates.read_move (h : Simulates old s t) (hledger : Ledger N base old c l s)
    {e : Effect W Unit ReadPc} (hof : OfRead e.events) (hdeliveries : deliveries e.events = [])
    (hobject : t'.object = l.drop (e.pc.elim 0 ReadPc.passed))
    (hphase : t'.phase = Function.update t.phase (.inr ()) (readPhase e.memory l e.pc))
    (hhistory : t'.history = t.history ++ seen e.events) :
    Simulates old (s.afterRead () e) t' := by
  have hsame : unread old (s.history ++ e.events) = l := by
    rw [← hledger.unread_eq]
    unfold unread readMessages claimedMessages
    rw [claims_append, deliveries_append, hof.claims, hdeliveries, List.append_nil,
      List.append_nil]
  refine h.afterRead ?_ ?_ hhistory
  · rw [hsame]
    exact hobject
  · rw [hsame]
    exact hphase

/-- A call of `read` that has passed a slot has been performed. -/
theorem readPhase_of_passed {m : RingMemory} {pc : ReadPc} (hpassed : pc.passed = 1) :
    readPhase m l (some pc) = some (.performed (.ok l.head?)) := by
  cases pc with
  | loadProducerIdx | loadConsumerIdx | loadCurrent | compareExchange => cases hpassed
  | _ => rfl

/-- The queue answers a step of the reader before it passes a slot. -/
theorem Simulates.answer_passing (h : Simulates old s t) (hledger : Ledger N base old c l s)
    (hflow : Flow rb N c l s) {pc : ReadPc} (hr : s.reader () = some pc) (spurious : Bool)
    (hpassed : pc.passed = 0) :
    ∃ t', Reaches (Atomic.step queue) Always t t' ∧
      Simulates old (s.afterRead () (readStep rb () s.memory spurious pc)) t' := by
  have hphase := h.reader
  have hobject := h.object
  have hconsumer := hflow.consumerIdx
  have hroom := hflow.room
  have hspassed : s.passed = 0 := by simp [passed, hr, hpassed]
  rw [hr, hledger.unread_eq] at hphase
  rw [hledger.unread_eq, hspassed, List.drop_zero] at hobject
  rw [hspassed, Nat.add_zero] at hconsumer hroom
  have hN : s.memory.header.slotCount ≠ 0 :=
    Nat.ne_of_gt (Nat.zero_lt_of_lt hflow.valid.producerIdx_lt)
  cases pc with
  | loadProducerIdx =>
    cases l with
    | nil =>
      -- There is no message, so that this is the moment of a read that returns `None`.
      have hempty : s.memory.header.producerIdx = s.memory.header.consumerIdx := by
        rw [hflow.producerIdx, hconsumer]
        rfl
      refine ⟨_, Atomic.reaches_perform hphase, ?_⟩
      refine h.read_move hledger ⟨rfl, rfl, rfl, rfl, rfl⟩ rfl ?_ ?_ (List.append_nil _).symm
      · show t.object.tail = []
        rw [hobject]
        rfl
      · rw [hobject]
        simp [readPhase, readStep, hempty, queue]
    | cons msg l =>
      -- The index that is loaded is past the message.
      have hne : s.memory.header.producerIdx ≠ s.memory.header.consumerIdx := by
        rw [hflow.producerIdx, hconsumer]
        intro heq
        have := Cyclic.mod_inj c (Nat.le_add_right c _) (Nat.add_lt_add_left hroom c)
          (Nat.le_refl c) (Nat.lt_add_of_pos_right hflow.slotCount_pos) heq
        simp at this
      refine ⟨t, Reaches.refl t, ?_⟩
      refine h.read_move hledger ⟨rfl, rfl, rfl, rfl, rfl⟩ rfl hobject ?_ (List.append_nil _).symm
      have hsame : readPhase s.memory (msg :: l)
          (some (.loadConsumerIdx s.memory.header.producerIdx)) = t.phase (.inr ()) := by
        rw [hphase]
        simp [readPhase, hne, ReadPc.passed]
      show t.phase = Function.update t.phase (.inr ()) (readPhase s.memory (msg :: l)
        (some (.loadConsumerIdx s.memory.header.producerIdx)))
      rw [hsame, Function.update_eq_self]
  | loadConsumerIdx producerIdx =>
    by_cases hidx : producerIdx = s.memory.header.consumerIdx
    · have heq : (readStep rb () s.memory spurious (.loadConsumerIdx producerIdx) :
          Effect W Unit ReadPc) = ⟨s.memory, none, [.readReturned () none (.ok none)]⟩ := by
        simp only [readStep, hidx, if_true]
      rw [heq]
      have hperformed : t.phase (.inr ()) = some (.performed (.ok none)) := by
        rw [hphase]
        simp [readPhase, hidx]
      exact ⟨_, Atomic.reaches_finish hperformed,
        h.read_move hledger ⟨rfl, rfl, rfl, rfl, rfl⟩ rfl hobject rfl rfl⟩
    · have heq : (readStep rb () s.memory spurious (.loadConsumerIdx producerIdx) :
          Effect W Unit ReadPc) = ⟨s.memory, some .loadCurrent, []⟩ := by
        simp only [readStep, hidx, if_false]
      rw [heq]
      refine ⟨t, Reaches.refl t, ?_⟩
      refine h.read_move hledger ⟨rfl, rfl, rfl, rfl, rfl⟩ rfl hobject ?_ (List.append_nil _).symm
      have hsame : readPhase s.memory l (some .loadCurrent) = t.phase (.inr ()) := by
        rw [hphase]
        simp [readPhase, hidx, ReadPc.passed]
      show t.phase = Function.update t.phase (.inr ())
        (readPhase s.memory l (some .loadCurrent))
      rw [hsame, Function.update_eq_self]
  | loadCurrent =>
    refine ⟨t, Reaches.refl t, ?_⟩
    refine h.read_move hledger ⟨rfl, rfl, rfl, rfl, rfl⟩ rfl hobject ?_ (List.append_nil _).symm
    have hsame : readPhase s.memory l (some (.compareExchange s.memory.header.consumerIdx)) =
        t.phase (.inr ()) := hphase.symm
    show t.phase = Function.update t.phase (.inr ())
      (readPhase s.memory l (some (.compareExchange s.memory.header.consumerIdx)))
    rw [hsame, Function.update_eq_self]
  | compareExchange current =>
    have hlt : current < s.memory.header.slotCount := by
      rw [hflow.slotCount]
      exact (hflow.reader _ hr).1
    rw [readStep_compareExchange hflow.valid.fits hlt]
    by_cases hcurrent : s.memory.header.consumerIdx = current ∧ spurious = false
    · -- The exchange passes the slot of the first message, and is the moment of the read.
      rw [if_pos hcurrent]
      refine ⟨_, Atomic.reaches_perform hphase, ?_⟩
      refine h.read_move hledger ⟨rfl, rfl, rfl, rfl, rfl⟩ rfl ?_ ?_ (List.append_nil _).symm
      · show t.object.tail = l.drop 1
        rw [hobject, List.drop_one]
      · rw [hobject]
        rfl
    · rw [if_neg hcurrent]
      refine ⟨t, Reaches.refl t, ?_⟩
      refine h.read_move hledger ⟨rfl, rfl, rfl, rfl, rfl⟩ rfl hobject ?_ (List.append_nil _).symm
      have hsame : readPhase s.memory l (some (.compareExchange s.memory.header.consumerIdx)) =
          t.phase (.inr ()) := hphase.symm
      show t.phase = Function.update t.phase (.inr ())
        (readPhase s.memory l (some (.compareExchange s.memory.header.consumerIdx)))
      rw [hsame, Function.update_eq_self]
  | checkReady | loadOperation | recheckReady | storeReading | loadSize | copy | storeComplete
  | increment | resetting => cases hpassed

/-- The queue answers a step of the reader. -/
theorem Simulates.answer_read (h : Simulates old s t) (hledger : Ledger N base old c l s)
    (hflow : Flow rb N c l s) {pc : ReadPc} (hr : s.reader () = some pc) (spurious : Bool)
    (hmove : (∃ idx msg, pc = .increment idx msg) ∨
      ReadMove s.memory N c l (some pc) (readStep rb () s.memory spurious pc :
        Effect W Unit ReadPc)) :
    ∃ t', Reaches (Atomic.step queue) Always t t' ∧
      Simulates old (s.afterRead () (readStep rb () s.memory spurious pc)) t' := by
  have hle := pc.passed_le
  -- The queue performs the call when the call passes an index, and not before.
  rcases Nat.lt_or_ge pc.passed 1 with hzero | hone
  · exact h.answer_passing hledger hflow hr spurious (by omega)
  have hpassed : pc.passed = 1 := by omega
  have hphase := h.reader
  have hobject := h.object
  have hspassed : s.passed = 1 := by simp [passed, hr, hpassed]
  rw [hr, hledger.unread_eq, readPhase_of_passed hpassed] at hphase
  rw [hledger.unread_eq, hspassed] at hobject
  rcases hmove with ⟨idx, msg, rfl⟩ | he
  · -- The message that is returned is the first one.
    obtain ⟨rfl, hmsg, -⟩ := hflow.reader _ hr
    refine ⟨_, Atomic.reaches_finish hphase, h.afterRead ?_ rfl ?_⟩
    · have hnext : unread old (s.history ++
          [(.readReturned () (some (c % N)) (.ok (some msg)) : Event W Unit)]) = l.drop 1 := by
        have hmessages : old ++ claimedMessages s.history = readMessages s.history ++ l :=
          hledger.messages
        have hclaims : claimedMessages (s.history ++
            [(.readReturned () (some (c % N)) (.ok (some msg)) : Event W Unit)]) =
              claimedMessages s.history := by
          simp [claimedMessages, claims, Event.claim]
        have hreads : (readMessages (s.history ++
            [(.readReturned () (some (c % N)) (.ok (some msg)) : Event W Unit)])).length =
              (readMessages s.history).length + 1 := by
          simp [readMessages, deliveries, Event.delivery]
        unfold unread
        rw [hclaims, hmessages, hreads, List.drop_length_add_append]
      show t.object = _
      rw [hobject]
      exact hnext.symm
    · show t.history ++ [.returned (.inr ()) (.ok l.head?)] = _
      rw [Option.mem_def.mp hmsg]
      rfl
  · -- The call goes on with the same message.
    obtain ⟨hof, -, -⟩ := readStep_events (W := W) rb () s.memory spurious pc
    have hpasses := he.passes
    obtain ⟨pc', hpc'⟩ : ∃ pc', (readStep rb () s.memory spurious pc :
        Effect W Unit ReadPc).pc = some pc' := by
      rw [Option.elim_some, hpassed] at hpasses
      cases hpc' : (readStep rb () s.memory spurious pc : Effect W Unit ReadPc).pc with
      | none =>
        rw [hpc', Option.elim_none] at hpasses
        omega
      | some pc' => exact ⟨pc', rfl⟩
    have hpassed' : pc'.passed = 1 := by
      have hle' := pc'.passed_le
      rw [hpc', Option.elim_some, Option.elim_some, hpassed] at hpasses
      omega
    have hseen : seen (readStep rb () s.memory spurious pc : Effect W Unit ReadPc).events = [] := by
      rcases readStep_seen (W := W) rb () s.memory spurious pc with hnone | hseen
      · rw [hpc'] at hnone
        cases hnone
      · exact hseen
    refine ⟨t, Reaches.refl t, h.read_move hledger hof he.deliveries ?_ ?_ ?_⟩
    · rw [hpc', Option.elim_some, hpassed']
      exact hobject
    · rw [hpc', readPhase_of_passed hpassed', ← hphase, Function.update_eq_self]
    · rw [hseen, List.append_nil]

/-! ## Runs -/

/-- The payload of a call of `write` that starts fits. -/
def PayloadFits (rb : RingBuffer) : Action W Unit → Prop
  | .callWrite _ call => Fits rb call
  | .stepWrite .. | .callRead .. | .stepRead .. => True

instance (rb : RingBuffer) : (a : Action W Unit) → Decidable (PayloadFits rb a)
  | .callWrite _ call => inferInstanceAs (Decidable (Fits rb call))
  | .stepWrite .. | .callRead .. | .stepRead .. => isTrue trivial

/-- The payload of a call that starts fits, and after the step all slots but one are claimed and not
passed, at most, where `u` messages have been unread at the start. -/
def KeepsPace (rb : RingBuffer) (u : ℕ) (s : System W Unit) (a : Action W Unit) : Prop :=
  PayloadFits rb a ∧ ∀ s' ∈ s.step rb a, u + (claims s'.history).length ≤
    (passes s'.history).length + (s.memory.header.slotCount - 1)

instance (rb : RingBuffer) (u : ℕ) (s : System W Unit) (a : Action W Unit) :
    Decidable (s.KeepsPace rb u a) :=
  inferInstanceAs (Decidable (_ ∧ _))

/-- When a step of the reader checks the slot that it has passed, the slot is `Ready`. -/
def ReadsReady (s : System W Unit) : Action W Unit → Prop
  | .stepRead _ _ => ∀ idx ∈ (s.reader ()).bind ReadPc.checking,
    (s.memory.slots idx).getStatus = .ready
  | _ => True

instance (s : System W Unit) : (a : Action W Unit) → Decidable (s.ReadsReady a)
  | .stepRead .. => inferInstanceAs (Decidable (∀ idx ∈ _, _))
  | .callWrite .. | .stepWrite .. | .callRead .. => isTrue trivial

/-- The queue answers every step that keeps the pace. -/
theorem Simulates.answer (h : Simulates old s t) (hflight : InFlight rb N base old s)
    {a : Action W Unit} (hpace : s.KeepsPace rb old.length a) (hready : s.ReadsReady a)
    (hstep : s.step rb a = some s') :
    ∃ t', Reaches (Atomic.step queue) Always t t' ∧ Simulates old s' t' := by
  obtain ⟨c, l, hflow, hledger⟩ := hflight
  obtain ⟨hfit, -⟩ := hpace
  rcases step_cases hstep with ⟨w, call, rfl, hw, rfl⟩ | ⟨w, spurious, call, pc, rfl, hw, rfl⟩ |
    ⟨⟨⟩, rfl, hr, rfl⟩ | ⟨⟨⟩, spurious, pc, rfl, hr, rfl⟩
  · -- A call of `write` starts.
    have hidle : t.phase (.inl w) = none := by
      rw [h.writer w, hw]
      rfl
    have hcall : (writeCall rb w call s.memory : Effect W Unit WritePc) =
        ⟨s.memory, some (.loadProducerIdx maxAttempts), [.writeCalled w call]⟩ := by
      have hlen : call.data.length ≤ rb.payloadSize := hfit.2
      simp [writeCall, maxPayloadSize_eq hflow.slotsFit.slotSize_ge, hlen]
    rw [hcall]
    exact ⟨_, Atomic.reaches_call hidle (.write call.message),
      h.write_move hledger hflow rfl rfl rfl rfl rfl rfl⟩
  · exact h.answer_write hledger hflow hw spurious
  · -- A call of `read` starts.
    have hidle : t.phase (.inr ()) = none := by
      rw [h.reader, hr]
      rfl
    -- A reader between calls has passed nothing that it has not returned.
    have hobject : t.object = l := by
      rw [h.object, hledger.unread_eq]
      simp [passed, hr]
    exact ⟨_, Atomic.reaches_call hidle .read,
      h.read_move hledger (ofRead_readCalled ()) rfl hobject rfl rfl⟩
  · refine h.answer_read hledger hflow hr spurious ?_
    have hconsumer := hflow.consumerIdx
    simp only [passed, hr] at hconsumer
    exact readStep_of_sees hflow.valid hflow.slotCount hflow.producerIdx hconsumer
      (hflow.holds_of_ready hr) hflow.fits (hflow.reader pc hr)
      (fun idx hpc => hready idx (by rw [hr, hpc]; rfl)) () spurious

/-- A step that keeps the pace keeps the messages in flight. -/
theorem InFlight.keepsPace (h : InFlight rb N base old s) {a : Action W Unit}
    (hpace : s.KeepsPace rb old.length a) (hready : s.ReadsReady a)
    (hstep : s.step rb a = some s') : InFlight rb N base old s' := by
  obtain ⟨hfit, hafter⟩ := hpace
  have hN : 0 < N ∧ s.memory.header.slotCount = N := by
    obtain ⟨c, l, hflow, -⟩ := h
    exact ⟨hflow.slotCount_pos, hflow.slotCount⟩
  have hroom : old.length + (claims s'.history).length < N + (passes s'.history).length := by
    have hle := hafter s' hstep
    rw [hN.2] at hle
    omega
  refine h.step ?_ ?_ (fun _ => hroom) hstep
  · rintro w call rfl
    exact hfit
  · rintro spurious idx rfl hr
    exact hready idx (by rw [hr]; rfl)

/-- From a state with its messages in flight, the calls and returns are those of a queue. -/
theorem InFlight.linearizable {m : RingMemory}
    (hstart : InFlight rb N base old (System.start m : System W Unit))
    (hrun : Reaches (System.step rb) (fun s a => s.KeepsPace rb old.length a ∧ s.ReadsReady a)
      (System.start m) s) : Atomic.Linearizable queue old (seen s.history) := by
  -- The invariant and the simulation go together.
  refine Atomic.Linearizable.of_simulation
    (fun s t => InFlight rb N base old s ∧ Simulates old s t)
    (fun s t h => h.2.history) ⟨hstart, ?_⟩ ?_ hrun
  · exact ⟨by simp [unread, System.start, Atomic.State.start, System.passed, claimedMessages,
      readMessages, claims, deliveries], fun w => rfl, rfl, rfl⟩
  · rintro s a s' t ⟨hflight, hsim⟩ ⟨hpace, hready⟩ hstep
    obtain ⟨t', hanswer, hsim'⟩ := hsim.answer hflight hpace hready hstep
    exact ⟨t', hanswer, hflight.keepsPace hpace hready hstep, hsim'⟩

end

end System

/-- Any number of threads write to a ring and one reads from it at the same time, through any
handle, after a session below capacity. As long as the payloads fit, a slot is left to spare, and
the reader finds every slot that it passes `Ready`, the calls and returns are those of a queue that
contains the unread messages of the session at first. -/
theorem ring_linearizable {W : Type} [DecidableEq W] {options : RingBufferOptions}
    {m : RingMemory} {rb rb' : RingBuffer} {s₀ : Session} {s : System W Unit}
    (hc : Created options m rb) (hN : 0 < m.header.slotCount)
    (hsession : Reaches Session.step Session.KeepsRoom (Session.start m rb) s₀)
    (hrb : rb' ∈ s₀.handles)
    (hrun : Reaches (System.step rb')
      (fun s a => s.KeepsPace rb' (unreadCount s₀.history) a ∧ s.ReadsReady a)
      (System.start s₀.memory) s) :
    Atomic.Linearizable queue ((accepted s₀.history).drop (delivered s₀.history).length)
      (seen s.history) := by
  obtain ⟨old, hbelow⟩ := Session.Below.of_keepsRoom hc hN hsession
  have hslot : rb'.slotSize = rb.slotSize := hbelow.handles _ hrb
  have hfits : SlotsFit rb'.slotSize s₀.memory.header.slotCount := by
    rw [hslot, hbelow.slotCount]
    exact hc.slotsFit hN
  have hold : (accepted s₀.history).drop (delivered s₀.history).length = old := by
    rw [hbelow.accepted, List.drop_left]
  have hrotation := hbelow.rotation
  rw [← payloadSize_eq hslot] at hrotation
  have hstart : System.InFlight rb' s₀.memory.header.slotCount (delivered s₀.history).length old
      (System.start s₀.memory : System W Unit) :=
    System.InFlight.start hrotation hfits (hbelow.slotCount ▸ hbelow.room)
  rw [hbelow.unreadCount_eq] at hrun
  rw [hold]
  exact hstart.linearizable hrun

/-- Two threads write to a ring of four slots with one unread message while a third one reads. A
read that starts when the ring is empty returns `None` after a write has returned. -/
theorem ring_linearizable_overtaken : ∃ m rb s₀ s, Created ⟨704, 128⟩ m rb ∧
    Reaches Session.step Session.KeepsRoom (Session.start m rb) s₀ ∧
    Reaches (System.step rb)
      (fun s a => s.KeepsPace rb (unreadCount s₀.history) a ∧ s.ReadsReady a)
      (System.start s₀.memory : System Bool Unit) s ∧
    seen s.history =
      [.called (.inl false) (.write ⟨.custom, [2]⟩), .called (.inr ()) .read,
        .returned (.inr ()) (.ok (some ⟨.custom, [1]⟩)), .called (.inr ()) .read,
        .called (.inl true) (.write ⟨.diskRead, [3]⟩), .returned (.inl true) (.ok none),
        .returned (.inr ()) (.ok none), .returned (.inl false) (.ok none),
        .called (.inr ()) .read, .returned (.inr ()) (.ok (some ⟨.diskRead, [3]⟩))] ∧
    Atomic.Linearizable queue [⟨.custom, [1]⟩] (seen s.history) := by
  obtain ⟨m, rb, s₀, s, hc, hsession, hrun, hN, hrb, hold, hseen⟩ :
      ∃ m rb s₀ s, Created ⟨704, 128⟩ m rb ∧
        Reaches Session.step Session.KeepsRoom (Session.start m rb) s₀ ∧
        Reaches (System.step rb)
          (fun s a => s.KeepsPace rb (unreadCount s₀.history) a ∧ s.ReadsReady a)
          (System.start s₀.memory : System Bool Unit) s ∧
        0 < m.header.slotCount ∧ rb ∈ s₀.handles ∧
        (accepted s₀.history).drop (delivered s₀.history).length = [⟨.custom, [1]⟩] ∧
        seen s.history =
          [.called (.inl false) (.write ⟨.custom, [2]⟩), .called (.inr ()) .read,
            .returned (.inr ()) (.ok (some ⟨.custom, [1]⟩)), .called (.inr ()) .read,
            .called (.inl true) (.write ⟨.diskRead, [3]⟩), .returned (.inl true) (.ok none),
            .returned (.inr ()) (.ok none), .returned (.inl false) (.ok none),
            .called (.inr ()) .read, .returned (.inr ()) (.ok (some ⟨.diskRead, [3]⟩))] := by
    refine ⟨_, _, _, _, ⟨0, Or.inl rfl⟩,
      Reaches.get_runWhere [.write 0 ⟨.custom, [1], Uuid.nil, 0⟩] (by decide +kernel),
      Reaches.get_runWhere
        (.callWrite false ⟨.custom, [2], Uuid.nil, 0⟩ :: .stepWrite false false ::
          .callRead () :: List.replicate 12 (.stepRead () false) ++
          .callRead () :: .stepRead () false ::
          .callWrite true ⟨.diskRead, [3], Uuid.nil, 0⟩ ::
          List.replicate 23 (.stepWrite true false) ++
          .stepRead () false :: List.replicate 22 (.stepWrite false false) ++
          .callRead () :: List.replicate 12 (.stepRead () false)) (by decide +kernel), ?_⟩
    decide +kernel
  have hlinear := ring_linearizable hc hN hsession hrb hrun
  rw [hold] at hlinear
  exact ⟨m, rb, s₀, s, hc, hsession, hrun, hseen, hlinear⟩

end Elgate.Ring
