import Elgate.Foundation.WorkerRuns
import Elgate.Net.Fallback

/-!
# Runs of the fallback network engine

The methods of the engine of `src/net/fallback.rs` send their operations to one worker task, which
runs the loop of `Elgate.Net.Fallback`: an instance of a worker behind a channel (`service`). The
rest of the process opens and closes descriptors in the meantime. `from_raw_fd` panics for the
descriptor -1, which no owner can have; tokio catches the panic, and the task ends.

In every run the operations are performed one at a time, each between its call and its return, and
a method never gets the result of another type (`net_engine_linearizable`). A descriptor that the
engine has opened is with its caller, or lost because the call was cancelled
(`net_engine_hands_over`). An operation on the descriptor -1 ends the engine for all callers
(`net_engine_fails`).
-/

namespace Elgate.Net.Fallback

open Transition
open Worker (ChannelError)

/-- A change that the rest of the process makes to its descriptors. -/
inductive SocketChange
  | openFd (fd : RawFd) (kind : SocketKind)
  | closeFd (fd : RawFd)

section
variable {Addr : Type}

/-- The descriptor that the arm of the operation makes an owner of. -/
def NetworkOperation.owned (op : NetworkOperation Addr) : Option RawFd :=
  match op.opType with
  | .accept | .read | .close => op.fd
  | .write => if op.data.isSome then op.fd else none
  | .connect => none

/-- What the kernel can answer: it hands out descriptors that are not open, and accepts, reads, and
writes on descriptors that are. -/
structure Replies.Possible (replies : Replies Addr) (sockets : Sockets)
    (op : NetworkOperation Addr) : Prop where
  /-- A stream that is accepted is new, and the listener is open. -/
  accept : ∀ stream ∈ replies.accept.toOption, sockets stream.1 = none ∧
    ∀ fd ∈ op.fd, sockets.IsOpen fd
  /-- A stream that is connected is new. -/
  connect : ∀ fd ∈ replies.connect.toOption, sockets fd = none
  /-- A read succeeds on an open descriptor. -/
  read : replies.read.toOption ≠ none → ∀ fd ∈ op.fd, sockets.IsOpen fd
  /-- A write succeeds on an open descriptor. -/
  write : replies.write.toOption ≠ none → ∀ fd ∈ op.fd, sockets.IsOpen fd

instance (replies : Replies Addr) (sockets : Sockets) (op : NetworkOperation Addr) :
    Decidable (replies.Possible sockets op) :=
  decidable_of_iff
    ((∀ stream ∈ replies.accept.toOption, sockets stream.1 = none ∧
        ∀ fd ∈ op.fd, sockets.IsOpen fd) ∧
      (∀ fd ∈ replies.connect.toOption, sockets fd = none) ∧
      (replies.read.toOption ≠ none → ∀ fd ∈ op.fd, sockets.IsOpen fd) ∧
      (replies.write.toOption ≠ none → ∀ fd ∈ op.fd, sockets.IsOpen fd))
    ⟨fun h => ⟨h.1, h.2.1, h.2.2.1, h.2.2.2⟩, fun h => ⟨h.accept, h.connect, h.read, h.write⟩⟩

/-- The worker of an engine. -/
def service (bufferSize : ℕ) : Worker.Service Sockets (NetworkOperation Addr) (Replies Addr)
    (Except String (NetworkResult Addr)) SocketChange where
  perform sockets op replies :=
    if replies.Possible sockets op then
      if op.owned = some (-1) then some (none, sockets)
      else some (some (process bufferSize sockets op replies).1,
        (process bufferSize sockets op replies).2)
    else none
  disturb sockets change :=
    match change with
    | .openFd fd kind => if sockets fd = none then some (sockets.openFd fd kind) else none
    | .closeFd fd => some (sockets.closeFd fd)

/-- An engine with the calls of its methods. -/
abbrev NetworkEngine (Addr : Type) :=
  Worker.State Sockets (NetworkOperation Addr) (Replies Addr)
    (Except String (NetworkResult Addr)) SocketChange

/-- What happens in an engine. -/
abbrev NetworkEvent (Addr : Type) :=
  Worker.Event (NetworkOperation Addr) (Replies Addr) (Except String (NetworkResult Addr))
    SocketChange

end

/-- Configuration for the network I/O engine. -/
structure NetworkConfig where
  /-- Number of I/O worker threads to use. -/
  workerThreads : ℕ
  /-- Size of the read buffer in bytes. -/
  bufferSize : ℕ

/-- `NetworkConfig::default`. -/
def NetworkConfig.default : NetworkConfig := ⟨2, 64 * 1024⟩

/-- The capacity of the channel. -/
def NetworkConfig.capacity (config : NetworkConfig) : ℕ := config.workerThreads * 32

section
variable {Addr : Type}

/-- `NetworkEngine::new`. `mpsc::channel` panics when its capacity is zero. -/
def NetworkEngine.new (config : NetworkConfig) (sockets : Sockets) :
    Except String (NetworkEngine Addr) :=
  if config.capacity = 0 then .error "mpsc bounded channel requires buffer > 0"
  else .ok (Worker.State.start sockets)

/-! ## The methods -/

/-- The operation of `NetworkEngine::accept`. -/
def accept (fd : RawFd) : NetworkOperation Addr := ⟨.accept, none, some fd, none⟩

/-- The operation of `NetworkEngine::connect`. -/
def connect (addr : Addr) : NetworkOperation Addr := ⟨.connect, some addr, none, none⟩

/-- The operation of `NetworkEngine::read`. -/
def read (fd : RawFd) : NetworkOperation Addr := ⟨.read, none, some fd, none⟩

/-- The operation of `NetworkEngine::write`. -/
def write (fd : RawFd) (data : List UInt8) : NetworkOperation Addr :=
  ⟨.write, none, some fd, some data⟩

/-- The operation of `NetworkEngine::close`. -/
def close (fd : RawFd) : NetworkOperation Addr := ⟨.close, none, some fd, none⟩

/-- What a method returns: its callback takes the results of its own type, by `expected`. -/
def methodResult {α : Type} (name : String) (expected : NetworkResult Addr → Option α) :
    Except ChannelError (Except String (NetworkResult Addr)) → Except String α
  | .ok (.ok result) =>
    match expected result with
    | some value => .ok value
    | none => .error "Unexpected result type"
  | .ok (.error e) => .error e
  | .error .send => .error ("Failed to send " ++ name ++ " operation")
  | .error .receive => .error ("Failed to receive " ++ name ++ " result")

/-- What the callback of `accept` takes. -/
def NetworkResult.accept? : NetworkResult Addr → Option (RawFd × Addr)
  | .accept fd addr => some (fd, addr)
  | _ => none

/-- What the callback of `connect` takes. -/
def NetworkResult.connect? : NetworkResult Addr → Option RawFd
  | .connect fd => some fd
  | _ => none

/-- What the callback of `read` takes. -/
def NetworkResult.read? : NetworkResult Addr → Option (List UInt8)
  | .read data => some data
  | _ => none

/-- What the callback of `write` takes. -/
def NetworkResult.write? : NetworkResult Addr → Option ℕ
  | .write n => some n
  | _ => none

/-- What the callback of `close` takes. -/
def NetworkResult.close? : NetworkResult Addr → Option Unit
  | .close => some ()
  | _ => none

section
variable (result : Except ChannelError (Except String (NetworkResult Addr)))

/-- What `accept` returns. -/
def acceptResult : Except String (RawFd × Addr) :=
  methodResult "accept" NetworkResult.accept? result

/-- What `connect` returns. -/
def connectResult : Except String RawFd := methodResult "connect" NetworkResult.connect? result

/-- What `read` returns. -/
def readResult : Except String (List UInt8) := methodResult "read" NetworkResult.read? result

/-- What `write` returns. -/
def writeResult : Except String ℕ := methodResult "write" NetworkResult.write? result

/-- What `close` returns. -/
def closeResult : Except String Unit := methodResult "close" NetworkResult.close? result

end

/-- The callback of the methods that send operations of this type takes the result. -/
def NetworkOperationType.Takes (result : NetworkResult Addr) : NetworkOperationType → Prop
  | .accept => result.accept?.isSome
  | .connect => result.connect?.isSome
  | .read => result.read?.isSome
  | .write => result.write?.isSome
  | .close => result.close?.isSome

/-- The descriptor that an operation has opened. -/
def NetworkResult.opened : NetworkResult Addr → Option RawFd
  | .accept fd _ | .connect fd => some fd
  | .read _ | .write _ | .close => none

/-! ## What an operation does to the descriptors -/

variable {bufferSize : ℕ} {sockets sockets' : Sockets} {op : NetworkOperation Addr}
  {replies : Replies Addr} {result : NetworkResult Addr} {fd : RawFd}

/-- An operation that is performed has the result that its arm computes, unless it makes an owner of
the descriptor -1. -/
theorem service_perform_eq_some {reply : Option (Except String (NetworkResult Addr))}
    (h : (service bufferSize).perform sockets op replies = some (reply, sockets')) :
    replies.Possible sockets op ∧ ((op.owned = some (-1) ∧ reply = none ∧ sockets' = sockets) ∨
      (op.owned ≠ some (-1) ∧ reply = some (process bufferSize sockets op replies).1 ∧
        sockets' = (process bufferSize sockets op replies).2)) := by
  unfold service at h
  dsimp only at h
  split at h
  · rename_i hpossible
    refine ⟨hpossible, ?_⟩
    split at h
    · rename_i howned
      obtain ⟨hreply, hsockets⟩ := Prod.mk.inj (Option.some.inj h)
      exact Or.inl ⟨howned, hreply.symm, hsockets.symm⟩
    · rename_i howned
      obtain ⟨hreply, hsockets⟩ := Prod.mk.inj (Option.some.inj h)
      exact Or.inr ⟨howned, hreply.symm, hsockets.symm⟩
  · cases h

/-- The result of an operation is of its type, and its error is not that of a callback. -/
theorem process_outcome (bufferSize : ℕ) (sockets : Sockets) (op : NetworkOperation Addr)
    (replies : Replies Addr) :
    (∃ result, (process bufferSize sockets op replies).1 = .ok result ∧
      op.opType.Takes result) ∨
    ∃ e, (process bufferSize sockets op replies).1 = .error e ∧ e ≠ "Unexpected result type" := by
  -- The errors of the arms start with `Failed`, or with `No` when an argument is missing.
  unfold process
  cases op.opType with
  | accept =>
    unfold processAccept
    dsimp only
    split
    · split
      · exact Or.inl ⟨_, rfl, rfl⟩
      · exact Or.inr ⟨_, rfl, ne_of_head? (by simp)⟩
    · exact Or.inr ⟨_, rfl, by decide⟩
  | connect =>
    unfold processConnect
    dsimp only
    split
    · split
      · exact Or.inl ⟨_, rfl, rfl⟩
      · exact Or.inr ⟨_, rfl, ne_of_head? (by simp)⟩
    · exact Or.inr ⟨_, rfl, by decide⟩
  | read =>
    unfold processRead
    dsimp only
    split
    · split
      · exact Or.inl ⟨_, rfl, rfl⟩
      · exact Or.inr ⟨_, rfl, ne_of_head? (by simp)⟩
    · exact Or.inr ⟨_, rfl, by decide⟩
  | write =>
    unfold processWrite
    dsimp only
    split
    · split
      · split
        · exact Or.inl ⟨_, rfl, rfl⟩
        · exact Or.inr ⟨_, rfl, ne_of_head? (by simp)⟩
      · exact Or.inr ⟨_, rfl, by decide⟩
    · exact Or.inr ⟨_, rfl, by decide⟩
  | close =>
    unfold processClose
    dsimp only
    split
    · exact Or.inl ⟨_, rfl, rfl⟩
    · exact Or.inr ⟨_, rfl, by decide⟩

/-- A result is of the type of its operation. -/
theorem takes_of_process (h : (process bufferSize sockets op replies).1 = .ok result) :
    op.opType.Takes result := by
  rcases process_outcome bufferSize sockets op replies with ⟨result', hok, htakes⟩ | ⟨e, herror, -⟩
  · obtain rfl := Except.ok.inj (hok.symm.trans h)
    exact htakes
  · rw [h] at herror
    cases herror

/-- No operation fails with the error of a callback. -/
theorem ne_unexpected_of_process {e : String}
    (h : (process bufferSize sockets op replies).1 = .error e) : e ≠ "Unexpected result type" := by
  rcases process_outcome bufferSize sockets op replies with ⟨result, hok, -⟩ | ⟨e', herror, hne⟩
  · rw [h] at hok
    cases hok
  · obtain rfl := Except.error.inj (herror.symm.trans h)
    exact hne

/-- A descriptor that an operation opens is new, and that of a stream. -/
theorem opened_of_process (hpossible : replies.Possible sockets op)
    (h : (process bufferSize sockets op replies).1 = .ok result)
    (hopened : result.opened = some fd) :
    sockets fd = none ∧ (process bufferSize sockets op replies).2 fd = some .stream := by
  have htakes := takes_of_process h
  unfold process at h ⊢
  cases htype : op.opType with
  | accept =>
    rw [htype] at h
    unfold processAccept at h ⊢
    dsimp only at h ⊢
    cases hfd : op.fd with
    | none =>
      rw [hfd] at h
      cases h
    | some listener =>
      cases haccept : replies.accept with
      | error e =>
        rw [hfd, haccept] at h
        cases h
      | ok stream =>
        rw [hfd, haccept] at h
        obtain rfl := Except.ok.inj h
        obtain rfl := Option.some.inj hopened
        obtain ⟨hnew, hlistener⟩ := hpossible.accept stream (by rw [haccept]; rfl)
        -- The listener that is dropped is another descriptor, for it was open.
        have hne : stream.1 ≠ listener := by
          rintro rfl
          exact hlistener _ (by rw [hfd]; rfl) hnew
        refine ⟨hnew, ?_⟩
        dsimp only
        rw [Sockets.closeFd_of_ne hne, Sockets.openFd_self]
  | connect =>
    rw [htype] at h
    unfold processConnect at h ⊢
    dsimp only at h ⊢
    cases haddr : op.addr with
    | none =>
      rw [haddr] at h
      cases h
    | some addr =>
      cases hconnect : replies.connect with
      | error e =>
        rw [haddr, hconnect] at h
        cases h
      | ok stream =>
        rw [haddr, hconnect] at h
        obtain rfl := Except.ok.inj h
        obtain rfl := Option.some.inj hopened
        exact ⟨hpossible.connect _ (by rw [hconnect]; rfl), Sockets.openFd_self⟩
  | read | write | close =>
    rw [htype] at htakes
    cases result <;> cases hopened <;> cases htakes

/-- An operation leaves a stream that it is not given. -/
theorem process_keeps (hpossible : replies.Possible sockets op) (hfd : sockets fd = some .stream)
    (hne : op.fd ≠ some fd) : (process bufferSize sockets op replies).2 fd = some .stream := by
  -- An arm closes the descriptor that it is given, or opens one that is new.
  have hclose : ∀ {sockets' : Sockets} {given : RawFd}, op.fd = some given →
      sockets' fd = some .stream → sockets'.closeFd given fd = some .stream := by
    intro sockets' given hgiven hopen
    rw [Sockets.closeFd_of_ne (by rintro rfl; exact hne hgiven), hopen]
  have hnew : ∀ {stream : RawFd}, sockets stream = none →
      sockets.openFd stream .stream fd = some .stream := by
    intro stream hstream
    rw [Sockets.openFd_of_ne (by rintro rfl; rw [hfd] at hstream; cases hstream), hfd]
  unfold process
  cases op.opType with
  | accept =>
    unfold processAccept
    dsimp only
    split
    · rename_i given hgiven
      split
      · rename_i stream addr haccept
        exact hclose hgiven (hnew (hpossible.accept (stream, addr) (by rw [haccept]; rfl)).1)
      · exact hclose hgiven hfd
    · exact hfd
  | connect =>
    unfold processConnect
    dsimp only
    split
    · split
      · rename_i stream hconnect
        exact hnew (hpossible.connect stream (by rw [hconnect]; rfl))
      · exact hfd
    · exact hfd
  | read =>
    unfold processRead
    dsimp only
    split
    · rename_i given hgiven
      split
      · exact hfd
      · exact hclose hgiven hfd
    · exact hfd
  | write =>
    unfold processWrite
    dsimp only
    split
    · rename_i given hgiven
      split
      · split
        · exact hfd
        · exact hclose hgiven hfd
      · exact hfd
    · exact hfd
  | close =>
    unfold processClose
    dsimp only
    split
    · rename_i given hgiven
      exact hclose hgiven hfd
    · exact hfd

/-- So does every event that neither performs an operation that is given the stream nor closes it
from outside. -/
theorem apply_keeps (e : NetworkEvent Addr) (hfd : sockets fd = some .stream)
    (hgiven : ∀ k op replies reply, e = .performed k op replies reply → op.fd ≠ some fd)
    (houtside : e ≠ .disturbed (.closeFd fd)) :
    e.apply (service bufferSize) sockets fd = some .stream := by
  cases e with
  | performed k op replies reply =>
    have hne := hgiven k op replies reply rfl
    unfold Worker.Event.apply service
    dsimp only
    split
    · rename_i hpossible
      split
      · exact hfd
      · exact process_keeps hpossible hfd hne
    · exact hfd
  | disturbed change =>
    unfold Worker.Event.apply service
    dsimp only
    cases change with
    | openFd fd' kind =>
      dsimp only
      split
      · rename_i hnew
        rw [Option.getD_some, Sockets.openFd_of_ne (by rintro rfl; rw [hfd] at hnew; cases hnew),
          hfd]
      · exact hfd
    | closeFd fd' =>
      have hne : fd ≠ fd' := by
        rintro rfl
        exact houtside rfl
      dsimp only
      rw [Option.getD_some, Sockets.closeFd_of_ne hne, hfd]
  | called | sent | taken | returned | cancelled | stopped => exact hfd

/-! ## Runs of an engine -/

variable {config : NetworkConfig} {start s : NetworkEngine Addr}

/-- A new engine has no calls. -/
theorem start_of_new (hnew : NetworkEngine.new config sockets = .ok start) :
    start = Worker.State.start sockets ∧ 0 < config.capacity := by
  unfold NetworkEngine.new at hnew
  split at hnew
  · cases hnew
  · exact ⟨(Except.ok.inj hnew).symm, by omega⟩

/-- A call that returns a reply has the result that the arm of its operation computes. -/
theorem reply_of_returned {history : List (NetworkEvent Addr)} {capacity i : ℕ}
    {reply : Except String (NetworkResult Addr)}
    (hlawful : Worker.Lawful (service bufferSize) capacity sockets history)
    (hcalled : .called i op ∈ history) (hreturned : .returned i (.ok reply) ∈ history) :
    ∃ sockets' replies, reply = (process bufferSize sockets' op replies).1 := by
  obtain ⟨sockets', replies, sockets'', hperform⟩ :=
    hlawful.perform_of_returned hcalled hreturned
  rcases (service_perform_eq_some hperform).2 with ⟨-, hnone, -⟩ | ⟨-, hreply, -⟩
  · cases hnone
  · exact ⟨sockets', replies, Option.some.inj hreply⟩

/-- What a method returns of its operation: a value when the operation has succeeded, and never the
error of a callback that gets the result of another type. -/
def Delivers {α : Type} (history : List (NetworkEvent Addr)) (op : NetworkOperation Addr)
    (method : Except ChannelError (Except String (NetworkResult Addr)) → Except String α) : Prop :=
  ∀ i result, .called i op ∈ history → .returned i result ∈ history →
    ((∃ value, method result = .ok value) ↔ ∃ value, result = .ok (.ok value)) ∧
      method result ≠ .error "Unexpected result type"

/-- So do all methods. -/
structure MethodsDeliver (history : List (NetworkEvent Addr)) : Prop where
  /-- `accept`. -/
  accept : ∀ fd, Delivers history (accept fd) acceptResult
  /-- `connect`. -/
  connect : ∀ addr, Delivers history (connect addr) connectResult
  /-- `read`. -/
  read : ∀ fd, Delivers history (read fd) readResult
  /-- `write`. -/
  write : ∀ fd data, Delivers history (write fd data) writeResult
  /-- `close`. -/
  close : ∀ fd, Delivers history (close fd) closeResult

/-- A method delivers when its callback takes the results of its operations. -/
theorem Delivers.of_lawful {α : Type} {history : List (NetworkEvent Addr)} {capacity : ℕ}
    (hlawful : Worker.Lawful (service bufferSize) capacity sockets history) (name : String)
    {expected : NetworkResult Addr → Option α}
    (htakes : ∀ result, op.opType.Takes result → (expected result).isSome = true) :
    Delivers history op (methodResult name expected) := by
  intro i result hcalled hreturned
  match result, hreturned with
  | .error .send, _ =>
    refine ⟨by simp [methodResult], fun h => ?_⟩
    exact absurd (Except.error.inj h) (ne_of_head? (by simp))
  | .error .receive, _ =>
    refine ⟨by simp [methodResult], fun h => ?_⟩
    exact absurd (Except.error.inj h) (ne_of_head? (by simp))
  | .ok (.error e), hreturned =>
    obtain ⟨sockets', replies, hreply⟩ := reply_of_returned hlawful hcalled hreturned
    refine ⟨by simp [methodResult], fun h => ?_⟩
    exact absurd (Except.error.inj h) (ne_unexpected_of_process hreply.symm)
  | .ok (.ok result), hreturned =>
    -- The arm has the type of the method, so the callback takes its result.
    obtain ⟨sockets', replies, hreply⟩ := reply_of_returned hlawful hcalled hreturned
    obtain ⟨value, hvalue⟩ :=
      Option.isSome_iff_exists.mp (htakes result (takes_of_process hreply.symm))
    have hmethod : methodResult name expected (.ok (.ok result)) = .ok value := by
      simp only [methodResult, hvalue]
    rw [hmethod]
    exact ⟨iff_of_true ⟨value, rfl⟩ ⟨result, rfl⟩, nofun⟩

/-- In every run of an engine, the operations are performed one after the other, each between its
call and its return, and a method that gets a result gets one of its own type. -/
theorem net_engine_linearizable (hnew : NetworkEngine.new config sockets = .ok start)
    (hrun : Reaches (Worker.step (service config.bufferSize) config.capacity) Always start s) :
    Worker.Linearizable (service config.bufferSize) sockets s.history ∧
      s.world = Worker.replay (service config.bufferSize) sockets s.history ∧
      s.channel.length ≤ config.workerThreads * 32 ∧
      (∀ i op result, .called i op ∈ s.history → .returned i (.ok (.ok result)) ∈ s.history →
        op.opType.Takes result) ∧
      MethodsDeliver s.history := by
  obtain ⟨rfl, -⟩ := start_of_new hnew
  have hinv := Worker.Inv.of_reaches hrun
  refine ⟨hinv.lawful.linearizable, hinv.world, hinv.room,
    fun i op result hcalled hreturned => ?_, ?_⟩
  · obtain ⟨sockets', replies, hreply⟩ := reply_of_returned hinv.lawful hcalled hreturned
    exact takes_of_process hreply.symm
  · exact {
      accept := fun fd => .of_lawful hinv.lawful "accept" fun _ => id
      connect := fun addr => .of_lawful hinv.lawful "connect" fun _ => id
      read := fun fd => .of_lawful hinv.lawful "read" fun _ => id
      write := fun fd data => .of_lawful hinv.lawful "write" fun _ => id
      close := fun fd => .of_lawful hinv.lawful "close" fun _ => id }

/-- What the kernel answers when it connects a stream as the descriptor 5. -/
def connectsFive : Replies Unit := ⟨.error "", .ok 5, .error "", .error ""⟩

/-- A connection is made. -/
theorem net_engine_linearizable_connect : ∃ start s : NetworkEngine Unit,
    NetworkEngine.new ⟨1, 4096⟩ (fun _ => none) = .ok start ∧
    Reaches (Worker.step (service 4096) (NetworkConfig.capacity ⟨1, 4096⟩)) Always start s ∧
    .returned 0 (.ok (.ok (.connect 5))) ∈ s.history ∧
    NetworkOperationType.connect.Takes (.connect 5 : NetworkResult Unit) := by
  obtain ⟨s, hrun, hcalled, hreturned⟩ : ∃ s : NetworkEngine Unit,
      Reaches (Worker.step (service 4096) (NetworkConfig.capacity ⟨1, 4096⟩)) Always
        (Worker.State.start fun _ => none) s ∧
      .called 0 (connect ()) ∈ s.history ∧ .returned 0 (.ok (.ok (.connect 5))) ∈ s.history :=
    ⟨_, Reaches.get_runWhere
      [.call (connect ()), .send 0, .take, .perform connectsFive, .receive 0] (by decide +kernel),
      List.mem_of_getElem? (i := 0) rfl, List.mem_of_getElem? (i := 4) rfl⟩
  exact ⟨_, s, rfl, hrun, hreturned,
    (net_engine_linearizable rfl hrun).2.2.2.1 0 (connect ()) (.connect 5) hcalled hreturned⟩

/-- A descriptor that the engine opens is new, and the caller has it, or the result waits for the
caller, or the call was cancelled. It stays open until an operation is given it or the rest of the
process closes it, also when nobody has it. -/
theorem net_engine_hands_over (hnew : NetworkEngine.new config sockets = .ok start)
    (hrun : Reaches (Worker.step (service config.bufferSize) config.capacity) Always start s)
    {past future : List (NetworkEvent Addr)} {i : ℕ}
    (hhistory : s.history = past ++ .performed i op replies (some (.ok result)) :: future)
    (hopened : result.opened = some fd) :
    Worker.replay (service config.bufferSize) sockets past fd = none ∧
    (.returned i (.ok (.ok result)) ∈ s.history ∨ s.phase i = some (.answered (.ok result)) ∨
      .cancelled i ∈ s.history) ∧
    ((∀ k op replies reply, .performed k op replies reply ∈ future → op.fd ≠ some fd) →
      .disturbed (.closeFd fd) ∉ future → s.world fd = some .stream) := by
  obtain ⟨rfl, -⟩ := start_of_new hnew
  have hinv := Worker.Inv.of_reaches hrun
  obtain ⟨sockets', hperform⟩ := hinv.lawful.linearizable.sequential _ _ _ _ _ _ hhistory
  obtain ⟨hpossible, hcases⟩ := service_perform_eq_some hperform
  rcases hcases with ⟨-, hnone, -⟩ | ⟨-, hreply, rfl⟩
  · cases hnone
  · obtain ⟨hfresh, hstream⟩ := opened_of_process hpossible (Option.some.inj hreply).symm hopened
    refine ⟨hfresh, ?_, fun hgiven houtside => ?_⟩
    · -- A reply that is sent is returned, or waits, or its call was cancelled.
      have hmem : .performed i op replies (some (.ok result)) ∈ s.history := by
        rw [hhistory]
        exact List.mem_append_right _ List.mem_cons_self
      exact hinv.reply_delivered hmem
    · rw [hinv.world, hhistory, Worker.replay_append_append]
      show Worker.replay (service config.bufferSize)
        (Worker.Event.apply (service config.bufferSize) _ _) future fd = _
      rw [Worker.Event.apply, hperform]
      -- From there on every event keeps the stream open.
      refine Worker.replay_of_keeps (P := fun w : Sockets => w fd = some .stream) hstream
        fun e he w hw => apply_keeps e hw ?_ ?_
      · rintro k op' replies' reply' rfl
        exact hgiven k op' replies' reply' he
      · rintro rfl
        exact houtside he

/-- The call of `connect` is cancelled, and the descriptor stays open. -/
theorem net_engine_hands_over_cancelled : ∃ start s : NetworkEngine Unit,
    NetworkEngine.new ⟨1, 4096⟩ (fun _ => none) = .ok start ∧
    Reaches (Worker.step (service 4096) (NetworkConfig.capacity ⟨1, 4096⟩)) Always start s ∧
    .cancelled 0 ∈ s.history ∧ s.phase 0 = none ∧ s.world 5 = some .stream := by
  obtain ⟨s, hrun, hhistory, hphase⟩ : ∃ s : NetworkEngine Unit,
      Reaches (Worker.step (service 4096) (NetworkConfig.capacity ⟨1, 4096⟩)) Always
        (Worker.State.start fun _ => none) s ∧
      s.history = [.called 0 (connect ()), .sent 0, .cancelled 0, .taken 0] ++
        .performed 0 (connect ()) connectsFive (some (.ok (.connect 5))) :: [] ∧
      s.phase 0 = none :=
    ⟨_, Reaches.get_runWhere
      [.call (connect ()), .send 0, .cancel 0, .take, .perform connectsFive] (by decide +kernel),
      rfl, rfl⟩
  obtain ⟨-, -, hopen⟩ := net_engine_hands_over rfl hrun hhistory rfl
  exact ⟨_, s, rfl, hrun, by rw [hhistory]; simp, hphase, hopen (by simp) (by simp)⟩

/-- A call fails on the channel only after the worker was stopped, or has performed an operation
that makes an owner of the descriptor -1. Such an operation is the last one that is performed, and
every call that starts after it fails. -/
theorem net_engine_fails (hnew : NetworkEngine.new config sockets = .ok start)
    (hrun : Reaches (Worker.step (service config.bufferSize) config.capacity) Always start s) :
    (∀ i error, .returned i (.error error) ∈ s.history → .stopped ∈ s.history ∨
      ∃ j op replies, .performed j op replies none ∈ s.history ∧ op.owned = some (-1)) ∧
    ∀ past j op replies reply future,
      s.history = past ++ .performed j op replies reply :: future → op.owned = some (-1) →
      (∀ k op' replies' reply', .performed k op' replies' reply' ∉ future) ∧
      ∀ i op' result, .called i op' ∈ future → .returned i result ∈ s.history →
        result = .error .send := by
  obtain ⟨rfl, -⟩ := start_of_new hnew
  have hlawful := (Worker.Inv.of_reaches hrun).lawful
  have hlinear := hlawful.linearizable
  constructor
  · intro i error hmem
    obtain ⟨past, future, heq⟩ := List.append_of_mem hmem
    obtain ⟨⟨e, he, hstops⟩, -⟩ := hlinear.failed _ _ _ _ heq
    have hin : e ∈ s.history := by
      rw [heq]
      exact List.mem_append_left _ he
    match e, hstops with
    | .stopped, _ => exact Or.inl hin
    | .performed j op replies none, _ =>
      -- The worker has panicked.
      obtain ⟨past', future', heq'⟩ := List.append_of_mem hin
      obtain ⟨sockets', hperform⟩ := hlinear.sequential _ _ _ _ _ _ heq'
      rcases (service_perform_eq_some hperform).2 with ⟨howned, -⟩ | ⟨-, hreply, -⟩
      · exact Or.inr ⟨j, op, replies, hin, howned⟩
      · cases hreply
  · intro past j op replies reply future heq howned
    obtain ⟨sockets', hperform⟩ := hlinear.sequential _ _ _ _ _ _ heq
    have hstops : (.performed j op replies reply : NetworkEvent Addr).Stops := by
      rcases (service_perform_eq_some hperform).2 with ⟨-, rfl, -⟩ | ⟨hnot, -⟩
      · trivial
      · exact absurd howned hnot
    refine ⟨fun k op' replies' reply' => (heq ▸ hlawful).not_performed_after hstops, ?_⟩
    intro i op' result hcalled hreturned
    exact (heq ▸ hlawful).refused_after hstops hcalled (heq ▸ hreturned)

/-- A `read` of the descriptor -1, and a call of `connect` after it. -/
theorem net_engine_fails_read : ∃ start s : NetworkEngine Unit,
    NetworkEngine.new ⟨1, 4096⟩ (fun _ => none) = .ok start ∧
    Reaches (Worker.step (service 4096) (NetworkConfig.capacity ⟨1, 4096⟩)) Always start s ∧
    .called 1 (connect ()) ∈ s.history ∧
    ∀ result, .returned 1 result ∈ s.history → result = .error .send := by
  let replies : Replies Unit := ⟨.error "", .error "", .error "", .error ""⟩
  obtain ⟨s, hrun, hhistory⟩ : ∃ s : NetworkEngine Unit,
      Reaches (Worker.step (service 4096) (NetworkConfig.capacity ⟨1, 4096⟩)) Always
        (Worker.State.start fun _ => none) s ∧
      s.history = [.called 0 (read (-1)), .sent 0, .taken 0] ++
        .performed 0 (read (-1)) replies none :: [.called 1 (connect ()),
          .returned 1 (.error .send)] :=
    ⟨_, Reaches.get_runWhere [.call (read (-1)), .send 0, .take, .perform replies,
      .call (connect ()), .refuse 1] (by decide +kernel), rfl⟩
  obtain ⟨-, hfails⟩ := net_engine_fails rfl hrun
  exact ⟨_, s, rfl, hrun, by rw [hhistory]; simp,
    fun result => (hfails _ _ _ _ _ _ hhistory rfl).2 1 (connect ()) result (by simp)⟩

end

end Elgate.Net.Fallback
