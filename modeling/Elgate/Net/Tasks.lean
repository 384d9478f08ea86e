import Elgate.Foundation.Transition
import Elgate.Net.Connections

/-!
# Tasks on one network engine

Any number of tasks call one io_uring `NetworkEngine`, under cooperative scheduling on one thread. A
task leaves the thread at an `.await` only, and may be given the thread again at any time that it is
free, whether or not the kernel has completed what it waits for. The table of connections is in a
`std::sync::Mutex`, whose `lock()` blocks the thread: the step of a task that is at a `lock()` is
possible only when nobody has the guard. Between two steps of a task that has the thread no other
task takes one, so a step is what a call does from one `lock()`, `.await`, or end of a guard to the
next.
-/

namespace Elgate.Net

open Bytes Transition

/-- The system call on a stream for which `read` and `write` wait. -/
inductive Transfer
  /-- That of `read`. -/
  | read
  /-- That of `write`. -/
  | write (data : List UInt8)
  deriving DecidableEq, Repr

/-- The calls that search the table for a descriptor, and what they do then. -/
inductive Search
  /-- `read` and `write`. -/
  | transfer (fd : RawFd) (transfer : Transfer)
  /-- `close`. -/
  | close (fd : RawFd)
  deriving DecidableEq, Repr

/-- The descriptor that is searched for. -/
def Search.fd : Search → RawFd
  | transfer fd _ => fd
  | close fd => fd

/-- The calls that insert a stream. -/
inductive Insertion (Addr : Type)
  /-- `connect`. -/
  | connect (addr : Addr) (fd : RawFd)
  /-- `accept`, with the listeners that it drops at its end. -/
  | accept (listenerFd listener : RawFd) (fd : RawFd) (addr : Addr)
  deriving DecidableEq, Repr

/-- A call of the engine. For `accept`, with the results of `local_addr` and `bind`. -/
inductive EngineCall (Addr : Type)
  | connect (addr : Addr)
  | accept (listenerFd : RawFd) (localAddr : Except IoError Addr) (bound : Except IoError RawFd)
  | read (fd : RawFd)
  | write (fd : RawFd) (data : List UInt8)
  | close (fd : RawFd)

/-- What a call returns. -/
inductive Returned (Addr : Type)
  | connect (result : Except String RawFd)
  | accept (result : Except String (RawFd × Addr))
  | read (result : Except String (List UInt8))
  | write (result : Except String ℕ)
  | close (result : Except String Unit)

/-- What the kernel completes an operation with. -/
inductive Completion (Addr : Type)
  | connect (reply : Except IoError RawFd)
  | accept (reply : Except IoError (RawFd × Addr))
  | read (reply : Except IoError (List UInt8))
  | write (reply : Except IoError ℕ)

/-- Where a task is in a call. -/
inductive Pc (Addr : Type)
  /-- `TcpStream::connect(addr).await`. -/
  | connecting (addr : Addr)
  /-- `listener.accept().await`. -/
  | accepting (listenerFd listener : RawFd)
  /-- The `lock()` before an insertion. -/
  | lockInsert (insertion : Insertion Addr)
  /-- The insertion, with the guard. -/
  | inserting (insertion : Insertion Addr)
  /-- The first `lock()` of `read`, `write`, or `close`. -/
  | lockSearch (search : Search)
  /-- The search, with the guard. -/
  | searching (search : Search)
  /-- The second `lock()`. -/
  | lockStream (search : Search) (addr : Addr)
  /-- The lookup of the stream, or its removal, with the guard. -/
  | looking (search : Search) (addr : Addr)
  /-- `stream.read(buf).await` or `stream.write(data).await`, with the guard. -/
  | transferring (transfer : Transfer) (addr : Addr) (stream : RawFd)
  deriving DecidableEq, Repr

namespace Pc

variable {Addr : Type}

/-- The task is at a `lock()`. -/
def AtLock : Pc Addr → Prop
  | lockInsert _ | lockSearch _ | lockStream _ _ => True
  | _ => False

/-- The task has the guard. -/
def HasGuard : Pc Addr → Prop
  | inserting _ | searching _ | looking _ _ | transferring _ _ _ => True
  | _ => False

/-- The task is at an `.await`. -/
def AtAwait : Pc Addr → Prop
  | connecting _ | accepting _ _ | transferring _ _ _ => True
  | _ => False

/-- The task waits for a transfer. -/
def IsTransferring : Pc Addr → Prop
  | transferring _ _ _ => True
  | _ => False

instance (pc : Pc Addr) : Decidable pc.IsTransferring := by
  unfold IsTransferring
  split <;> infer_instance

/-- A transfer is the only wait with the guard. -/
theorem isTransferring_iff {pc : Pc Addr} : pc.IsTransferring ↔ pc.HasGuard ∧ pc.AtAwait := by
  cases pc <;> simp [IsTransferring, HasGuard, AtAwait]

end Pc

/-- What a step leaves: the engine, who has the guard, where the task is then, and what its call has
returned, if it has. -/
structure After (T Addr : Type) where
  /-- The engine. -/
  engine : Engine Addr
  /-- Who has the guard. -/
  guard : Option T
  /-- Where the task is. -/
  pc : Option (Pc Addr)
  /-- What its call has returned. -/
  returned : Option (Returned Addr)

/-- The tasks, and what they share. -/
structure System (T Addr : Type) where
  /-- The engine. -/
  engine : Engine Addr
  /-- Who has the guard of the table. -/
  guard : Option T
  /-- Where each task is in its call. -/
  pc : T → Option (Pc Addr)
  /-- Who has the thread. -/
  running : Option T
  /-- What calls have returned, oldest first. -/
  returned : List (T × Returned Addr)

/-- One action. -/
inductive Action (T Addr : Type)
  /-- A task is given the thread. -/
  | resume (t : T)
  /-- The task with the thread leaves it between calls. -/
  | leave
  /-- The task with the thread leaves it at an `.await`. -/
  | suspend
  /-- The task with the thread calls the engine. -/
  | call (call : EngineCall Addr)
  /-- The task with the thread goes on from an `.await` that has completed. -/
  | complete (completion : Completion Addr)
  /-- The task with the thread takes the next step of its call. A search runs through the entries of
  the table in this order. -/
  | step (order : List (Sigma fun _ : Addr => RawFd))

section
variable {T Addr : Type} [ToString Addr]

/-- What a search returns that finds no address. -/
def Search.notFound : Search → Returned Addr
  | transfer fd .read => .read (.error ("No connection found for fd " ++ toString fd))
  | transfer fd (.write _) => .write (.error ("No connection found for fd " ++ toString fd))
  | close _ => .close (.ok ())

/-- What a transfer returns that finds no stream. -/
def Transfer.removed : Transfer → Returned Addr
  | read => .read (.error "Connection removed while reading")
  | write _ => .write (.error "Connection removed while writing")

/-- A call starts. -/
def startCall (engine : Engine Addr) (guard : Option T) : EngineCall Addr → Option (After T Addr)
  | .connect addr => some ⟨engine, guard, some (.connecting addr), none⟩
  | .accept listenerFd localAddr bound =>
    match localAddr with
    | .error e => some ⟨engine.closeFd listenerFd, guard, none, some (.accept (.error e))⟩
    | .ok _ =>
      match bound with
      | .error e => some ⟨engine.closeFd listenerFd, guard, none, some (.accept (.error e))⟩
      | .ok listener =>
        if engine.sockets listener = none then
          some ⟨engine.openFd listener .listener, guard, some (.accepting listenerFd listener),
            none⟩
        else none
  | .read fd => some ⟨engine, guard, some (.lockSearch (.transfer fd .read)), none⟩
  | .write fd data => some ⟨engine, guard, some (.lockSearch (.transfer fd (.write data))), none⟩
  | .close fd => some ⟨engine, guard, some (.lockSearch (.close fd)), none⟩

/-- A call goes on from an `.await`. -/
def completeCall (bufferSize : ℕ) (engine : Engine Addr) (guard : Option T) :
    Pc Addr → Completion Addr → Option (After T Addr)
  | .connecting addr, .connect reply =>
    match reply with
    | .error e => some ⟨engine, guard, none,
        some (.connect (.error ("Failed to connect to " ++ toString addr ++ ": " ++ e)))⟩
    | .ok fd =>
      if engine.sockets fd = none then
        some ⟨engine.openFd fd .stream, guard, some (.lockInsert (.connect addr fd)), none⟩
      else none
  | .accepting listenerFd listener, .accept reply =>
    match reply with
    | .error e => some ⟨(engine.closeFd listener).closeFd listenerFd, guard, none,
        some (.accept (.error ("Failed to accept connection: " ++ e)))⟩
    | .ok (fd, addr) =>
      if engine.sockets fd = none then
        some ⟨engine.openFd fd .stream, guard,
          some (.lockInsert (.accept listenerFd listener fd addr)), none⟩
      else none
  | .transferring .read addr _, .read reply =>
    match reply with
    | .error e => some ⟨engine, none, none,
        some (.read (.error ("Failed to read from socket: " ++ e)))⟩
    | .ok bytes => some ⟨engine.notify .networkReceive addr, none, none,
        some (.read (.ok (readInto bufferSize bytes)))⟩
  | .transferring (.write _) addr _, .write reply =>
    match reply with
    | .error e => some ⟨engine, none, none,
        some (.write (.error ("Failed to write to socket: " ++ e)))⟩
    | .ok n => some ⟨engine.notify .networkSend addr, none, none, some (.write (.ok n))⟩
  | _, _ => none

variable [DecidableEq Addr] [DecidableEq T]

/-- The next step of a call, which is at no `.await`. -/
def stepCall (t : T) (engine : Engine Addr) (guard : Option T)
    (order : List (Sigma fun _ : Addr => RawFd)) : Pc Addr → Option (After T Addr)
  | .lockInsert insertion =>
    if guard = none then some ⟨engine, some t, some (.inserting insertion), none⟩ else none
  | .inserting (.connect addr fd) =>
    some ⟨(engine.insert addr fd).notify .networkSend addr, none, none, some (.connect (.ok fd))⟩
  | .inserting (.accept listenerFd listener fd addr) =>
    some ⟨(((engine.insert addr fd).notify .networkReceive addr).closeFd listener).closeFd
      listenerFd, none, none, some (.accept (.ok (fd, addr)))⟩
  | .lockSearch search =>
    if guard = none then some ⟨engine, some t, some (.searching search), none⟩ else none
  | .searching search =>
    if order.Perm engine.connections.entries then
      match findAddr order search.fd with
      | none => some ⟨engine, none, none, some search.notFound⟩
      | some addr => some ⟨engine, none, some (.lockStream search addr), none⟩
    else none
  | .lockStream search addr =>
    if guard = none then some ⟨engine, some t, some (.looking search addr), none⟩ else none
  | .looking (.transfer _ transfer) addr =>
    match engine.connections.lookup addr with
    | none => some ⟨engine, none, none, some transfer.removed⟩
    | some stream => some ⟨engine, guard, some (.transferring transfer addr stream), none⟩
  | .looking (.close _) addr =>
    some ⟨(engine.remove addr).notify .networkClose addr, none, none, some (.close (.ok ()))⟩
  | _ => none

/-- The system after a step of a task. -/
def System.after (s : System T Addr) (t : T) (a : After T Addr) : System T Addr :=
  { s with
    engine := a.engine
    guard := a.guard
    pc := Function.update s.pc t a.pc
    returned := s.returned ++ a.returned.toList.map fun returned => (t, returned) }

/-- One action. -/
def System.step (bufferSize : ℕ) (s : System T Addr) : Action T Addr → Option (System T Addr)
  | .resume t =>
    match s.running with
    | none => some { s with running := some t }
    | some _ => none
  | .leave => do
    let t ← s.running
    match s.pc t with
    | none => some { s with running := none }
    | some _ => none
  | .suspend => do
    let t ← s.running
    match s.pc t with
    | some (.connecting _) | some (.accepting _ _) | some (.transferring _ _ _) =>
      some { s with running := none }
    | _ => none
  | .call call => do
    let t ← s.running
    match s.pc t with
    | none => (startCall s.engine s.guard call).map (s.after t)
    | some _ => none
  | .complete completion => do
    let t ← s.running
    let pc ← s.pc t
    (completeCall bufferSize s.engine s.guard pc completion).map (s.after t)
  | .step order => do
    let t ← s.running
    let pc ← s.pc t
    (stepCall t s.engine s.guard order pc).map (s.after t)

/-- No task has called a new engine. -/
def System.start (sockets : Sockets) : System T Addr :=
  ⟨⟨sockets, ∅, []⟩, none, fun _ => none, none, []⟩

end

end Elgate.Net
