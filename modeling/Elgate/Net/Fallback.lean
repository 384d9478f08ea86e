import Elgate.Foundation.Bytes
import Elgate.Net.Sockets

/-!
# The fallback network engine

The worker loop of `src/net/fallback.rs`, which processes one operation after the other. Each arm
makes an owner of the descriptor that it is given, by `from_raw_fd`, and makes its system call. An
owner that is dropped closes the descriptor, and one that is passed to `mem::forget` leaves it open:
the arms forget the owner only after a system call that has succeeded, and `Accept` never forgets
its listener.
-/

namespace Elgate.Net.Fallback

open Bytes Sockets

/-- Type of network operation. -/
inductive NetworkOperationType
  | accept
  | connect
  | read
  | write
  | close
  deriving DecidableEq, Repr

/-- A network I/O operation. -/
structure NetworkOperation (Addr : Type) where
  /-- Type of operation. -/
  opType : NetworkOperationType
  /-- Socket address. -/
  addr : Option Addr
  /-- Socket file descriptor. -/
  fd : Option RawFd
  /-- Data buffer (for write operations). -/
  data : Option (List UInt8)

/-- Result of a network operation. -/
inductive NetworkResult (Addr : Type)
  | accept (fd : RawFd) (addr : Addr)
  | connect (fd : RawFd)
  | read (data : List UInt8)
  | write (n : ℕ)
  | close

/-- The results of the system calls, of which an operation makes the one of its type. -/
structure Replies (Addr : Type) where
  /-- That of `accept`: the descriptor of the stream, and the remote address. -/
  accept : Except IoError (RawFd × Addr)
  /-- That of `connect`: the descriptor of the stream. -/
  connect : Except IoError RawFd
  /-- That of `read`: the bytes that it has stored in the buffer. -/
  read : Except IoError (List UInt8)
  /-- That of `write`: the number of bytes written. -/
  write : Except IoError ℕ

section
variable {Addr : Type}

/-- The `Accept` arm. The listener is dropped at its end. -/
def processAccept (sockets : Sockets) (op : NetworkOperation Addr) (replies : Replies Addr) :
    Except String (NetworkResult Addr) × Sockets :=
  match op.fd with
  | some fd =>
    match replies.accept with
    | .ok (stream, addr) =>
      (.ok (.accept stream addr), (sockets.openFd stream .stream).closeFd fd)
    | .error e => (.error ("Failed to accept: " ++ e), sockets.closeFd fd)
  | none => (.error "No file descriptor provided for accept operation", sockets)

/-- The `Connect` arm. -/
def processConnect (sockets : Sockets) (op : NetworkOperation Addr) (replies : Replies Addr) :
    Except String (NetworkResult Addr) × Sockets :=
  match op.addr with
  | some _ =>
    match replies.connect with
    | .ok fd => (.ok (.connect fd), sockets.openFd fd .stream)
    | .error e => (.error ("Failed to connect: " ++ e), sockets)
  | none => (.error "No address provided for connect operation", sockets)

/-- The `Read` arm. The stream is forgotten when the read succeeds, and dropped when it fails. -/
def processRead (bufferSize : ℕ) (sockets : Sockets) (op : NetworkOperation Addr)
    (replies : Replies Addr) : Except String (NetworkResult Addr) × Sockets :=
  match op.fd with
  | some fd =>
    match replies.read with
    | .ok bytes => (.ok (.read (readInto bufferSize bytes)), sockets)
    | .error e => (.error ("Failed to read: " ++ e), sockets.closeFd fd)
  | none => (.error "No file descriptor provided for read operation", sockets)

/-- The `Write` arm. The stream is forgotten when the write succeeds, and dropped when it fails. -/
def processWrite (sockets : Sockets) (op : NetworkOperation Addr) (replies : Replies Addr) :
    Except String (NetworkResult Addr) × Sockets :=
  match op.fd with
  | some fd =>
    match op.data with
    | some _ =>
      match replies.write with
      | .ok n => (.ok (.write n), sockets)
      | .error e => (.error ("Failed to write: " ++ e), sockets.closeFd fd)
    | none => (.error "No data provided for write operation", sockets)
  | none => (.error "No file descriptor provided for write operation", sockets)

/-- The `Close` arm. -/
def processClose (sockets : Sockets) (op : NetworkOperation Addr) :
    Except String (NetworkResult Addr) × Sockets :=
  match op.fd with
  | some fd => (.ok .close, sockets.closeFd fd)
  | none => (.error "No file descriptor provided for close operation", sockets)

/-- One turn of the worker loop: the result for the callback, and the descriptors that are open
then. -/
def process (bufferSize : ℕ) (sockets : Sockets) (op : NetworkOperation Addr)
    (replies : Replies Addr) : Except String (NetworkResult Addr) × Sockets :=
  match op.opType with
  | .accept => processAccept sockets op replies
  | .connect => processConnect sockets op replies
  | .read => processRead bufferSize sockets op replies
  | .write => processWrite sockets op replies
  | .close => processClose sockets op

/-! ## Runs -/

/-- One turn of the worker loop, or a change that the rest of the process makes to its descriptors.
-/
inductive Turn (Addr : Type)
  /-- The worker processes an operation. -/
  | operation (op : NetworkOperation Addr) (replies : Replies Addr)
  /-- The rest of the process opens a descriptor. -/
  | openFd (fd : RawFd) (kind : SocketKind)
  /-- The rest of the process closes a descriptor. -/
  | closeFd (fd : RawFd)

/-- The kernel hands out descriptors that are not open. -/
def Turn.Possible (sockets : Sockets) : Turn Addr → Prop
  | operation op replies => match op.opType with
    | .accept => ∀ stream ∈ replies.accept.toOption, sockets stream.1 = none
    | .connect => ∀ fd ∈ replies.connect.toOption, sockets fd = none
    | _ => True
  | openFd fd _ => sockets fd = none
  | closeFd _ => True

instance (sockets : Sockets) (turn : Turn Addr) : Decidable (turn.Possible sockets) := by
  unfold Turn.Possible
  split
  · split <;> infer_instance
  · infer_instance
  · infer_instance

/-- One step of a run. -/
def step (bufferSize : ℕ) (sockets : Sockets) (turn : Turn Addr) : Option Sockets :=
  if turn.Possible sockets then
    match turn with
    | .operation op replies => some (process bufferSize sockets op replies).2
    | .openFd fd kind => some (sockets.openFd fd kind)
    | .closeFd fd => some (sockets.closeFd fd)
  else none

/-! ## What an operation closes -/

/-- An operation closes no descriptor, but a `Close` the one that it is given. -/
def Turn.OnlyCloseCloses (sockets sockets' : Sockets) : Turn Addr → Prop
  | operation op _ => ∀ fd, sockets.IsOpen fd → ¬ sockets'.IsOpen fd →
    op.opType = .close ∧ op.fd = some fd
  | _ => True

/-- The arm of the operation drops no owner, with these results of its system call, but that of
`Close`. -/
def NetworkOperation.Forgets (op : NetworkOperation Addr) (replies : Replies Addr) : Prop :=
  match op.opType with
  | .accept => False
  | .read => replies.read.toOption ≠ none
  | .write => op.data ≠ none → replies.write.toOption ≠ none
  | _ => True

instance (op : NetworkOperation Addr) (replies : Replies Addr) :
    Decidable (op.Forgets replies) := by
  unfold NetworkOperation.Forgets
  split <;> infer_instance

/-- The operation does so when it is given a descriptor that is open. -/
def Turn.Forgets (sockets : Sockets) : Turn Addr → Prop
  | operation op replies => ∀ fd ∈ op.fd, sockets.IsOpen fd → op.Forgets replies
  | _ => True

instance (sockets : Sockets) (turn : Turn Addr) : Decidable (turn.Forgets sockets) := by
  unfold Turn.Forgets
  split <;> infer_instance

end

section
variable {sockets sockets' : Sockets}

/-- An operation that closes only what a `Close` is given exactly when it forgets the owner that it
has made. -/
theorem onlyCloseCloses_iff {Addr : Type} {bufferSize : ℕ} {turn : Turn Addr}
    (h : step bufferSize sockets turn = some sockets') :
    turn.OnlyCloseCloses sockets sockets' ↔ turn.Forgets sockets := by
  have hsame : ∀ x, sockets.IsOpen x → sockets.IsOpen x := fun _ hopen => hopen
  unfold step at h
  split at h
  · cases turn with
    | openFd fd kind => exact Iff.rfl
    | closeFd fd => exact Iff.rfl
    | operation op replies =>
      obtain rfl := Option.some.inj h
      obtain ⟨opType, addr, fd, data⟩ := op
      obtain ⟨accepted, connected, read, written⟩ := replies
      unfold Turn.OnlyCloseCloses Turn.Forgets NetworkOperation.Forgets process
      cases opType with
      | accept =>
        cases fd with
        | none => exact iff_of_keeps hsame (by rintro fd ⟨⟩)
        | some fd =>
          -- The listener is dropped whether or not a connection is accepted.
          have hdrop : ∀ sockets'' : Sockets, (∀ x, sockets.IsOpen x → sockets''.IsOpen x) →
              ((∀ x, sockets.IsOpen x → ¬ (sockets''.closeFd fd).IsOpen x →
                NetworkOperationType.accept = .close ∧ some fd = some x) ↔
              ∀ x ∈ some fd, sockets.IsOpen x → False) := by
            intro sockets'' hkeep
            refine (closes_closeFd_iff hkeep).trans ?_
            simp
          cases accepted with
          | ok stream => exact hdrop _ (keeps_openFd .stream)
          | error e => exact hdrop _ hsame
      | connect =>
        refine iff_of_keeps ?_ (fun fd hfd hopen => trivial)
        cases addr with
        | none => exact hsame
        | some addr =>
          cases connected with
          | ok stream => exact keeps_openFd .stream
          | error e => exact hsame
      | read =>
        cases fd with
        | none => exact iff_of_keeps hsame (by rintro fd ⟨⟩)
        | some fd =>
          cases read with
          | ok bytes => exact iff_of_keeps hsame fun x hx hopen => Option.some_ne_none bytes
          | error e =>
            refine (closes_closeFd_iff hsame).trans ?_
            simp [Except.toOption]
      | write =>
        cases fd with
        | none => exact iff_of_keeps hsame (by rintro fd ⟨⟩)
        | some fd =>
          cases data with
          | none => exact iff_of_keeps hsame fun x hx hopen hdata => absurd rfl hdata
          | some data =>
            cases written with
            | ok n => exact iff_of_keeps hsame fun x hx hopen hdata => Option.some_ne_none n
            | error e =>
              refine (closes_closeFd_iff hsame).trans ?_
              simp [Except.toOption]
      | close =>
        cases fd with
        | none => exact iff_of_keeps hsame (by rintro fd ⟨⟩)
        | some fd =>
          refine (closes_closeFd_iff hsame).trans ?_
          simp
  · cases h

end

end Elgate.Net.Fallback
