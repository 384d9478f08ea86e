import Mathlib.Data.List.AList
import Elgate.Foundation.Bytes
import Elgate.Net.Sockets
import Elgate.Ring.Slot

/-!
# The io_uring network engine

`src/net/io_uring.rs`: the calls of a `NetworkEngine`, each of which runs to its end before the next
one starts. Each takes the results of its system calls as arguments. The table of connections is
keyed by the remote address, and a search of it by descriptor runs through its entries in the order
that the hash map iterates, which is an argument as well: any permutation of the entries.
-/

namespace Elgate.Net

open Bytes
open Elgate.Ring (OperationKind)

/-- The table of connections: the descriptor of the stream to an address. -/
abbrev Connections (Addr : Type) := AList fun _ : Addr => RawFd

/-- An engine, with the descriptors of its process. -/
structure Engine (Addr : Type) where
  /-- The open descriptors. -/
  sockets : Sockets
  /-- Connection cache to maintain open handles. -/
  connections : Connections Addr
  /-- The operations of the calls of `RingBuffer::write`, oldest first. -/
  notified : List (OperationKind × String)

/-- The address that a search of the table for a descriptor finds. -/
def findAddr {Addr : Type} (order : List (Sigma fun _ : Addr => RawFd)) (fd : RawFd) :
    Option Addr :=
  (order.find? fun entry => entry.2 = fd).map Sigma.fst

/-- The results of the system calls of `accept`. -/
structure AcceptReplies (Addr : Type) where
  /-- That of `local_addr`. -/
  localAddr : Except IoError Addr
  /-- That of `bind`: the descriptor of the temporary listener. -/
  bound : Except IoError RawFd
  /-- That of `accept`: the descriptor of the stream, and the remote address. -/
  accepted : Except IoError (RawFd × Addr)

namespace Engine

variable {Addr : Type} [DecidableEq Addr] [ToString Addr]

/-- A call of `RingBuffer::write`, whose result is dropped. -/
def notify (engine : Engine Addr) (kind : OperationKind) (addr : Addr) : Engine Addr :=
  { engine with notified := engine.notified ++ [(kind, toString addr)] }

/-- A stream is opened. -/
def openFd (engine : Engine Addr) (fd : RawFd) (kind : SocketKind) : Engine Addr :=
  { engine with sockets := engine.sockets.openFd fd kind }

/-- The owner of a descriptor is dropped. -/
def closeFd (engine : Engine Addr) (fd : RawFd) : Engine Addr :=
  { engine with sockets := engine.sockets.closeFd fd }

/-- `conns.insert(addr, stream)`, which drops the stream that it replaces. -/
def insert (engine : Engine Addr) (addr : Addr) (fd : RawFd) : Engine Addr :=
  { engine with
    connections := engine.connections.insert addr fd
    sockets := engine.sockets.closeReturned (engine.connections.lookup addr) }

/-- `conns.remove(&addr)`, which drops the stream. -/
def remove (engine : Engine Addr) (addr : Addr) : Engine Addr :=
  { engine with
    connections := engine.connections.erase addr
    sockets := engine.sockets.closeReturned (engine.connections.lookup addr) }

/-- `NetworkEngine::connect`. -/
def connect (engine : Engine Addr) (addr : Addr) (reply : Except IoError RawFd) :
    Except String RawFd × Engine Addr :=
  match reply with
  | .error e => (.error ("Failed to connect to " ++ toString addr ++ ": " ++ e), engine)
  | .ok fd => (.ok fd, ((engine.openFd fd .stream).insert addr fd).notify .networkSend addr)

/-- `NetworkEngine::accept`. The owner of `listener_fd` that it makes is dropped when it returns. -/
def accept (engine : Engine Addr) (listenerFd : RawFd) (replies : AcceptReplies Addr) :
    Except String (RawFd × Addr) × Engine Addr :=
  match replies.localAddr with
  | .error e => (.error e, engine.closeFd listenerFd)
  | .ok _ =>
    match replies.bound with
    | .error e => (.error e, engine.closeFd listenerFd)
    | .ok listener =>
      let engine := engine.openFd listener .listener
      match replies.accepted with
      | .error e => (.error ("Failed to accept connection: " ++ e),
          (engine.closeFd listener).closeFd listenerFd)
      | .ok (fd, addr) =>
        let engine := ((engine.openFd fd .stream).insert addr fd).notify .networkReceive addr
        (.ok (fd, addr), (engine.closeFd listener).closeFd listenerFd)

/-- What `read` and `write` share: they look for the address of the descriptor, then for the stream
to that address, and make a system call on it. -/
def onStream {α : Type} (engine : Engine Addr) (order : List (Sigma fun _ : Addr => RawFd))
    (fd : RawFd) (removed failed : String) (kind : OperationKind)
    (reply : RawFd → Except IoError α) : Except String α × Engine Addr :=
  match findAddr order fd with
  | none => (.error ("No connection found for fd " ++ toString fd), engine)
  | some addr =>
    match engine.connections.lookup addr with
    | none => (.error removed, engine)
    | some stream =>
      match reply stream with
      | .error e => (.error (failed ++ e), engine)
      | .ok result => (.ok result, engine.notify kind addr)

/-- `NetworkEngine::read`. A read that completes has stored these bytes in the buffer. -/
def read (bufferSize : ℕ) (engine : Engine Addr) (order : List (Sigma fun _ : Addr => RawFd))
    (fd : RawFd) (reply : RawFd → Except IoError (List UInt8)) :
    Except String (List UInt8) × Engine Addr :=
  engine.onStream order fd "Connection removed while reading" "Failed to read from socket: "
    .networkReceive fun stream => (reply stream).map (readInto bufferSize)

/-- `NetworkEngine::write`. -/
def write (engine : Engine Addr) (order : List (Sigma fun _ : Addr => RawFd)) (fd : RawFd)
    (data : List UInt8) (reply : RawFd → List UInt8 → Except IoError ℕ) :
    Except String ℕ × Engine Addr :=
  engine.onStream order fd "Connection removed while writing" "Failed to write to socket: "
    .networkSend fun stream => reply stream data

/-- `NetworkEngine::close`. -/
def close (engine : Engine Addr) (order : List (Sigma fun _ : Addr => RawFd)) (fd : RawFd) :
    Except String Unit × Engine Addr :=
  match findAddr order fd with
  | none => (.ok (), engine)
  | some addr => (.ok (), (engine.remove addr).notify .networkClose addr)

end Engine

end Elgate.Net
