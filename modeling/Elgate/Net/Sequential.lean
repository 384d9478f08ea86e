import Elgate.Net.Tasks

/-!
# Calls of one task alone

`Connections.lean` takes a call to its end before the next one starts, and `Tasks.lean` takes it
from one `lock()` or `.await` to the next. A task that is between calls and has the thread, while
nobody has the guard, can take each call to its end without leaving the thread, and the engine and
what the call returns are then those of the call in one step (`System.call_run`). So every run of
calls that do not overlap is one of the tasks (`System.simulates`).
-/

namespace Elgate.Net

open Transition
open Elgate.Ring (OperationKind)

variable {T Addr : Type}

/-- The call that a task makes. -/
def Call.entry : Call Addr → Option (EngineCall Addr)
  | connect addr _ => some (.connect addr)
  | accept listenerFd replies => some (.accept listenerFd replies.localAddr replies.bound)
  | read _ fd _ => some (.read fd)
  | write _ fd data _ => some (.write fd data)
  | close _ fd => some (.close fd)
  | openFd _ _ => none
  | closeFd _ => none

namespace System

variable [DecidableEq T] {s : System T Addr} {t : T} {a : After T Addr}

/-- Of two steps of a task in a call the second decides where it is. -/
theorem after_after (b : After T Addr) (h : a.returned = none) :
    (s.after t a).after t b = s.after t b := by
  unfold after
  rw [h, Function.update_idem, Option.toList_none, List.map_nil, List.append_nil]

/-- Where a task is after a step of its own. -/
theorem after_pc : (s.after t a).pc t = a.pc := Function.update_self _ _ _

end System

section
variable [ToString Addr] [DecidableEq Addr]

/-- What the call returns. -/
def Call.result (bufferSize : ℕ) (engine : Engine Addr) : Call Addr → Option (Returned Addr)
  | connect addr reply => some (.connect (engine.connect addr reply).1)
  | accept listenerFd replies => some (.accept (engine.accept listenerFd replies).1)
  | read order fd reply => some (.read (engine.read bufferSize order fd reply).1)
  | write order fd data reply => some (.write (engine.write order fd data reply).1)
  | close order fd => some (.close (engine.close order fd).1)
  | openFd _ _ => none
  | closeFd _ => none

/-- A `lock()` takes the guard when nobody has it. -/
theorem stepCall_lockInsert {t : T} {engine : Engine Addr}
    (order : List (Sigma fun _ : Addr => RawFd)) (insertion : Insertion Addr) :
    stepCall t engine none order (.lockInsert insertion) =
      some ⟨engine, some t, some (.inserting insertion), none⟩ := by
  simp only [stepCall, if_true]

variable [DecidableEq T]

namespace System

variable {s : System T Addr} {t : T} {bufferSize : ℕ} {engine : Engine Addr} {guard : Option T}
  {pc : Pc Addr} {a : After T Addr}

/-- The task with the thread calls the engine. -/
theorem reaches_call (bufferSize : ℕ) (call : EngineCall Addr) (hrunning : s.running = some t)
    (hidle : s.pc t = none) (h : startCall s.engine s.guard call = some a) :
    Reaches (System.step bufferSize) Always s (s.after t a) := by
  refine (Reaches.refl s).next (a := .call call) trivial ?_
  simp only [System.step, hrunning, hidle, h, Option.bind_eq_bind, Option.bind_some,
    Option.map_some]

/-- It takes the next step of its call. -/
theorem reaches_step (hrunning : s.running = some t) (order : List (Sigma fun _ : Addr => RawFd))
    (h : Reaches (System.step bufferSize) Always s (s.after t ⟨engine, guard, some pc, none⟩))
    (hstep : stepCall t engine guard order pc = some a) :
    Reaches (System.step bufferSize) Always s (s.after t a) := by
  refine h.next (a := .step order) trivial ?_
  have hrunning' : (s.after t ⟨engine, guard, some pc, none⟩).running = some t := hrunning
  have hstep' : stepCall t (s.after t ⟨engine, guard, some pc, none⟩).engine
      (s.after t ⟨engine, guard, some pc, none⟩).guard order pc = some a := hstep
  simp only [System.step, hrunning', after_pc, hstep', Option.bind_eq_bind, Option.bind_some,
    Option.map_some]
  rw [after_after a rfl]

/-- It goes on from an `.await`, which completes before it would leave the thread. -/
theorem reaches_complete (hrunning : s.running = some t) (completion : Completion Addr)
    (h : Reaches (System.step bufferSize) Always s (s.after t ⟨engine, guard, some pc, none⟩))
    (hstep : completeCall bufferSize engine guard pc completion = some a) :
    Reaches (System.step bufferSize) Always s (s.after t a) := by
  refine h.next (a := .complete completion) trivial ?_
  have hrunning' : (s.after t ⟨engine, guard, some pc, none⟩).running = some t := hrunning
  have hstep' : completeCall bufferSize (s.after t ⟨engine, guard, some pc, none⟩).engine
      (s.after t ⟨engine, guard, some pc, none⟩).guard pc completion = some a := hstep
  simp only [System.step, hrunning', after_pc, hstep', Option.bind_eq_bind, Option.bind_some,
    Option.map_some]
  rw [after_after a rfl]

/-- A search in any order, after which the task is at the stream, or the call has ended. -/
theorem reaches_search (hrunning : s.running = some t) (search : Search)
    {order : List (Sigma fun _ : Addr => RawFd)} (hperm : order.Perm engine.connections.entries)
    (h : Reaches (System.step bufferSize) Always s
      (s.after t ⟨engine, none, some (.lockSearch search), none⟩)) :
    Reaches (System.step bufferSize) Always s (s.after t (match findAddr order search.fd with
      | none => ⟨engine, none, none, some search.notFound⟩
      | some addr => ⟨engine, some t, some (.looking search addr), none⟩)) := by
  have hlock : stepCall t engine none order (.lockSearch search) =
      some ⟨engine, some t, some (.searching search), none⟩ := by
    simp only [stepCall, if_true]
  have hsearching := reaches_step hrunning order h hlock
  cases hfind : findAddr order search.fd with
  | none =>
    refine reaches_step hrunning order hsearching ?_
    simp only [stepCall, if_pos hperm, hfind]
  | some addr =>
    have hfound : stepCall t engine (some t) order (.searching search) =
        some ⟨engine, none, some (.lockStream search addr), none⟩ := by
      simp only [stepCall, if_pos hperm, hfind]
    have hstream : stepCall t engine none order (.lockStream search addr) =
        some ⟨engine, some t, some (.looking search addr), none⟩ := by
      simp only [stepCall, if_true]
    exact reaches_step hrunning order (reaches_step hrunning order hsearching hfound) hstream

/-- A connection that is made is inserted into the table. -/
theorem reaches_connect (hrunning : s.running = some t) (hidle : s.pc t = none)
    (hfree : s.guard = none) {addr : Addr} {reply : Except IoError RawFd}
    (hfresh : ∀ fd ∈ reply.toOption, s.engine.sockets fd = none) :
    Reaches (System.step bufferSize) Always s (s.after t ⟨(s.engine.connect addr reply).2, none,
      none, some (.connect (s.engine.connect addr reply).1)⟩) := by
  have hcall := reaches_call bufferSize (.connect addr) hrunning hidle rfl
  rw [hfree] at hcall
  cases reply with
  | error e => exact reaches_complete hrunning (.connect (.error e)) hcall rfl
  | ok fd =>
    have hnew := reaches_complete hrunning (.connect (.ok fd)) hcall (if_pos (hfresh fd rfl))
    have hlock := reaches_step hrunning [] hnew (stepCall_lockInsert [] _)
    exact reaches_step hrunning [] hlock rfl

/-- A connection that is accepted is inserted into the table. -/
theorem reaches_accept (hrunning : s.running = some t) (hidle : s.pc t = none)
    (hfree : s.guard = none) {listenerFd : RawFd} {replies : AcceptReplies Addr}
    (hpossible : replies.Possible s.engine.sockets listenerFd) :
    Reaches (System.step bufferSize) Always s (s.after t
      ⟨(s.engine.accept listenerFd replies).2, none, none,
        some (.accept (s.engine.accept listenerFd replies).1)⟩) := by
  obtain ⟨localAddr, bound, accepted⟩ := replies
  have hcall : ∀ {a}, startCall s.engine none (.accept listenerFd localAddr bound) = some a →
      Reaches (System.step bufferSize) Always s (s.after t a) := by
    intro a h
    rw [← hfree] at h
    exact reaches_call bufferSize _ hrunning hidle h
  cases localAddr with
  | error e => exact hcall rfl
  | ok addr =>
    cases bound with
    | error e => exact hcall rfl
    | ok listener =>
      obtain ⟨hlistener, hstream⟩ := hpossible.fresh listener rfl
      have hbound := hcall (if_pos hlistener)
      cases accepted with
      | error e => exact reaches_complete hrunning (.accept (.error e)) hbound rfl
      | ok stream =>
        have hnew := reaches_complete hrunning (.accept (.ok stream)) hbound
          (if_pos (hstream stream rfl))
        have hlock := reaches_step hrunning [] hnew (stepCall_lockInsert [] _)
        exact reaches_step hrunning [] hlock rfl

/-- What `read` and `write` share, from the first `lock()` on: the transfer completes with what the
system call on the stream does. -/
theorem reaches_onStream {α : Type} (hrunning : s.running = some t)
    {order : List (Sigma fun _ : Addr => RawFd)} (hperm : order.Perm engine.connections.entries)
    (fd : RawFd) {transfer : Transfer} {removed failed : String} {kind : OperationKind}
    {reply : RawFd → Except IoError α} (result : Except String α → Returned Addr)
    (hcall : Reaches (System.step bufferSize) Always s
      (s.after t ⟨engine, none, some (.lockSearch (.transfer fd transfer)), none⟩))
    (hnotFound : (Search.transfer fd transfer).notFound =
      result (.error ("No connection found for fd " ++ toString fd)))
    (hremoved : transfer.removed = result (.error removed))
    (hcomplete : ∀ addr stream, ∃ completion,
      completeCall bufferSize engine (some t) (.transferring transfer addr stream) completion =
        match reply stream with
        | .error e => some ⟨engine, none, none, some (result (.error (failed ++ e)))⟩
        | .ok value => some ⟨engine.notify kind addr, none, none, some (result (.ok value))⟩) :
    Reaches (System.step bufferSize) Always s
      (s.after t ⟨(engine.onStream order fd removed failed kind reply).2, none, none,
        some (result (engine.onStream order fd removed failed kind reply).1)⟩) := by
  have hsearch := reaches_search hrunning (.transfer fd transfer) hperm hcall
  unfold Engine.onStream
  cases hfind : findAddr order fd with
  | none =>
    simp only [Search.fd, hfind, hnotFound] at hsearch
    exact hsearch
  | some addr =>
    simp only [Search.fd, hfind] at hsearch
    cases hlookup : engine.connections.lookup addr with
    | none =>
      refine reaches_step hrunning order hsearch ?_
      simp only [stepCall, hlookup, hremoved]
    | some stream =>
      have hstream : stepCall t engine (some t) order (.looking (.transfer fd transfer) addr) =
          some ⟨engine, some t, some (.transferring transfer addr stream), none⟩ := by
        simp only [stepCall, hlookup]
      obtain ⟨completion, hend⟩ := hcomplete addr stream
      refine reaches_complete hrunning completion (reaches_step hrunning order hsearch hstream) ?_
      rw [hend]
      cases hreply : reply stream with
      | error e => simp only [hlookup, hreply]
      | ok value => simp only [hlookup, hreply]

/-- A read of the stream that the search finds. -/
theorem reaches_read (hrunning : s.running = some t) (hidle : s.pc t = none)
    (hfree : s.guard = none) {order : List (Sigma fun _ : Addr => RawFd)}
    (hperm : order.Perm s.engine.connections.entries) (fd : RawFd)
    (reply : RawFd → Except IoError (List UInt8)) :
    Reaches (System.step bufferSize) Always s
      (s.after t ⟨(s.engine.read bufferSize order fd reply).2, none, none,
        some (.read (s.engine.read bufferSize order fd reply).1)⟩) := by
  have hcall := reaches_call bufferSize (.read fd) hrunning hidle rfl
  rw [hfree] at hcall
  refine reaches_onStream hrunning hperm fd .read hcall rfl rfl fun addr stream => ?_
  refine ⟨.read (reply stream), ?_⟩
  cases hreply : reply stream with
  | error e => rfl
  | ok bytes => rfl

/-- A write to the stream that the search finds. -/
theorem reaches_write (hrunning : s.running = some t) (hidle : s.pc t = none)
    (hfree : s.guard = none) {order : List (Sigma fun _ : Addr => RawFd)}
    (hperm : order.Perm s.engine.connections.entries) (fd : RawFd) (data : List UInt8)
    (reply : RawFd → List UInt8 → Except IoError ℕ) :
    Reaches (System.step bufferSize) Always s
      (s.after t ⟨(s.engine.write order fd data reply).2, none, none,
        some (.write (s.engine.write order fd data reply).1)⟩) := by
  have hcall := reaches_call bufferSize (.write fd data) hrunning hidle rfl
  rw [hfree] at hcall
  refine reaches_onStream hrunning hperm fd .write hcall rfl rfl fun addr stream => ?_
  refine ⟨.write (reply stream data), ?_⟩
  cases hreply : reply stream data with
  | error e => rfl
  | ok n => rfl

/-- The stream that the search finds is removed. -/
theorem reaches_close (hrunning : s.running = some t) (hidle : s.pc t = none)
    (hfree : s.guard = none) {order : List (Sigma fun _ : Addr => RawFd)}
    (hperm : order.Perm s.engine.connections.entries) (fd : RawFd) :
    Reaches (System.step bufferSize) Always s (s.after t ⟨(s.engine.close order fd).2, none, none,
      some (.close (s.engine.close order fd).1)⟩) := by
  have hcall := reaches_call bufferSize (.close fd) hrunning hidle rfl
  rw [hfree] at hcall
  have hsearch := reaches_search hrunning (.close fd) hperm hcall
  unfold Engine.close
  cases hfind : findAddr order fd with
  | none =>
    simp only [Search.fd, hfind] at hsearch
    exact hsearch
  | some addr =>
    simp only [Search.fd, hfind] at hsearch
    exact reaches_step hrunning order hsearch rfl

/-- A task that has the thread, and nobody has the guard, can take each call to its end. The engine
and what the call returns are then those of the call in one step. -/
theorem call_run (hrunning : s.running = some t) (hidle : s.pc t = none) (hfree : s.guard = none)
    {call : Call Addr} (hpossible : call.Possible s.engine) (hentry : call.entry ≠ none) :
    Reaches (System.step bufferSize) Always s (s.after t
      ⟨call.run bufferSize s.engine, none, none, call.result bufferSize s.engine⟩) := by
  cases call with
  | connect addr reply => exact reaches_connect hrunning hidle hfree hpossible
  | accept listenerFd replies => exact reaches_accept hrunning hidle hfree hpossible
  | read order fd reply => exact reaches_read hrunning hidle hfree hpossible fd reply
  | write order fd data reply => exact reaches_write hrunning hidle hfree hpossible fd data reply
  | close order fd => exact reaches_close hrunning hidle hfree hpossible fd
  | openFd | closeFd => exact absurd rfl hentry

/-- A run of calls that do not overlap is one of a task that keeps the thread. -/
theorem simulates (t : T) {sockets : Sockets} {session : Session Addr}
    (h : Reaches (Session.step bufferSize) (fun _ call => call.entry ≠ none) (Session.start sockets)
      session) :
    ∃ returned, Reaches (System.step bufferSize) Always (System.start sockets)
      ⟨session.engine, none, fun _ => none, some t, returned⟩ := by
  refine h.invariant (I := fun session => ∃ returned, Reaches (System.step bufferSize) Always
    (System.start sockets) ⟨session.engine, none, fun _ => none, some t, returned⟩) ?_ ?_
  · exact ⟨[], (Reaches.refl _).next (a := .resume t) trivial rfl⟩
  · rintro session call session' ⟨returned, hreach⟩ hentry hstep
    unfold Session.step at hstep
    split at hstep
    · rename_i hpossible
      obtain rfl := Option.some.inj hstep
      have hcall := hreach.trans (call_run rfl rfl rfl hpossible hentry)
      unfold System.after at hcall
      rw [Function.update_eq_self_iff.mpr rfl] at hcall
      exact ⟨_, hcall⟩
    · cases hstep

end System

end

end Elgate.Net
