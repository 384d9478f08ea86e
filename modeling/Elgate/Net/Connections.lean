import Mathlib.Data.Finset.Basic
import Elgate.Foundation.Transition
import Elgate.Net.IoUring

/-!
# Runs of the io_uring network engine

Any sequence of calls of an engine, with any results of their system calls. Between the calls the
rest of the process opens and closes descriptors of its own. In a run whose calls of `accept` are
given listening sockets, the table has each descriptor once (`connections_unambiguous`). A
descriptor that the engine has returned stays usable until it is closed, unless a connection to an
address for which the table has a stream replaces that stream, or `accept` is given a descriptor of
the table (`connections_usable`).
-/

namespace Elgate.Net

open Transition

/-! ## The table -/

section
variable {Addr : Type} [DecidableEq Addr] {connections : Connections Addr}
  {order : List (Sigma fun _ : Addr => RawFd)} {addr a : Addr} {fd x : RawFd}

/-- An address that a search finds is one of the descriptor. -/
theorem lookup_of_findAddr (hperm : order.Perm connections.entries)
    (h : findAddr order fd = some addr) : connections.lookup addr = some fd := by
  unfold findAddr at h
  obtain ⟨entry, hentry, rfl⟩ := Option.map_eq_some_iff.mp h
  have hmem := hperm.subset (List.mem_of_find?_eq_some hentry)
  have hfd : entry.2 = fd := by simpa using List.find?_some hentry
  rw [← hfd]
  exact AList.mem_lookup_iff.mpr hmem

/-- A search finds an address when the table has the descriptor. -/
theorem exists_findAddr (hperm : order.Perm connections.entries)
    (h : connections.lookup addr = some fd) : ∃ a, findAddr order fd = some a := by
  have hmem : (⟨addr, fd⟩ : Sigma fun _ : Addr => RawFd) ∈ order :=
    hperm.symm.subset (AList.mem_lookup_iff.mp h)
  have hsome : (order.find? fun entry => entry.2 = fd).isSome = true :=
    List.find?_isSome.mpr ⟨_, hmem, decide_eq_true rfl⟩
  obtain ⟨entry, hentry⟩ := Option.isSome_iff_exists.mp hsome
  exact ⟨entry.1, by rw [findAddr, hentry]; rfl⟩

/-- The streams after an insertion. -/
theorem lookup_insert_iff :
    (connections.insert addr fd).lookup a = some x ↔
      a = addr ∧ x = fd ∨ a ≠ addr ∧ connections.lookup a = some x := by
  by_cases h : a = addr
  · subst h
    rw [AList.lookup_insert]
    simp [eq_comm]
  · rw [AList.lookup_insert_ne h]
    simp [h]

/-- The descriptors of the table after a stream is inserted at an address that it does not have. -/
theorem exists_lookup_insert (hnew : addr ∉ connections) :
    (∃ a, (connections.insert addr fd).lookup a = some x) ↔
      x = fd ∨ ∃ a, connections.lookup a = some x := by
  constructor
  · rintro ⟨a, ha⟩
    rcases lookup_insert_iff.mp ha with ⟨-, rfl⟩ | ⟨-, hold⟩
    · exact Or.inl rfl
    · exact Or.inr ⟨a, hold⟩
  · rintro (rfl | ⟨a, ha⟩)
    · exact ⟨addr, AList.lookup_insert _⟩
    · refine ⟨a, lookup_insert_iff.mpr (Or.inr ⟨?_, ha⟩)⟩
      rintro rfl
      rw [AList.lookup_eq_none.mpr hnew] at ha
      cases ha

/-- The streams after a removal. -/
theorem lookup_erase_iff :
    (connections.erase addr).lookup a = some x ↔ a ≠ addr ∧ connections.lookup a = some x := by
  by_cases h : a = addr
  · subst h
    rw [AList.lookup_erase]
    simp
  · rw [AList.lookup_erase_ne h]
    simp [h]

end

/-! ## Descriptors of the table -/

section
variable {Addr : Type} [DecidableEq Addr]

/-- The descriptors in the table are pairwise distinct, and open. -/
structure Engine.Sound (engine : Engine Addr) : Prop where
  /-- They are pairwise distinct. -/
  distinct : ∀ {a a' : Addr} {fd : RawFd}, engine.connections.lookup a = some fd →
    engine.connections.lookup a' = some fd → a = a'
  /-- They are those of open streams. -/
  opened : ∀ {a : Addr} {fd : RawFd}, engine.connections.lookup a = some fd →
    engine.sockets fd = some .stream

namespace Engine

variable {engine : Engine Addr} {addr : Addr} {fd x : RawFd} {kind : SocketKind}

/-- The table has the descriptor. -/
def Owns (engine : Engine Addr) (fd : RawFd) : Prop :=
  ∃ entry ∈ engine.connections.entries, entry.2 = fd

instance (engine : Engine Addr) (fd : RawFd) : Decidable (engine.Owns fd) :=
  inferInstanceAs (Decidable (∃ _ ∈ _, _))

/-- The descriptor is that of the stream to an address. -/
theorem owns_iff : engine.Owns fd ↔ ∃ a, engine.connections.lookup a = some fd := by
  constructor
  · rintro ⟨entry, hentry, rfl⟩
    exact ⟨entry.1, AList.mem_lookup_iff.mpr hentry⟩
  · rintro ⟨a, ha⟩
    exact ⟨⟨a, fd⟩, AList.mem_lookup_iff.mp ha, rfl⟩

/-- The descriptors after an insertion: that of the stream which is replaced is closed. -/
theorem insert_sockets : (engine.insert addr fd).sockets x =
    if engine.connections.lookup addr = some x then none else engine.sockets x :=
  Sockets.closeReturned_apply _

/-- Inserting a new stream closes the one that it replaces. -/
theorem insert_closes (h : engine.connections.lookup addr = some x) (fd : RawFd) :
    ((engine.openFd fd .stream).insert addr fd).sockets x = none := by
  have hlookup : (engine.openFd fd .stream).connections.lookup addr = some x := h
  rw [insert_sockets, if_pos hlookup]

/-- The descriptors after a removal: that of the stream is closed. -/
theorem remove_sockets : (engine.remove addr).sockets x =
    if engine.connections.lookup addr = some x then none else engine.sockets x :=
  Sockets.closeReturned_apply _

/-- A descriptor of the table is not one that is not open. -/
theorem Sound.ne_of_fresh (h : engine.Sound) (hfresh : engine.sockets fd = none)
    (hx : engine.connections.lookup addr = some x) : x ≠ fd := by
  rintro rfl
  rw [h.opened hx] at hfresh
  exact Option.some_ne_none _ hfresh

/-- A search finds the address of a descriptor of the table. -/
theorem Sound.findAddr_eq (h : engine.Sound)
    {order : List (Sigma fun _ : Addr => RawFd)} (hperm : order.Perm engine.connections.entries)
    (hlookup : engine.connections.lookup addr = some fd) : findAddr order fd = some addr := by
  obtain ⟨a, ha⟩ := exists_findAddr hperm hlookup
  rw [ha, h.distinct (lookup_of_findAddr hperm ha) hlookup]

/-- A search finds the same in any order. -/
theorem Sound.findAddr_perm (h : engine.Sound)
    {order order' : List (Sigma fun _ : Addr => RawFd)} (fd : RawFd)
    (hperm : order.Perm engine.connections.entries)
    (hperm' : order'.Perm engine.connections.entries) : findAddr order fd = findAddr order' fd := by
  cases hfind : findAddr order' fd with
  | some addr => exact h.findAddr_eq hperm (lookup_of_findAddr hperm' hfind)
  | none =>
    cases hfind' : findAddr order fd with
    | none => rfl
    | some addr =>
      have heq := h.findAddr_eq hperm' (lookup_of_findAddr hperm hfind')
      rw [hfind] at heq
      exact absurd heq.symm (Option.some_ne_none addr)

/-- Soundness depends on the descriptors and the table only. -/
theorem Sound.congr {engine' : Engine Addr} (h : engine.Sound)
    (hsockets : engine'.sockets = engine.sockets)
    (hconnections : engine'.connections = engine.connections) : engine'.Sound where
  distinct := by
    rw [hconnections]
    exact h.distinct
  opened := by
    rw [hconnections, hsockets]
    exact h.opened

/-- Opening a new descriptor keeps the table sound. -/
theorem Sound.openFd (h : engine.Sound) (hfresh : engine.sockets fd = none) :
    (engine.openFd fd kind).Sound where
  distinct := h.distinct
  opened := fun hx => (Sockets.openFd_of_ne (h.ne_of_fresh hfresh hx)).trans (h.opened hx)

/-- Closing a descriptor that the table does not have keeps it sound. -/
theorem Sound.closeFd (h : engine.Sound) (hout : ¬ engine.Owns fd) :
    (engine.closeFd fd).Sound where
  distinct := h.distinct
  opened := by
    intro a x hx
    have hne : x ≠ fd := by
      rintro rfl
      exact hout (owns_iff.mpr ⟨a, hx⟩)
    exact (Sockets.closeFd_of_ne hne).trans (h.opened hx)

/-- Inserting a new stream keeps the table sound. -/
theorem Sound.insert (h : engine.Sound) (hfresh : engine.sockets fd = none) :
    ((engine.openFd fd .stream).insert addr fd).Sound where
  distinct := by
    intro a a' x hx hx'
    rcases lookup_insert_iff.mp hx with ⟨rfl, rfl⟩ | ⟨hne, hold⟩
    · rcases lookup_insert_iff.mp hx' with ⟨rfl, -⟩ | ⟨-, hold'⟩
      · rfl
      · exact absurd rfl (h.ne_of_fresh hfresh hold')
    · rcases lookup_insert_iff.mp hx' with ⟨rfl, rfl⟩ | ⟨-, hold'⟩
      · exact absurd rfl (h.ne_of_fresh hfresh hold)
      · exact h.distinct hold hold'
  opened := by
    intro a x hx
    rw [insert_sockets]
    change (if engine.connections.lookup addr = some x then none else _) = _
    rcases lookup_insert_iff.mp hx with ⟨rfl, rfl⟩ | ⟨hne, hold⟩
    · -- The new descriptor is not that of the stream which is replaced.
      rw [if_neg fun hlookup => h.ne_of_fresh hfresh hlookup rfl]
      exact Sockets.openFd_self
    · rw [if_neg fun hlookup => hne (h.distinct hold hlookup)]
      exact (h.openFd hfresh).opened hold

/-- Removing a stream keeps the table sound. -/
theorem Sound.remove (h : engine.Sound) : (engine.remove addr).Sound where
  distinct := by
    intro a a' x hx hx'
    exact h.distinct (lookup_erase_iff.mp hx).2 (lookup_erase_iff.mp hx').2
  opened := by
    intro a x hx
    obtain ⟨hne, hold⟩ := lookup_erase_iff.mp hx
    rw [remove_sockets, if_neg fun hlookup => hne (h.distinct hold hlookup)]
    exact h.opened hold

end Engine

end

/-! ## Runs -/

/-- An engine, and what its callers hold. -/
structure Session (Addr : Type) where
  /-- The engine. -/
  engine : Engine Addr
  /-- The descriptors that `connect` and `accept` have returned, and that have not been passed to
  `close` since. -/
  handed : Finset RawFd

/-- One call, or a change that the rest of the process makes to its descriptors. -/
inductive Call (Addr : Type)
  /-- `connect`. -/
  | connect (addr : Addr) (reply : Except IoError RawFd)
  /-- `accept`. -/
  | accept (listenerFd : RawFd) (replies : AcceptReplies Addr)
  /-- `read`. -/
  | read (order : List (Sigma fun _ : Addr => RawFd)) (fd : RawFd)
    (reply : RawFd → Except IoError (List UInt8))
  /-- `write`. -/
  | write (order : List (Sigma fun _ : Addr => RawFd)) (fd : RawFd) (data : List UInt8)
    (reply : RawFd → List UInt8 → Except IoError ℕ)
  /-- `close`. -/
  | close (order : List (Sigma fun _ : Addr => RawFd)) (fd : RawFd)
  /-- The rest of the process opens a descriptor. -/
  | openFd (fd : RawFd) (kind : SocketKind)
  /-- The rest of the process closes a descriptor, not one of the engine's. -/
  | closeFd (fd : RawFd)

/-- What the kernel can answer to a call of `accept`: it knows no address of a descriptor that is
not open, and the descriptors that it hands out are not open. -/
structure AcceptReplies.Possible {Addr : Type} (replies : AcceptReplies Addr) (sockets : Sockets)
    (listenerFd : RawFd) : Prop where
  /-- The descriptor with an address is open. -/
  localAddr : replies.localAddr.toOption ≠ none → sockets.IsOpen listenerFd
  /-- The descriptors handed out are new. -/
  fresh : ∀ listener ∈ replies.bound.toOption, sockets listener = none ∧
    ∀ stream ∈ replies.accepted.toOption, sockets.openFd listener .listener stream.1 = none

instance {Addr : Type} (replies : AcceptReplies Addr) (sockets : Sockets) (listenerFd : RawFd) :
    Decidable (replies.Possible sockets listenerFd) :=
  decidable_of_iff
    ((replies.localAddr.toOption ≠ none → sockets.IsOpen listenerFd) ∧
      ∀ listener ∈ replies.bound.toOption, sockets listener = none ∧
        ∀ stream ∈ replies.accepted.toOption, sockets.openFd listener .listener stream.1 = none)
    ⟨fun h => ⟨h.1, h.2⟩, fun h => ⟨h.1, h.2⟩⟩

section
variable {Addr : Type} [DecidableEq Addr] [ToString Addr]

/-- What is possible: the kernel hands out descriptors that are not open, a search runs through the
entries of the table in some order, and nobody else closes a descriptor of the table. -/
def Call.Possible (engine : Engine Addr) : Call Addr → Prop
  | connect _ reply => ∀ fd ∈ reply.toOption, engine.sockets fd = none
  | accept listenerFd replies => replies.Possible engine.sockets listenerFd
  | read order _ _ => order.Perm engine.connections.entries
  | write order _ _ _ => order.Perm engine.connections.entries
  | close order _ => order.Perm engine.connections.entries
  | openFd fd _ => engine.sockets fd = none
  | closeFd fd => ¬ engine.Owns fd

instance (engine : Engine Addr) (call : Call Addr) : Decidable (call.Possible engine) := by
  unfold Call.Possible
  split <;> infer_instance

/-- The engine after a call. -/
def Call.run (bufferSize : ℕ) (engine : Engine Addr) : Call Addr → Engine Addr
  | connect addr reply => (engine.connect addr reply).2
  | accept listenerFd replies => (engine.accept listenerFd replies).2
  | read order fd reply => (engine.read bufferSize order fd reply).2
  | write order fd data reply => (engine.write order fd data reply).2
  | close order fd => (engine.close order fd).2
  | openFd fd kind => engine.openFd fd kind
  | closeFd fd => engine.closeFd fd

/-- What callers hold after a call. -/
def Call.hand (engine : Engine Addr) (handed : Finset RawFd) : Call Addr → Finset RawFd
  | connect addr reply => match (engine.connect addr reply).1 with
    | .ok fd => insert fd handed
    | .error _ => handed
  | accept listenerFd replies => match (engine.accept listenerFd replies).1 with
    | .ok (fd, _) => insert fd handed
    | .error _ => handed
  | close _ fd => handed.erase fd
  | _ => handed

/-- One step of a run. -/
def Session.step (bufferSize : ℕ) (s : Session Addr) (call : Call Addr) : Option (Session Addr) :=
  if call.Possible s.engine then
    some ⟨call.run bufferSize s.engine, call.hand s.engine s.handed⟩
  else none

/-- A new engine, in a process with these descriptors. -/
def Session.start (sockets : Sockets) : Session Addr := ⟨⟨sockets, ∅, []⟩, ∅⟩

end

/-- A new engine has an empty table. -/
theorem lookup_start {Addr : Type} [DecidableEq Addr] (sockets : Sockets) (a : Addr) (fd : RawFd) :
    (Session.start sockets : Session Addr).engine.connections.lookup a ≠ some fd := by
  rw [Session.start, AList.lookup_empty]
  exact (Option.some_ne_none fd).symm

/-- It is sound. -/
theorem sound_start {Addr : Type} [DecidableEq Addr] (sockets : Sockets) :
    (Session.start sockets : Session Addr).engine.Sound where
  distinct := fun h => absurd h (lookup_start sockets _ _)
  opened := fun h => absurd h (lookup_start sockets _ _)

/-! ## Calls on a sound table -/

/-- The connection that a call of `accept` accepts, when all of its system calls succeed. -/
def AcceptReplies.connection {Addr : Type} (replies : AcceptReplies Addr) :
    Option (RawFd × Addr) := do
  let _ ← replies.localAddr.toOption
  let _ ← replies.bound.toOption
  replies.accepted.toOption

/-- A connection is accepted on an open descriptor. -/
theorem AcceptReplies.Possible.isOpen_of_connection {Addr : Type} {replies : AcceptReplies Addr}
    {sockets : Sockets} {listenerFd : RawFd} {stream : RawFd × Addr}
    (hpossible : replies.Possible sockets listenerFd) (hconn : replies.connection = some stream) :
    sockets.IsOpen listenerFd := by
  refine hpossible.localAddr fun hnone => ?_
  rw [connection, hnone] at hconn
  cases hconn

section
variable {Addr : Type} [DecidableEq Addr] [ToString Addr]

variable {engine : Engine Addr} {order : List (Sigma fun _ : Addr => RawFd)} {addr : Addr}
  {fd listenerFd : RawFd}

/-- The system call of `read` and `write` is made on the descriptor that they are given. -/
theorem Engine.Sound.onStream_eq {α : Type} (h : engine.Sound)
    (hperm : order.Perm engine.connections.entries)
    (hlookup : engine.connections.lookup addr = some fd) (removed failed : String)
    (kind : Ring.OperationKind) (reply : RawFd → Except IoError α) :
    engine.onStream order fd removed failed kind reply = match reply fd with
      | .error e => (.error (failed ++ e), engine)
      | .ok result => (.ok result, engine.notify kind addr) := by
  have hfind := h.findAddr_eq hperm hlookup
  unfold Engine.onStream
  cases hreply : reply fd with
  | error e => simp only [hfind, hlookup, hreply]
  | ok result => simp only [hfind, hlookup, hreply]

/-- This changes neither the table nor a descriptor. -/
theorem Engine.onStream_same {α : Type} (engine : Engine Addr)
    (order : List (Sigma fun _ : Addr => RawFd)) (fd : RawFd) (removed failed : String)
    (kind : Ring.OperationKind) (reply : RawFd → Except IoError α) :
    (engine.onStream order fd removed failed kind reply).2.sockets = engine.sockets ∧
      (engine.onStream order fd removed failed kind reply).2.connections = engine.connections := by
  unfold Engine.onStream
  split
  · exact ⟨rfl, rfl⟩
  · split
    · exact ⟨rfl, rfl⟩
    · split
      · exact ⟨rfl, rfl⟩
      · exact ⟨rfl, rfl⟩

/-- What a call of `accept` does: it closes the descriptor that it is given, and it may insert a new
stream. -/
theorem Engine.accept_cases {replies : AcceptReplies Addr}
    (hpossible : replies.Possible engine.sockets listenerFd) :
    (∃ e, replies.connection = none ∧
        engine.accept listenerFd replies = (.error e, engine.closeFd listenerFd)) ∨
      ∃ fd addr, replies.connection = some (fd, addr) ∧ engine.sockets fd = none ∧
        fd ≠ listenerFd ∧ engine.accept listenerFd replies = (.ok (fd, addr),
          (((engine.openFd fd .stream).insert addr fd).notify .networkReceive addr).closeFd
            listenerFd) := by
  obtain ⟨localAddr, bound, accepted⟩ := replies
  obtain ⟨hopen, hfresh⟩ := hpossible
  unfold accept
  cases localAddr with
  | error e => exact Or.inl ⟨e, rfl, rfl⟩
  | ok localAddr =>
    have hlistenerFd : engine.sockets.IsOpen listenerFd := hopen (Option.some_ne_none localAddr)
    cases bound with
    | error e => exact Or.inl ⟨e, rfl, rfl⟩
    | ok listener =>
      obtain ⟨hlistener, hstream⟩ := hfresh listener rfl
      cases accepted with
      | error e =>
        refine Or.inl ⟨_, rfl, Prod.ext rfl ?_⟩
        unfold closeFd openFd
        dsimp only
        rw [Sockets.closeFd_openFd hlistener]
      | ok stream =>
        obtain ⟨fd, addr⟩ := stream
        have hstream : engine.sockets.openFd listener .listener fd = none := hstream (fd, addr) rfl
        have hlistener_ne : fd ≠ listener := by
          rintro rfl
          rw [Sockets.openFd_self] at hstream
          exact Option.some_ne_none _ hstream
        have hfd : engine.sockets fd = none := by
          rwa [Sockets.openFd_of_ne hlistener_ne] at hstream
        refine Or.inr ⟨fd, addr, rfl, hfd, (hlistenerFd.ne_of_fresh hfd).symm, Prod.ext rfl ?_⟩
        unfold closeFd notify insert openFd
        dsimp only
        -- The temporary listener is closed, and was not open before.
        rw [Sockets.closeReturned_closeFd, Sockets.closeFd_openFd_openFd hlistener_ne hlistener]

/-- `read` changes neither. -/
theorem Engine.read_same (bufferSize : ℕ) (engine : Engine Addr)
    (order : List (Sigma fun _ : Addr => RawFd)) (fd : RawFd)
    (reply : RawFd → Except IoError (List UInt8)) :
    (engine.read bufferSize order fd reply).2.sockets = engine.sockets ∧
      (engine.read bufferSize order fd reply).2.connections = engine.connections :=
  onStream_same engine order fd _ _ _ _

/-- Nor does `write`. -/
theorem Engine.write_same (engine : Engine Addr) (order : List (Sigma fun _ : Addr => RawFd))
    (fd : RawFd) (data : List UInt8) (reply : RawFd → List UInt8 → Except IoError ℕ) :
    (engine.write order fd data reply).2.sockets = engine.sockets ∧
      (engine.write order fd data reply).2.connections = engine.connections :=
  onStream_same engine order fd _ _ _ _

/-- A call of `connect` keeps the table sound. -/
theorem Engine.Sound.connect (h : engine.Sound) {reply : Except IoError RawFd}
    (hfresh : ∀ fd ∈ reply.toOption, engine.sockets fd = none) :
    (engine.connect addr reply).2.Sound := by
  cases reply with
  | error e => exact h
  | ok fd => exact (h.insert (hfresh fd rfl)).congr rfl rfl

/-- So does a call of `accept`, with a descriptor that the table does not have. -/
theorem Engine.Sound.accept (h : engine.Sound) {replies : AcceptReplies Addr}
    (hpossible : replies.Possible engine.sockets listenerFd) (hout : ¬ engine.Owns listenerFd) :
    (engine.accept listenerFd replies).2.Sound := by
  rcases Engine.accept_cases hpossible with ⟨e, -, heq⟩ | ⟨fd, addr, -, hfresh, hne, heq⟩
  · rw [heq]
    exact h.closeFd hout
  · rw [heq]
    have hinserted : ((((engine.openFd fd .stream).insert addr fd).notify .networkReceive
        addr)).Sound := (h.insert hfresh).congr rfl rfl
    refine hinserted.closeFd ?_
    rintro howns
    obtain ⟨a, ha⟩ := Engine.owns_iff.mp howns
    rcases lookup_insert_iff.mp ha with ⟨-, rfl⟩ | ⟨-, hold⟩
    · exact hne rfl
    · exact hout (Engine.owns_iff.mpr ⟨a, hold⟩)

/-- So does a call of `close`. -/
theorem Engine.Sound.close (h : engine.Sound) : (engine.close order fd).2.Sound := by
  unfold Engine.close
  split
  · exact h
  · exact h.remove.congr rfl rfl

/-- So does every call, but an `accept` with a descriptor of the table. -/
theorem Engine.Sound.run (h : engine.Sound) (bufferSize : ℕ) {call : Call Addr}
    (hpossible : call.Possible engine)
    (hout : ∀ fd replies, call = .accept fd replies → ¬ engine.Owns fd) :
    (call.run bufferSize engine).Sound := by
  cases call with
  | connect addr reply => exact h.connect hpossible
  | accept fd replies => exact h.accept hpossible (hout fd replies rfl)
  | read order fd reply =>
    obtain ⟨hsockets, hconnections⟩ := engine.read_same bufferSize order fd reply
    exact h.congr hsockets hconnections
  | write order fd data reply =>
    obtain ⟨hsockets, hconnections⟩ := engine.write_same order fd data reply
    exact h.congr hsockets hconnections
  | close order fd => exact h.close
  | openFd fd kind => exact h.openFd hpossible
  | closeFd fd => exact h.closeFd hpossible

/-! ## Lookup by descriptor -/

/-- The calls of `accept` are given listening sockets. -/
def Call.AcceptsListening (s : Session Addr) : Call Addr → Prop
  | accept fd _ => s.engine.sockets fd = some .listener
  | _ => True

instance (s : Session Addr) (call : Call Addr) : Decidable (call.AcceptsListening s) := by
  unfold Call.AcceptsListening
  split <;> infer_instance

/-- The table has each descriptor once, so that what a search finds depends on the descriptor only.
-/
structure Engine.Unambiguous (bufferSize : ℕ) (engine : Engine Addr) : Prop where
  /-- The descriptors of the table are pairwise distinct. -/
  distinct : ∀ a a' fd, engine.connections.lookup a = some fd →
    engine.connections.lookup a' = some fd → a = a'
  /-- They are open. -/
  opened : ∀ a fd, engine.connections.lookup a = some fd → engine.sockets.IsOpen fd
  /-- Calls do not depend on the order in which the table is searched. -/
  order : ∀ order order' fd, order.Perm engine.connections.entries →
    order'.Perm engine.connections.entries →
    (∀ reply, engine.read bufferSize order fd reply = engine.read bufferSize order' fd reply) ∧
      (∀ data reply, engine.write order fd data reply = engine.write order' fd data reply) ∧
        engine.close order fd = engine.close order' fd
  /-- The address that a search finds is still that of the stream when it is looked up. -/
  found : ∀ order fd addr, order.Perm engine.connections.entries →
    findAddr order fd = some addr → engine.connections.lookup addr = some fd
  /-- So `read` and `write` never return that it was removed in between. -/
  kept : ∀ order fd, order.Perm engine.connections.entries →
    (∀ reply, (engine.read bufferSize order fd reply).1 ≠
      .error "Connection removed while reading") ∧
      ∀ data reply, (engine.write order fd data reply).1 ≠
        .error "Connection removed while writing"
  /-- A call of `close` removes the descriptor, and nothing else. -/
  close : ∀ order fd, order.Perm engine.connections.entries → ∀ a x,
    (engine.close order fd).2.connections.lookup a = some x ↔
      engine.connections.lookup a = some x ∧ x ≠ fd

/-- A call on a stream never finds that the stream was removed since the search. -/
theorem Engine.onStream_ne_error {α : Type} (hperm : order.Perm engine.connections.entries)
    {removed failed : String} {kind : Ring.OperationKind} {reply : RawFd → Except IoError α}
    (hmissing : "No connection found for fd " ++ toString fd ≠ removed)
    (hfailed : ∀ e, failed ++ e ≠ removed) :
    (engine.onStream order fd removed failed kind reply).1 ≠ .error removed := by
  intro h
  unfold onStream at h
  cases hfind : findAddr order fd with
  | none =>
    rw [hfind] at h
    exact hmissing (Except.error.inj h)
  | some addr =>
    -- The second lookup finds what the first one has found.
    rw [hfind] at h
    dsimp only at h
    rw [lookup_of_findAddr hperm hfind] at h
    dsimp only at h
    cases hreply : reply fd with
    | error e =>
      rw [hreply] at h
      exact hfailed e (Except.error.inj h)
    | ok result =>
      rw [hreply] at h
      cases h

/-- The table after a call of `close`. -/
theorem Engine.Sound.lookup_close (h : engine.Sound)
    (hperm : order.Perm engine.connections.entries) {a : Addr} {x : RawFd} :
    (engine.close order fd).2.connections.lookup a = some x ↔
      engine.connections.lookup a = some x ∧ x ≠ fd := by
  unfold Engine.close
  cases hfind : findAddr order fd with
  | none =>
    -- The table does not have the descriptor.
    refine (and_iff_left_of_imp ?_).symm
    rintro hx rfl
    rw [h.findAddr_eq hperm hx] at hfind
    exact Option.some_ne_none _ hfind
  | some addr =>
    have hlookup := lookup_of_findAddr hperm hfind
    refine lookup_erase_iff.trans ?_
    constructor
    · rintro ⟨hne, hx⟩
      refine ⟨hx, ?_⟩
      rintro rfl
      exact hne (h.distinct hx hlookup)
    · rintro ⟨hx, hne⟩
      refine ⟨?_, hx⟩
      rintro rfl
      exact hne (Option.some.inj (hx.symm.trans hlookup))

/-- In every run whose calls of `accept` are given listening sockets, lookup by descriptor is
unambiguous. -/
theorem connections_unambiguous (bufferSize : ℕ) {sockets : Sockets} {s : Session Addr}
    (h : Reaches (Session.step bufferSize) (fun s call => call.AcceptsListening s)
      (Session.start sockets) s) : s.engine.Unambiguous bufferSize := by
  have hsound : s.engine.Sound := by
    refine h.invariant (I := fun s => s.engine.Sound) (sound_start sockets) ?_
    intro t call t' ht hok hstep
    unfold Session.step at hstep
    split at hstep
    · rename_i hpossible
      obtain rfl := Option.some.inj hstep
      refine ht.run bufferSize hpossible ?_
      rintro fd replies rfl howns
      -- A descriptor of the table is a stream, not a listener.
      obtain ⟨a, ha⟩ := Engine.owns_iff.mp howns
      have hlistener : t.engine.sockets fd = some .listener := hok
      rw [ht.opened ha] at hlistener
      cases hlistener
    · cases hstep
  exact {
    distinct := fun _ _ _ => hsound.distinct
    opened := by
      intro a fd ha hclosed
      rw [hsound.opened ha] at hclosed
      cases hclosed
    order := by
      intro order order' fd hperm hperm'
      have hfind := hsound.findAddr_perm fd hperm hperm'
      unfold Engine.read Engine.write Engine.close Engine.onStream
      rw [hfind]
      exact ⟨fun _ => rfl, fun _ _ => rfl, rfl⟩
    found := fun order fd addr hperm hfind => lookup_of_findAddr hperm hfind
    kept := by
      intro order fd hperm
      constructor
      · intro reply
        exact Engine.onStream_ne_error hperm (ne_of_head? (by simp)) fun e => ne_of_head? (by simp)
      · intro data reply
        exact Engine.onStream_ne_error hperm (ne_of_head? (by simp)) fun e => ne_of_head? (by simp)
    close := fun order fd hperm a x => hsound.lookup_close hperm }

/-- A run that accepts a connection, connects, and closes the connection that it has accepted. -/
theorem connections_unambiguous_acceptClose : ∃ s : Session String,
    s.engine.connections.lookup "10.0.0.2:80" = some 6 ∧ s.engine.Unambiguous 16 := by
  obtain ⟨s, hrun, hlookup⟩ : ∃ s : Session String,
      Reaches (Session.step 16) (fun s call => call.AcceptsListening s)
        (Session.start fun _ => none) s ∧
      s.engine.connections.lookup "10.0.0.2:80" = some 6 := by
    refine ⟨_, Reaches.get_runWhere [.openFd 3 .listener,
      .accept 3 ⟨.ok "10.0.0.1:80", .ok 4, .ok (5, "10.0.0.1:4000")⟩,
      .connect "10.0.0.2:80" (.ok 6),
      .close [⟨"10.0.0.1:4000", 5⟩, ⟨"10.0.0.2:80", 6⟩] 5] (by decide +kernel), ?_⟩
    decide +kernel
  exact ⟨s, hlookup, connections_unambiguous 16 hrun⟩

/-! ## Connections that callers hold -/

/-- What callers hold is usable: the descriptors are open and in the table, and `read` and `write`
make their system call on the one that they are given. -/
structure Session.Usable (bufferSize : ℕ) (s : Session Addr) : Prop where
  /-- The descriptors are open. -/
  opened : ∀ fd ∈ s.handed, s.engine.sockets.IsOpen fd
  /-- They are in the table. -/
  present : ∀ fd ∈ s.handed, s.engine.Owns fd
  /-- `read` returns what the system call on the descriptor does. -/
  read : ∀ fd ∈ s.handed, ∀ order, order.Perm s.engine.connections.entries → ∀ reply,
    (s.engine.read bufferSize order fd reply).1 =
      (reply fd).mapError fun e => "Failed to read from socket: " ++ e
  /-- So does `write`. -/
  write : ∀ fd ∈ s.handed, ∀ order, order.Perm s.engine.connections.entries → ∀ data reply,
    (s.engine.write order fd data reply).1 =
      (reply fd data).mapError fun e => "Failed to write to socket: " ++ e

/-- A call replaces no stream, and is not an `accept` with a descriptor of the table. -/
def Call.KeepsConnections (s : Session Addr) : Call Addr → Prop
  | connect addr reply => reply.toOption ≠ none → addr ∉ s.engine.connections
  | accept fd replies =>
    ¬ s.engine.Owns fd ∧ ∀ stream ∈ replies.connection, stream.2 ∉ s.engine.connections
  | _ => True

instance (s : Session Addr) (call : Call Addr) : Decidable (call.KeepsConnections s) := by
  unfold Call.KeepsConnections
  split <;> infer_instance

/-- The table is sound, and callers hold the descriptors that it has. -/
structure Session.Good (s : Session Addr) : Prop where
  /-- The table is sound. -/
  sound : s.engine.Sound
  /-- Callers hold its descriptors. -/
  handed : ∀ fd, fd ∈ s.handed ↔ ∃ a, s.engine.connections.lookup a = some fd

/-- What callers hold is then usable. -/
theorem Session.Good.usable {s : Session Addr} (h : s.Good) (bufferSize : ℕ) :
    s.Usable bufferSize where
  opened := by
    intro fd hfd hclosed
    obtain ⟨a, ha⟩ := (h.handed fd).mp hfd
    rw [h.sound.opened ha] at hclosed
    cases hclosed
  present := fun fd hfd => Engine.owns_iff.mpr ((h.handed fd).mp hfd)
  read := by
    intro fd hfd order hperm reply
    obtain ⟨a, ha⟩ := (h.handed fd).mp hfd
    unfold Engine.read
    rw [h.sound.onStream_eq hperm ha]
    cases reply fd with
    | error e => rfl
    | ok bytes =>
      simp only [Except.map, Bytes.readInto_eq]
      rfl
  write := by
    intro fd hfd order hperm data reply
    obtain ⟨a, ha⟩ := (h.handed fd).mp hfd
    unfold Engine.write
    rw [h.sound.onStream_eq hperm ha]
    cases reply fd data with
    | error e => rfl
    | ok n => rfl

/-- After a call that keeps connections, callers hold the descriptors that the table then has. -/
theorem Session.Good.hand {s : Session Addr} (h : s.Good) (bufferSize : ℕ) {call : Call Addr}
    (hpossible : call.Possible s.engine) (hok : call.KeepsConnections s) (x : RawFd) :
    x ∈ call.hand s.engine s.handed ↔
      ∃ a, (call.run bufferSize s.engine).connections.lookup a = some x := by
  -- A new stream at a new address.
  have hinsert : ∀ {addr : Addr} {fd : RawFd}, addr ∉ s.engine.connections →
      (x ∈ insert fd s.handed ↔
        ∃ a, (s.engine.connections.insert addr fd).lookup a = some x) := by
    intro addr fd hnew
    rw [Finset.mem_insert, exists_lookup_insert hnew, h.handed x]
  cases call with
  | connect addr reply =>
    cases reply with
    | error e => exact h.handed x
    | ok fd => exact hinsert (hok (Option.some_ne_none fd))
  | accept fd replies =>
    rcases Engine.accept_cases hpossible with ⟨e, -, heq⟩ | ⟨stream, addr, hconn, -, -, heq⟩
    · simp only [Call.hand, Call.run, heq]
      exact h.handed x
    · simp only [Call.hand, Call.run, heq]
      exact hinsert (hok.2 _ hconn)
  | read order fd reply =>
    simp only [Call.hand, Call.run, (s.engine.read_same bufferSize order fd reply).2]
    exact h.handed x
  | write order fd data reply =>
    simp only [Call.hand, Call.run, (s.engine.write_same order fd data reply).2]
    exact h.handed x
  | close order fd =>
    simp only [Call.hand, Call.run, h.sound.lookup_close hpossible, exists_and_right]
    rw [Finset.mem_erase, h.handed x]
    exact and_comm
  | openFd fd kind => exact h.handed x
  | closeFd fd => exact h.handed x

/-- A call that keeps connections keeps what callers hold those of the table. -/
theorem Session.Good.step {s s' : Session Addr} {bufferSize : ℕ} {call : Call Addr} (h : s.Good)
    (hok : call.KeepsConnections s) (hstep : s.step bufferSize call = some s') : s'.Good := by
  unfold Session.step at hstep
  split at hstep
  · rename_i hpossible
    obtain rfl := Option.some.inj hstep
    refine ⟨h.sound.run bufferSize hpossible ?_, h.hand bufferSize hpossible hok⟩
    rintro fd replies rfl
    exact hok.1
  · cases hstep

/-- In every run whose calls keep connections, what callers hold is usable. -/
theorem connections_usable (bufferSize : ℕ) {sockets : Sockets} {s : Session Addr}
    (h : Reaches (Session.step bufferSize) (fun s call => call.KeepsConnections s)
      (Session.start sockets) s) : s.Usable bufferSize := by
  have hstart : (Session.start sockets : Session Addr).Good := by
    refine ⟨sound_start sockets, fun fd => ⟨fun hfd => absurd hfd (Finset.notMem_empty fd), ?_⟩⟩
    rintro ⟨a, ha⟩
    exact absurd ha (lookup_start sockets a fd)
  have hgood : s.Good := h.invariant hstart fun t call t' ht hok hstep => ht.step hok hstep
  exact hgood.usable bufferSize

/-- A run that connects, and closes one of its two connections. -/
theorem connections_usable_connectClose : ∃ s : Session String,
    s.handed = {4} ∧ s.Usable 16 := by
  obtain ⟨s, hrun, hhanded⟩ : ∃ s : Session String,
      Reaches (Session.step 16) (fun s call => call.KeepsConnections s)
        (Session.start fun _ => none) s ∧ s.handed = {4} := by
    refine ⟨_, Reaches.get_runWhere [.connect "10.0.0.1:80" (.ok 3),
      .connect "10.0.0.2:80" (.ok 4),
      .close [⟨"10.0.0.1:80", 3⟩, ⟨"10.0.0.2:80", 4⟩] 3] (by decide +kernel), ?_⟩
    decide +kernel
  exact ⟨s, hhanded, connections_usable 16 hrun⟩

/-- A call that does not keep connections leaves a caller with a descriptor that is closed. -/
theorem Session.Good.not_usable {s s' : Session Addr} {bufferSize : ℕ} {call : Call Addr}
    (h : s.Good) (hbad : ¬ call.KeepsConnections s) (hstep : s.step bufferSize call = some s') :
    ¬ s'.Usable bufferSize := by
  suffices hclosed : ∃ fd ∈ s'.handed, s'.engine.sockets fd = none by
    rintro husable
    obtain ⟨fd, hfd, hnone⟩ := hclosed
    exact husable.opened fd hfd hnone
  -- The stream that is replaced is one that a caller holds.
  have hreplaced : ∀ {addr : Addr}, addr ∈ s.engine.connections →
      ∃ fd ∈ s.handed, s.engine.connections.lookup addr = some fd := by
    intro addr haddr
    obtain ⟨fd, hfd⟩ := Option.isSome_iff_exists.mp (AList.lookup_isSome.mpr haddr)
    exact ⟨fd, (h.handed fd).mpr ⟨addr, hfd⟩, hfd⟩
  unfold Session.step at hstep
  split at hstep
  · rename_i hpossible
    obtain rfl := Option.some.inj hstep
    cases call with
    | connect addr reply =>
      cases reply with
      | error e => exact absurd (fun hsome => absurd rfl hsome) hbad
      | ok new =>
        obtain ⟨fd, hfd, hlookup⟩ := hreplaced (not_not.mp fun hnew => hbad fun _ => hnew)
        exact ⟨fd, Finset.mem_insert_of_mem hfd, Engine.insert_closes hlookup new⟩
    | accept listenerFd replies =>
      have hcases := Engine.accept_cases hpossible
      by_cases howns : s.engine.Owns listenerFd
      · -- The listener is a stream of the table, and is closed.
        have hfd := (h.handed listenerFd).mpr (Engine.owns_iff.mp howns)
        refine ⟨listenerFd, ?_, ?_⟩
        · rcases hcases with ⟨e, -, heq⟩ | ⟨new, addr, -, -, -, heq⟩
          · simp only [Call.hand, heq]
            exact hfd
          · simp only [Call.hand, heq]
            exact Finset.mem_insert_of_mem hfd
        · rcases hcases with ⟨e, -, heq⟩ | ⟨new, addr, -, -, -, heq⟩
          · simp only [Call.run, heq]
            exact Sockets.closeFd_self
          · simp only [Call.run, heq]
            exact Sockets.closeFd_self
      · rcases hcases with ⟨e, hconn, heq⟩ | ⟨new, addr, hconn, -, -, heq⟩
        · refine absurd ⟨howns, ?_⟩ hbad
          rw [hconn]
          rintro stream ⟨⟩
        · obtain ⟨fd, hfd, hlookup⟩ : ∃ fd ∈ s.handed,
              s.engine.connections.lookup addr = some fd := by
            refine hreplaced (not_not.mp fun hnew => hbad ⟨howns, ?_⟩)
            rw [hconn]
            rintro stream ⟨⟩
            exact hnew
          refine ⟨fd, ?_, ?_⟩
          · simp only [Call.hand, heq]
            exact Finset.mem_insert_of_mem hfd
          · simp only [Call.run, heq]
            exact Sockets.closeFd_of_closed (Engine.insert_closes hlookup new)
    | read | write | close | openFd | closeFd => exact absurd trivial hbad
  · cases hstep

/-- Connecting twice to one address closes the stream that the first call has returned. -/
theorem connections_usable_fails : ¬ ∀ (sockets : Sockets) (s : Session String),
    Reaches (Session.step 16) Always (Session.start sockets) s → s.Usable 16 := by
  intro h
  obtain ⟨s, hrun, hhanded, hclosed⟩ : ∃ s : Session String,
      Reaches (Session.step 16) Always (Session.start fun _ => none) s ∧ 3 ∈ s.handed ∧
        s.engine.sockets 3 = none := by
    refine ⟨_, Reaches.get_runWhere [.connect "10.0.0.1:80" (.ok 3),
      .connect "10.0.0.1:80" (.ok 4)] (by decide +kernel), ?_, ?_⟩ <;> decide +kernel
  exact (h _ s hrun).opened 3 hhanded hclosed

end

end Elgate.Net
