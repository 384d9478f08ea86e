import Elgate.Net.Connections
import Elgate.Net.Fallback

/-!
# Descriptors that operations close

Which descriptors an operation of either network engine closes. The arms of the fallback engine
close none when they forget the owner that they have made of theirs. `accept` of the io_uring engine
drops its owner on every path, and `connect` drops a stream that it replaces
(`descriptors_kept_iff`).
-/

namespace Elgate.Net

open Transition Sockets

section
variable {Addr : Type} [DecidableEq Addr] [ToString Addr]

/-- The call closes no descriptor, but a `close` the one that it is given. -/
def Call.OnlyCloseCloses (s s' : Session Addr) : Call Addr → Prop
  | openFd .. | closeFd .. => True
  | call => ∀ fd, s.engine.sockets.IsOpen fd → ¬ s'.engine.sockets.IsOpen fd →
    ∃ order, call = close order fd

/-- The call is not an `accept` with an open descriptor, and not a `connect` that replaces an open
stream. -/
def Call.DropsNone (s : Session Addr) : Call Addr → Prop
  | accept fd _ => ¬ s.engine.sockets.IsOpen fd
  | connect addr reply => reply.toOption ≠ none →
    ∀ fd ∈ s.engine.connections.lookup addr, ¬ s.engine.sockets.IsOpen fd
  | _ => True

instance (s : Session Addr) : (call : Call Addr) → Decidable (call.DropsNone s)
  | .accept fd _ => inferInstanceAs (Decidable (¬ s.engine.sockets.IsOpen fd))
  | .connect addr reply => inferInstanceAs (Decidable (reply.toOption ≠ none →
      ∀ fd ∈ s.engine.connections.lookup addr, ¬ s.engine.sockets.IsOpen fd))
  | .read .. | .write .. | .close .. | .openFd .. | .closeFd .. => isTrue trivial

variable {engine : Engine Addr} {bufferSize : ℕ}

/-- `connect` closes the stream that it replaces. -/
theorem Engine.connect_closes_iff {addr : Addr} {reply : Except IoError RawFd} :
    (∀ fd, engine.sockets.IsOpen fd → (engine.connect addr reply).2.sockets.IsOpen fd) ↔
      (reply.toOption ≠ none → ∀ fd ∈ engine.connections.lookup addr,
        ¬ engine.sockets.IsOpen fd) := by
  cases reply with
  | error e => exact iff_of_true (fun fd hopen => hopen) fun hsome => absurd rfl hsome
  | ok new =>
    constructor
    · intro hkeep _ fd hfd hopen
      exact hkeep fd hopen (insert_closes hfd new)
    · intro hnone fd hopen
      have hne : engine.connections.lookup addr ≠ some fd :=
        fun hfd => hnone (Option.some_ne_none new) fd hfd hopen
      -- No other stream than the one that is replaced is dropped.
      have hsame : ((engine.openFd new .stream).insert addr new).sockets fd =
          engine.sockets.openFd new .stream fd :=
        insert_sockets.trans (if_neg hne)
      exact fun hclosed => keeps_openFd .stream fd hopen (hsame.symm.trans hclosed)

/-- `accept` closes the descriptor that it is given. -/
theorem Engine.accept_closes_iff {listenerFd : RawFd} {replies : AcceptReplies Addr}
    (hpossible : replies.Possible engine.sockets listenerFd) :
    (∀ fd, engine.sockets.IsOpen fd → (engine.accept listenerFd replies).2.sockets.IsOpen fd) ↔
      ¬ engine.sockets.IsOpen listenerFd := by
  rcases accept_cases hpossible with ⟨e, -, heq⟩ | ⟨stream, addr, hconn, -, -, heq⟩
  · rw [heq]
    constructor
    · intro hkeep hopen
      exact hkeep listenerFd hopen closeFd_self
    · -- Closing a descriptor that is not open changes nothing.
      intro hshut fd hopen
      have hne : fd ≠ listenerFd := by
        rintro rfl
        exact hshut hopen
      exact fun hclosed => hopen ((Sockets.closeFd_of_ne hne).symm.trans hclosed)
  · -- It accepts connections on open descriptors only.
    have hopen := hpossible.isOpen_of_connection hconn
    refine iff_of_false (fun hkeep => hkeep listenerFd hopen ?_) (not_not.mpr hopen)
    rw [heq]
    exact closeFd_self

/-- `close` closes no other descriptor than the one that it is given. -/
theorem Engine.close_sockets {order : List (Sigma fun _ : Addr => RawFd)} {fd x : RawFd}
    (hperm : order.Perm engine.connections.entries) (hne : x ≠ fd) :
    (engine.close order fd).2.sockets x = engine.sockets x := by
  unfold close
  cases hfind : findAddr order fd with
  | none => rfl
  | some addr =>
    -- The stream that is removed is the one that the search has found.
    have hlookup := lookup_of_findAddr hperm hfind
    refine remove_sockets.trans (if_neg ?_)
    rw [hlookup]
    exact fun hsame => hne (Option.some.inj hsame).symm

/-- A call of the io_uring engine closes only what a `close` is given exactly when it drops no other
owner. -/
theorem Call.onlyCloseCloses_iff {s s' : Session Addr} {call : Call Addr}
    (h : s.step bufferSize call = some s') : call.OnlyCloseCloses s s' ↔ call.DropsNone s := by
  unfold Session.step at h
  split at h
  · rename_i hpossible
    obtain rfl := Option.some.inj h
    cases call with
    | connect addr reply =>
      refine Iff.trans (closes_iff_keeps ?_) Engine.connect_closes_iff
      rintro fd ⟨order, ⟨⟩⟩
    | accept fd replies =>
      refine Iff.trans (closes_iff_keeps ?_) (Engine.accept_closes_iff hpossible)
      rintro fd ⟨order, ⟨⟩⟩
    | read order fd reply =>
      refine iff_of_keeps (fun x hopen => ?_) trivial
      rwa [Call.run, (s.engine.read_same bufferSize order fd reply).1]
    | write order fd data reply =>
      refine iff_of_keeps (fun x hopen => ?_) trivial
      rwa [Call.run, (s.engine.write_same order fd data reply).1]
    | close order fd =>
      refine iff_of_true (fun x hopen hclosed => ⟨order, ?_⟩) trivial
      by_cases hx : x = fd
      · rw [hx]
      · rw [Sockets.IsOpen, Call.run, Engine.close_sockets hpossible hx] at hclosed
        exact absurd hopen hclosed
    | openFd | closeFd => exact Iff.rfl
  · cases h

/-- In every run of either engine, an operation closes no descriptor, but a `close` the one that it
is given, exactly when no other owner is dropped: in the fallback engine the `Accept`s are given no
descriptor that is open, and the system calls of the `Read`s and `Write`s succeed; in the io_uring
engine the calls of `accept` are given none that is open, and those of `connect` replace no stream.
-/
theorem descriptors_kept_iff (bufferSize : ℕ) (sockets : Sockets) :
    (∀ (turns : List (Fallback.Turn Addr)) run,
      steps (Fallback.step bufferSize) sockets turns = some run →
      ((∀ p ∈ run, p.2.1.OnlyCloseCloses p.1 p.2.2) ↔ ∀ p ∈ run, p.2.1.Forgets p.1)) ∧
    ∀ (calls : List (Call Addr)) run,
      steps (Session.step bufferSize) (Session.start sockets) calls = some run →
      ((∀ p ∈ run, p.2.1.OnlyCloseCloses p.1 p.2.2) ↔ ∀ p ∈ run, p.2.1.DropsNone p.1) := by
  constructor
  · intro turns run h
    exact forall₂_congr fun p hp => Fallback.onlyCloseCloses_iff (step_of_mem_steps h p hp)
  · intro calls run h
    exact forall₂_congr fun p hp => Call.onlyCloseCloses_iff (step_of_mem_steps h p hp)

end

/-- The replies of a kernel that only reads. -/
def onlyReads (read : Except IoError (List UInt8)) : Fallback.Replies String :=
  ⟨.error "", .error "", read, .error ""⟩

/-- A read from a stream, which is then closed. -/
def readThenClose : List (Fallback.Turn String) :=
  [.openFd 3 .stream, .operation ⟨.read, none, some 3, none⟩ (onlyReads (.ok [7])),
    .operation ⟨.close, none, some 3, none⟩ (onlyReads (.ok []))]

/-- A connection that is written to and read from, an `accept` of a descriptor that is not open, and
the connection is closed. -/
def connectThenClose : List (Call String) :=
  [.connect "10.0.0.1:80" (.ok 3),
    .write [⟨"10.0.0.1:80", 3⟩] 3 [1, 2] fun _ _ => .ok 2,
    .read [⟨"10.0.0.1:80", 3⟩] 3 fun _ => .error "Resource temporarily unavailable",
    .accept 9 ⟨.error "Bad file descriptor", .error "", .error ""⟩,
    .close [⟨"10.0.0.1:80", 3⟩] 3]

/-- A run of each engine. -/
theorem descriptors_kept_readClose :
    (∃ run, steps (Fallback.step 16) (fun _ => none) readThenClose = some run ∧
      ∀ p ∈ run, p.2.1.OnlyCloseCloses p.1 p.2.2) ∧
    ∃ run, steps (Session.step 16) (Session.start fun _ => none) connectThenClose = some run ∧
      ∀ p ∈ run, p.2.1.OnlyCloseCloses p.1 p.2.2 := by
  have hread : steps (Fallback.step 16) (fun _ => none) readThenClose = some _ := rfl
  have hconnect : steps (Session.step 16) (Session.start fun _ => none) connectThenClose =
    some _ := rfl
  constructor
  · exact ⟨_, hread, ((descriptors_kept_iff 16 _).1 _ _ hread).mpr (by decide +kernel)⟩
  · exact ⟨_, hconnect, ((descriptors_kept_iff 16 _).2 _ _ hconnect).mpr (by decide +kernel)⟩

/-- In either engine a listener is closed by the first connection that is accepted on it. -/
theorem descriptors_kept_fails :
    (¬ ∀ (turns : List (Fallback.Turn String)) run,
      steps (Fallback.step 16) (fun _ => none) turns = some run →
      ∀ p ∈ run, p.2.1.OnlyCloseCloses p.1 p.2.2) ∧
    ¬ ∀ (calls : List (Call String)) run,
      steps (Session.step 16) (Session.start fun _ => none) calls = some run →
      ∀ p ∈ run, p.2.1.OnlyCloseCloses p.1 p.2.2 := by
  constructor
  · intro h
    have hrun : steps (Fallback.step 16) (fun _ => none) [.openFd 3 .listener,
        .operation ⟨.accept, none, some 3, none⟩
          ⟨.ok (4, "10.0.0.1:4000"), .error "", .error "", .error ""⟩] = some _ := rfl
    have hkeeps := h _ _ hrun _ (List.mem_cons_of_mem _ (List.mem_singleton_self _))
    exact absurd (hkeeps 3 (by decide) (by decide)).1 (by decide)
  · intro h
    have hrun : steps (Session.step 16) (Session.start fun _ => none) [.openFd 3 .listener,
        .accept 3 ⟨.ok "10.0.0.1:80", .ok 4, .ok (5, "10.0.0.1:4000")⟩] = some _ := rfl
    have hkeeps := h _ _ hrun _ (List.mem_cons_of_mem _ (List.mem_singleton_self _))
    obtain ⟨order, ⟨⟩⟩ := hkeeps 3 (by decide) (by decide)

end Elgate.Net
