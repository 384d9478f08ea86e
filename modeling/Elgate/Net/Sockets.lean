import Mathlib.Data.Int.Notation
import Mathlib.Logic.Function.Basic

/-!
# File descriptors

The open file descriptors of the process, as the network engines see them. A new descriptor is one
that is not open: the kernel promises it, and the runs of the engines are those in which it holds.
-/

namespace Elgate.Net

/-- A `RawFd`. -/
abbrev RawFd := ℤ

/-- What `Display` prints of an `io::Error`. -/
abbrev IoError := String

/-- A text that starts with another character is another text. -/
theorem ne_of_head? {text text' : String} (h : text.toList.head? ≠ text'.toList.head?) :
    text ≠ text' := by
  rintro rfl
  exact h rfl

/-- What a descriptor is open for. -/
inductive SocketKind
  /-- A listening socket. -/
  | listener
  /-- A connected socket. -/
  | stream
  /-- Anything else. -/
  | other
  deriving DecidableEq, Repr

/-- The open descriptors. -/
abbrev Sockets := RawFd → Option SocketKind

namespace Sockets

/-- The descriptor is open. -/
def IsOpen (sockets : Sockets) (fd : RawFd) : Prop := sockets fd ≠ none

instance (sockets : Sockets) (fd : RawFd) : Decidable (sockets.IsOpen fd) :=
  inferInstanceAs (Decidable (_ ≠ _))

/-- The kernel opens a new descriptor. -/
def openFd (sockets : Sockets) (fd : RawFd) (kind : SocketKind) : Sockets :=
  Function.update sockets fd (some kind)

/-- An owner of a descriptor is dropped. -/
def closeFd (sockets : Sockets) (fd : RawFd) : Sockets := Function.update sockets fd none

/-- The owner that a map returns, if there is one, is dropped. -/
def closeReturned (sockets : Sockets) : Option RawFd → Sockets
  | some fd => sockets.closeFd fd
  | none => sockets

variable {sockets : Sockets} {fd fd' : RawFd} {kind : SocketKind}

@[simp]
theorem openFd_self : sockets.openFd fd kind fd = some kind := Function.update_self _ _ _

@[simp]
theorem closeFd_self : sockets.closeFd fd fd = none := Function.update_self _ _ _

/-- Opening a descriptor leaves the others. -/
theorem openFd_of_ne (h : fd' ≠ fd) : sockets.openFd fd kind fd' = sockets fd' :=
  Function.update_of_ne h _ _

/-- Closing a descriptor leaves the others. -/
theorem closeFd_of_ne (h : fd' ≠ fd) : sockets.closeFd fd fd' = sockets fd' :=
  Function.update_of_ne h _ _

/-- Closing opens none. -/
theorem closeFd_of_closed (h : sockets fd' = none) : sockets.closeFd fd fd' = none := by
  by_cases heq : fd' = fd
  · rw [heq, closeFd_self]
  · rw [closeFd_of_ne heq, h]

/-- A new descriptor that is closed again has changed nothing. -/
theorem closeFd_openFd (h : sockets fd = none) : (sockets.openFd fd kind).closeFd fd = sockets := by
  unfold closeFd openFd
  rw [Function.update_idem, ← h, Function.update_eq_self]

/-- A new descriptor that is closed after another has opened has left only the other. -/
theorem closeFd_openFd_openFd {kind' : SocketKind} (hne : fd' ≠ fd) (h : sockets fd = none) :
    ((sockets.openFd fd kind).openFd fd' kind').closeFd fd = sockets.openFd fd' kind' := by
  unfold closeFd openFd
  rw [Function.update_comm hne, Function.update_idem]
  congr 1
  rw [← h, Function.update_eq_self]

/-- Two descriptors may be closed in either order. -/
theorem closeFd_comm : (sockets.closeFd fd).closeFd fd' = (sockets.closeFd fd').closeFd fd := by
  by_cases h : fd = fd'
  · rw [h]
  · exact Function.update_comm h _ _ _

/-- The owner that a map returns may be dropped before a descriptor is closed, or after. -/
theorem closeReturned_closeFd (returned : Option RawFd) :
    (sockets.closeReturned returned).closeFd fd =
      (sockets.closeFd fd).closeReturned returned := by
  cases returned with
  | none => rfl
  | some old => exact closeFd_comm

/-- What is open after the owner that a map returns is dropped. -/
theorem closeReturned_apply (returned : Option RawFd) :
    sockets.closeReturned returned fd = if returned = some fd then none else sockets fd := by
  cases returned with
  | none => rw [if_neg (Option.some_ne_none fd).symm, closeReturned]
  | some old =>
    change sockets.closeFd old fd = _
    by_cases h : fd = old
    · rw [h, if_pos rfl, closeFd_self]
    · rw [if_neg fun hold => h (Option.some.inj hold).symm, closeFd_of_ne h]

/-- A descriptor that is open is not the new one. -/
theorem IsOpen.ne_of_fresh (h : sockets.IsOpen fd') (hfresh : sockets fd = none) : fd' ≠ fd := by
  rintro rfl
  exact h hfresh

/-! ## What is closed -/

section
variable {sockets' : Sockets} {P : RawFd → Prop}

/-- Where nothing is closed, nothing is to be shown of what is. -/
theorem closes_of_keeps (hkeep : ∀ x, sockets.IsOpen x → sockets'.IsOpen x) :
    ∀ x, sockets.IsOpen x → ¬ sockets'.IsOpen x → P x :=
  fun x hopen hclosed => absurd (hkeep x hopen) hclosed

/-- Where an owner is dropped, only its descriptor is closed. -/
theorem closes_closeFd_iff (hkeep : ∀ x, sockets.IsOpen x → sockets'.IsOpen x) :
    (∀ x, sockets.IsOpen x → ¬ (sockets'.closeFd fd).IsOpen x → P x) ↔
      (sockets.IsOpen fd → P fd) := by
  constructor
  · intro h hopen
    exact h fd hopen fun hstill => hstill closeFd_self
  · intro h x hopen hclosed
    by_cases hx : x = fd
    · subst hx
      exact h hopen
    · have hstill : (sockets'.closeFd fd).IsOpen x := by
        unfold IsOpen
        rw [closeFd_of_ne hx]
        exact hkeep x hopen
      exact absurd hstill hclosed

/-- Opening a new descriptor closes none. -/
theorem keeps_openFd (kind : SocketKind) :
    ∀ x, sockets.IsOpen x → (sockets.openFd fd kind).IsOpen x := by
  intro x hopen
  unfold IsOpen openFd
  by_cases hx : x = fd
  · rw [hx, Function.update_self]
    exact Option.some_ne_none kind
  · rw [Function.update_of_ne hx]
    exact hopen

/-- Where nothing may be closed, everything is kept. -/
theorem closes_iff_keeps (hP : ∀ x, ¬ P x) :
    (∀ x, sockets.IsOpen x → ¬ sockets'.IsOpen x → P x) ↔
      ∀ x, sockets.IsOpen x → sockets'.IsOpen x := by
  refine forall₂_congr fun x hopen => ⟨fun h => ?_, fun h hclosed => absurd h hclosed⟩
  exact not_not.mp fun hclosed => hP x (h hclosed)

/-- An operation with nothing to drop meets both. -/
theorem iff_of_keeps {Q : Prop} (hkeep : ∀ x, sockets.IsOpen x → sockets'.IsOpen x) (hQ : Q) :
    (∀ x, sockets.IsOpen x → ¬ sockets'.IsOpen x → P x) ↔ Q :=
  iff_of_true (closes_of_keeps hkeep) hQ

end

end Sockets

end Elgate.Net
