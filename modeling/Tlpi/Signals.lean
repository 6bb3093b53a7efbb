/-
The **signal layer**: the signal mask, the pending signals and the dispositions of a process with
one thread, over arbitrary types of signals and of handler functions. Nothing here is about this
repository.

A signal that is generated is discarded when it is ignored, and pending otherwise; a blocked signal
is pending even when it is ignored, as the disposition may change before it is unblocked. Standard
signals do not queue: a second one adds nothing to a pending first one. To begin ignoring a signal
discards it if it is pending.

What a program makes of a delivered signal is its own affair: `deliver` only takes it off the
pending set and says what the disposition is. The numbers at the end are those of Linux.
-/
import Mathlib.Data.Nat.Notation
import Mathlib.Logic.Function.Basic
import Mathlib.Tactic.Common

set_option autoImplicit false

namespace Tlpi.Signals

universe u v

/-- The disposition of a signal. -/
inductive Disposition (η : Type v) where
  | SIG_DFL
  | SIG_IGN
  | handler (f : η)
deriving Repr, DecidableEq

variable {σ : Type u} {η : Type v} [DecidableEq σ]

/-- What the kernel keeps about the signals of a process. -/
structure SigState (σ : Type u) (η : Type v) where
  mask : σ → Bool
  pending : σ → Bool
  action : σ → Disposition η

/-- Whether a signal with this disposition is thrown away; `harmless` are the signals that their
default action ignores. -/
def Disposition.ignores (harmless : σ → Bool) (sig : σ) : Disposition η → Bool
  | .SIG_IGN => true
  | .SIG_DFL => harmless sig
  | .handler _ => false

/-- A signal is generated for the process. -/
def SigState.generate (harmless : σ → Bool) (s : SigState σ η) (sig : σ) : SigState σ η :=
  if !s.mask sig && (s.action sig).ignores harmless sig then s
  else { s with pending := Function.update s.pending sig true }

/-- A pending signal that is not blocked is delivered. -/
def SigState.deliver (s : SigState σ η) (sig : σ) : Option (Disposition η × SigState σ η) :=
  if s.pending sig && !s.mask sig then
    some (s.action sig, { s with pending := Function.update s.pending sig false })
  else none

/-- `sigprocmask(SIG_BLOCK, ...)` with a set of one signal. -/
def SigState.block (s : SigState σ η) (sig : σ) : SigState σ η :=
  { s with mask := Function.update s.mask sig true }

/-- `sigprocmask(SIG_UNBLOCK, ...)` with a set of one signal. -/
def SigState.unblock (s : SigState σ η) (sig : σ) : SigState σ η :=
  { s with mask := Function.update s.mask sig false }

/-- `sigprocmask(SIG_SETMASK, ...)` -/
def SigState.setmask (s : SigState σ η) (mask : σ → Bool) : SigState σ η := { s with mask := mask }

/-- `sigaction(sig, act, NULL)` -/
def SigState.sigaction (harmless : σ → Bool) (s : SigState σ η) (sig : σ) (act : Disposition η) :
    SigState σ η :=
  { s with
    action := Function.update s.action sig act
    pending := if act.ignores harmless sig then Function.update s.pending sig false else s.pending }

/-- Some signals are pending no more: what SIGCONT does to those that stop a process, and these to it. -/
def SigState.discard (s : SigState σ η) (sigs : σ → Bool) : SigState σ η :=
  { s with pending := fun sig => s.pending sig && !sigs sig }

/-- The child after `fork()`: nothing is pending. -/
def SigState.fork (s : SigState σ η) : SigState σ η := { s with pending := fun _ => false }

/-- `exec()` resets the handlers, which the new program does not have. -/
def Disposition.exec : Disposition η → Disposition η
  | .handler _ => .SIG_DFL
  | d => d

theorem exec_exec (d : Disposition η) : d.exec.exec = d.exec := by cases d <;> rfl

def SigState.exec (s : SigState σ η) : SigState σ η :=
  { s with action := fun sig => (s.action sig).exec }

section

variable (harmless : σ → Bool) (s : SigState σ η) (sig : σ)

@[simp] theorem generate_mask : (s.generate harmless sig).mask = s.mask := by
  unfold SigState.generate
  split <;> rfl

@[simp] theorem generate_action : (s.generate harmless sig).action = s.action := by
  unfold SigState.generate
  split <;> rfl

/-- A blocked signal is not lost. -/
theorem generate_pending_of_mask (h : s.mask sig = true) :
    (s.generate harmless sig).pending = Function.update s.pending sig true := by
  rw [SigState.generate, h, Bool.not_true, Bool.false_and, if_neg Bool.false_ne_true]

/-- A signal that is caught is not lost. -/
theorem generate_pending_of_handler {f : η} (h : s.action sig = .handler f) :
    (s.generate harmless sig).pending = Function.update s.pending sig true := by
  rw [SigState.generate, h, Disposition.ignores, Bool.and_false, if_neg Bool.false_ne_true]

/-- What is pending stays so. -/
theorem generate_pending_mono {sig' : σ} (h : s.pending sig' = true) :
    (s.generate harmless sig).pending sig' = true := by
  unfold SigState.generate
  split
  · exact h
  · simp only [Function.update_apply]
    split
    · rfl
    · exact h

/-- What is delivered was pending and not blocked, and is so no more. -/
theorem deliver_eq_some {s s' : SigState σ η} {sig : σ} {d : Disposition η}
    (h : s.deliver sig = some (d, s')) :
    s.pending sig = true ∧ s.mask sig = false ∧ d = s.action sig ∧
      s' = { s with pending := Function.update s.pending sig false } := by
  rw [SigState.deliver, Option.ite_none_right_eq_some, Option.some.injEq, Prod.mk.injEq,
    Bool.and_eq_true, Bool.not_eq_true'] at h
  exact ⟨h.1.1, h.1.2, h.2.1.symm, h.2.2.symm⟩

@[simp] theorem block_mask : (s.block sig).mask = Function.update s.mask sig true := rfl

@[simp] theorem unblock_mask : (s.unblock sig).mask = Function.update s.mask sig false := rfl

@[simp] theorem sigaction_mask (act : Disposition η) : (s.sigaction harmless sig act).mask = s.mask := rfl

@[simp] theorem sigaction_action (act : Disposition η) :
    (s.sigaction harmless sig act).action = Function.update s.action sig act := rfl

end

/-! ## The signals of Linux -/

abbrev SIGINT : ℕ := 2
abbrev SIGQUIT : ℕ := 3
abbrev SIGKILL : ℕ := 9
abbrev SIGCHLD : ℕ := 17
abbrev SIGCONT : ℕ := 18
abbrev SIGSTOP : ℕ := 19
abbrev SIGTSTP : ℕ := 20
abbrev SIGTTIN : ℕ := 21
abbrev SIGTTOU : ℕ := 22

/-- The signals that are ignored by default: SIGCHLD, SIGCONT, SIGURG and SIGWINCH. -/
def harmless (sig : ℕ) : Bool := sig == SIGCHLD || sig == SIGCONT || sig == 23 || sig == 28

/-- The signals that stop a process by default. -/
def stops (sig : ℕ) : Bool := sig == SIGSTOP || sig == SIGTSTP || sig == SIGTTIN || sig == SIGTTOU

end Tlpi.Signals
