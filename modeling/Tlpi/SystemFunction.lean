/-
`procexec/system.c`: an implementation of `system()`.

## What is modelled

The caller and the child that it forks, each call a step of its own, while signals are generated
for the caller and delivered to it at any moment; `handled` records the handlers that ran, with the
place where the caller was. The child may die at any moment after the `fork()`, of a signal or with
the status of the shell. `fork()` and `exec()` may fail, and `waitpid()` may be interrupted.

The parameter of the states is the type of the caller's handler functions.

## The shape of the argument

What the mask and the dispositions are is a function of the place and of what they were at the
call (`maskAt`, `actionAt`), since the only other things that happen, the generation and the
delivery of signals, change neither. The three results are read off that: the caller gets back what
it had, no handler for the three signals runs while they are taken care of, and the shell starts
with what it would have had from a `fork()` and an `exec()` of the caller's own.
-/
import Mathlib.Data.Int.Notation
import Mathlib.Logic.Function.Basic
import Tlpi.Signals
import Tlpi.Transition

set_option autoImplicit false

namespace Tlpi.SystemFunction

open Tlpi.Signals Tlpi.Transition

/-! ## The program -/

inductive Errno where
  | EAGAIN | EINTR | ECHILD
  | other (n : ℕ)
deriving Repr, DecidableEq

/-- Where the caller stands in `system()`. -/
inductive Pc where
  | block | ignoreInt | ignoreQuit | fork | waitpid
  | saveErrno | setmask | restoreInt | restoreQuit | restoreErrno
  | ret
  /-- A signal has killed it. -/
  | killed (at_ : Pc) (sig : ℕ)
deriving Repr, DecidableEq

/-- Where the child stands, or what is left of it. -/
inductive ChildPc where
  | int | quit | setmask | exec
  /-- The shell runs. -/
  | shell
  | zombie (status : ℤ)
  | waitedFor (status : ℤ)
  /-- It has died while SIGCHLD was ignored, and left nothing. -/
  | gone
deriving Repr, DecidableEq

structure Child (η : Type) where
  pc : ChildPc
  sigs : SigState ℕ η

structure State (η : Type) where
  pc : Pc
  sigs : SigState ℕ η
  origMask : ℕ → Bool
  saOrigInt : Disposition η
  saOrigQuit : Disposition η
  status : ℤ
  errno : Errno
  savedErrno : Errno
  child : Option (Child η)
  handled : List (Pc × ℕ)

variable {η : Type}

/-- One call of the caller. A call that restores something may leave its own `e` in `errno`. -/
def callerStep (e : Errno) (s : State η) : Option (State η) :=
  match s.pc with
  | .block => some { s with pc := .ignoreInt, sigs := s.sigs.block SIGCHLD, origMask := s.sigs.mask }
  | .ignoreInt =>
    some { s with
      pc := .ignoreQuit, sigs := s.sigs.sigaction harmless SIGINT .SIG_IGN
      saOrigInt := s.sigs.action SIGINT }
  | .ignoreQuit =>
    some { s with
      pc := .fork, sigs := s.sigs.sigaction harmless SIGQUIT .SIG_IGN
      saOrigQuit := s.sigs.action SIGQUIT }
  | .fork => some { s with pc := .waitpid, child := some { pc := .int, sigs := s.sigs.fork } }
  | .waitpid =>
    match s.child with
    | none => none
    | some c =>
      match c.pc with
      | .zombie status =>
        some { s with pc := .saveErrno, status := status, child := some { c with pc := .waitedFor status } }
      | .gone => some { s with pc := .saveErrno, status := -1, errno := .ECHILD }
      | _ => none
  | .saveErrno => some { s with pc := .setmask, savedErrno := s.errno }
  | .setmask => some { s with pc := .restoreInt, sigs := s.sigs.setmask s.origMask, errno := e }
  | .restoreInt =>
    some { s with pc := .restoreQuit, sigs := s.sigs.sigaction harmless SIGINT s.saOrigInt, errno := e }
  | .restoreQuit =>
    some { s with
      pc := .restoreErrno, sigs := s.sigs.sigaction harmless SIGQUIT s.saOrigQuit, errno := e }
  | .restoreErrno => some { s with pc := .ret, errno := s.savedErrno }
  | .ret => none
  | .killed _ _ => none

/-- `fork()` fails, or `waitpid()` is interrupted. -/
def callerFails (s : State η) : Option (State η) :=
  match s.pc with
  | .fork => some { s with pc := .saveErrno, status := -1, errno := .EAGAIN }
  | .waitpid => some { s with errno := .EINTR }
  | _ => none

/-- `if (orig.sa_handler != SIG_IGN) sigaction(sig, &saDefault, NULL);` -/
def resetUnless (orig : Disposition η) (sig : ℕ) (sigs : SigState ℕ η) : SigState ℕ η :=
  match orig with
  | .SIG_IGN => sigs
  | _ => sigs.sigaction harmless sig .SIG_DFL

/-- One call of the child. -/
def childStep (s : State η) : Option (State η) :=
  match s.child with
  | none => none
  | some c =>
    match c.pc with
    | .int => some { s with child := some { pc := .quit, sigs := resetUnless s.saOrigInt SIGINT c.sigs } }
    | .quit =>
      some { s with child := some { pc := .setmask, sigs := resetUnless s.saOrigQuit SIGQUIT c.sigs } }
    | .setmask => some { s with child := some { pc := .exec, sigs := c.sigs.setmask s.origMask } }
    | .exec => some { s with child := some { pc := .shell, sigs := c.sigs.exec } }
    | _ => none

def ChildPc.running : ChildPc → Bool
  | .int | .quit | .setmask | .exec | .shell => true
  | .zombie _ | .waitedFor _ | .gone => false

/-- The child dies, or `_exit(127)` ends it: the caller is told, and the status is kept for it
unless it ignores SIGCHLD. -/
def childDies (status : ℤ) (s : State η) : Option (State η) :=
  match s.child with
  | none => none
  | some c =>
    if c.pc.running then
      let pc := match s.sigs.action SIGCHLD with
        | .SIG_IGN => .gone
        | _ => .zombie status
      some { s with child := some { c with pc := pc }, sigs := s.sigs.generate harmless SIGCHLD }
    else none

/-- A signal is delivered to the caller. -/
def deliver (sig : ℕ) (s : State η) : Option (State η) :=
  match s.pc with
  | .ret => none
  | .killed _ _ => none
  | pc =>
    match s.sigs.deliver sig with
    | none => none
    | some (.handler _, sigs) => some { s with sigs := sigs, handled := s.handled ++ [(pc, sig)] }
    | some (.SIG_IGN, sigs) => some { s with sigs := sigs }
    | some (.SIG_DFL, sigs) =>
      if harmless sig then some { s with sigs := sigs }
      else some { s with sigs := sigs, pc := .killed pc sig }

inductive Act where
  | caller (e : Errno)
  | callerFails
  | child
  | childDies (status : ℤ)
  | generate (sig : ℕ)
  | deliver (sig : ℕ)
deriving Repr, DecidableEq

def step (s : State η) : Act → Option (State η)
  | .caller e => callerStep e s
  | .callerFails => callerFails s
  | .child => childStep s
  | .childDies status => childDies status s
  | .generate sig => some { s with sigs := s.sigs.generate harmless sig }
  | .deliver sig => deliver sig s

/-- The call, with the mask and the dispositions of `orig`; the locals hold anything. -/
structure Called (orig : SigState ℕ η) (s : State η) : Prop where
  pc : s.pc = .block
  mask : s.sigs.mask = orig.mask
  action : s.sigs.action = orig.action
  child : s.child = none
  handled : s.handled = []

/-- `system(command)`, for a command that is not `NULL`. -/
def system (orig : SigState ℕ η) : System (State η) Act where
  init := Called orig
  step := step

/-! ## The mask and the dispositions, place by place -/

/-- SIGCHLD is blocked. -/
def Pc.blocked : Pc → Bool
  | .ignoreInt | .ignoreQuit | .fork | .waitpid | .saveErrno | .setmask => true
  | .killed at_ _ => at_.blocked
  | _ => false

/-- SIGINT is ignored. -/
def Pc.intIgnored : Pc → Bool
  | .ignoreQuit | .fork | .waitpid | .saveErrno | .setmask | .restoreInt => true
  | .killed at_ _ => at_.intIgnored
  | _ => false

/-- SIGQUIT is ignored. -/
def Pc.quitIgnored : Pc → Bool
  | .fork | .waitpid | .saveErrno | .setmask | .restoreInt | .restoreQuit => true
  | .killed at_ _ => at_.quitIgnored
  | _ => false

/-- How many of the calls are done. -/
def Pc.rank : Pc → ℕ
  | .block => 0
  | .ignoreInt => 1
  | .ignoreQuit => 2
  | .fork => 3
  | .waitpid => 4
  | .saveErrno => 5
  | .setmask => 6
  | .restoreInt => 7
  | .restoreQuit => 8
  | .restoreErrno => 9
  | .ret => 10
  | .killed at_ _ => at_.rank

def maskAt (orig : SigState ℕ η) (pc : Pc) (sig : ℕ) : Bool :=
  if sig = SIGCHLD ∧ pc.blocked then true else orig.mask sig

def actionAt (orig : SigState ℕ η) (pc : Pc) (sig : ℕ) : Disposition η :=
  if sig = SIGINT ∧ pc.intIgnored then .SIG_IGN
  else if sig = SIGQUIT ∧ pc.quitIgnored then .SIG_IGN
  else orig.action sig

/-- The three signals are taken care of. -/
def Guarded (pc : Pc) (sig : ℕ) : Prop :=
  sig = SIGCHLD ∧ pc.blocked ∨ sig = SIGINT ∧ pc.intIgnored ∨ sig = SIGQUIT ∧ pc.quitIgnored

/-- The mask of the child. -/
def childMaskAt (orig : SigState ℕ η) : ChildPc → ℕ → Bool
  | .int | .quit | .setmask => maskAt orig .fork
  | _ => orig.mask

/-- SIGINT is still ignored in the child, whatever the caller does with it. -/
def ChildPc.keepsInt : ChildPc → Bool
  | .int => true
  | _ => false

/-- And SIGQUIT. -/
def ChildPc.keepsQuit : ChildPc → Bool
  | .int | .quit => true
  | _ => false

/-- The dispositions of the child. -/
def childActionAt (orig : SigState ℕ η) (pc : ChildPc) (sig : ℕ) : Disposition η :=
  if sig = SIGINT then if pc.keepsInt then .SIG_IGN else (orig.action sig).exec
  else if sig = SIGQUIT then if pc.keepsQuit then .SIG_IGN else (orig.action sig).exec
  else if pc = .shell then (orig.action sig).exec
  else orig.action sig

structure ChildInv (orig : SigState ℕ η) (c : Child η) : Prop where
  mask : c.pc.running → c.sigs.mask = childMaskAt orig c.pc
  action : c.pc.running → c.sigs.action = childActionAt orig c.pc
  zombie : ∀ status, c.pc = .zombie status ∨ c.pc = .waitedFor status → orig.action SIGCHLD ≠ .SIG_IGN
  gone : c.pc = .gone → orig.action SIGCHLD = .SIG_IGN

/-- How the call ends: with the status of the child, or with an error. -/
inductive Outcome (orig : SigState ℕ η) (child : Option (Child η)) (status : ℤ) (errno : Errno) : Prop
  | noChild (hc : child = none) (hstatus : status = -1) (herrno : errno = .EAGAIN)
  | waited {c : Child η} (hc : child = some c) (hpc : c.pc = .waitedFor status)
      (hsigchld : orig.action SIGCHLD ≠ .SIG_IGN)
  | gone {c : Child η} (hc : child = some c) (hpc : c.pc = .gone) (hstatus : status = -1)
      (herrno : errno = .ECHILD) (hsigchld : orig.action SIGCHLD = .SIG_IGN)

/-- The `errno` that the caller of `system()` is to see. -/
def State.reported (s : State η) : Errno :=
  match s.pc with
  | .setmask | .restoreInt | .restoreQuit | .restoreErrno => s.savedErrno
  | .killed _ _ => s.savedErrno
  | _ => s.errno

structure Inv (orig : SigState ℕ η) (s : State η) : Prop where
  mask : s.sigs.mask = maskAt orig s.pc
  action : s.sigs.action = actionAt orig s.pc
  origMask : 1 ≤ s.pc.rank → s.origMask = orig.mask
  saOrigInt : 2 ≤ s.pc.rank → s.saOrigInt = orig.action SIGINT
  saOrigQuit : 3 ≤ s.pc.rank → s.saOrigQuit = orig.action SIGQUIT
  noChild : s.pc.rank ≤ 3 → s.child = none
  hasChild : s.pc = .waitpid → ∃ c, s.child = some c
  child : ∀ c, s.child = some c → ChildInv orig c
  outcome : 5 ≤ s.pc.rank → (∀ at_ sig, s.pc ≠ .killed at_ sig) →
    Outcome orig s.child s.status s.reported
  handled : ∀ pc sig, (pc, sig) ∈ s.handled → ¬Guarded pc sig ∧ ∃ f, orig.action sig = .handler f
  killed : ∀ at_ sig, s.pc = .killed at_ sig → ¬Guarded at_ sig ∧ orig.action sig = .SIG_DFL

theorem Called.inv {orig : SigState ℕ η} {s : State η} (h : Called orig s) : Inv orig s := by
  refine ⟨?_, ?_, ?_, ?_, ?_, fun _ => h.child, ?_, ?_, ?_, ?_, ?_⟩
  · rw [h.mask, h.pc]
    funext sig
    rw [maskAt, if_neg (fun hc => absurd hc.2 Bool.false_ne_true)]
  · rw [h.action, h.pc]
    funext sig
    rw [actionAt, if_neg (fun hc => absurd hc.2 Bool.false_ne_true),
      if_neg (fun hc => absurd hc.2 Bool.false_ne_true)]
  · rw [h.pc]
    exact fun hr => absurd hr (by decide)
  · rw [h.pc]
    exact fun hr => absurd hr (by decide)
  · rw [h.pc]
    exact fun hr => absurd hr (by decide)
  · rw [h.pc]
    exact nofun
  · rw [h.child]
    exact nofun
  · rw [h.pc]
    exact fun hr => absurd hr (by decide)
  · rw [h.handled]
    exact nofun
  · rw [h.pc]
    exact nofun

theorem actionAt_sigchld (orig : SigState ℕ η) (pc : Pc) :
    actionAt orig pc SIGCHLD = orig.action SIGCHLD := by
  rw [actionAt, if_neg (fun hc => absurd hc.1 (by decide)), if_neg (fun hc => absurd hc.1 (by decide))]

/-- A signal that is let through is one that nobody takes care of. -/
theorem Inv.not_guarded {orig : SigState ℕ η} {s : State η} (h : Inv orig s) {sig : ℕ}
    (hmask : s.sigs.mask sig = false) (haction : s.sigs.action sig ≠ .SIG_IGN) :
    ¬Guarded s.pc sig ∧ s.sigs.action sig = orig.action sig := by
  rw [h.mask, maskAt] at hmask
  rw [h.action, actionAt] at haction ⊢
  have hchld : ¬(sig = SIGCHLD ∧ s.pc.blocked) := fun hc => by
    rw [if_pos hc] at hmask
    cases hmask
  have hint : ¬(sig = SIGINT ∧ s.pc.intIgnored) := fun hc => by
    rw [if_pos hc] at haction
    exact haction rfl
  rw [if_neg hint] at haction ⊢
  have hquit : ¬(sig = SIGQUIT ∧ s.pc.quitIgnored) := fun hc => by
    rw [if_pos hc] at haction
    exact haction rfl
  rw [if_neg hquit]
  refine ⟨?_, rfl⟩
  rintro (hg | hg | hg)
  · exact hchld hg
  · exact hint hg
  · exact hquit hg

/-! ## Steps -/

section Steps

variable {orig : SigState ℕ η} {s : State η}

theorem maskAt_free {pc : Pc} (h : pc.blocked = false) : maskAt orig pc = orig.mask := by
  funext sig
  rw [maskAt, if_neg fun hc => by rw [h] at hc; exact Bool.false_ne_true hc.2]

theorem maskAt_blocked {pc : Pc} (h : pc.blocked = true) :
    maskAt orig pc = Function.update orig.mask SIGCHLD true := by
  funext sig
  rw [maskAt, Function.update_apply]
  simp only [h, and_true]

/-- SIGINT changes sides. -/
theorem actionAt_int {pc pc' : Pc} {d : Disposition η} (hquit : pc'.quitIgnored = pc.quitIgnored)
    (hd : d = if pc'.intIgnored then .SIG_IGN else orig.action SIGINT) :
    actionAt orig pc' = Function.update (actionAt orig pc) SIGINT d := by
  funext sig
  rw [Function.update_apply]
  by_cases hsig : sig = SIGINT
  · subst hsig
    rw [if_pos rfl, hd, actionAt]
    simp only [true_and, show ¬SIGINT = SIGQUIT by decide, false_and, if_false]
  · rw [if_neg hsig, actionAt, actionAt, hquit]
    simp only [hsig, false_and, if_false]

/-- SIGQUIT changes sides. -/
theorem actionAt_quit {pc pc' : Pc} {d : Disposition η} (hint : pc'.intIgnored = pc.intIgnored)
    (hd : d = if pc'.quitIgnored then .SIG_IGN else orig.action SIGQUIT) :
    actionAt orig pc' = Function.update (actionAt orig pc) SIGQUIT d := by
  funext sig
  rw [Function.update_apply]
  by_cases hsig : sig = SIGQUIT
  · subst hsig
    rw [if_pos rfl, hd, actionAt]
    simp only [true_and, show ¬SIGQUIT = SIGINT by decide, false_and, if_false]
  · rw [if_neg hsig, actionAt, actionAt, hint]
    simp only [hsig, false_and, if_false]

/-- A step that has to do with neither the mask, nor the dispositions, nor the place. -/
theorem Inv.of_pending {s' : State η} (h : Inv orig s) (hpc : s'.pc = s.pc)
    (hsigs : s'.sigs.mask = s.sigs.mask ∧ s'.sigs.action = s.sigs.action)
    (hsame : s'.origMask = s.origMask ∧ s'.saOrigInt = s.saOrigInt ∧ s'.saOrigQuit = s.saOrigQuit ∧
      s'.status = s.status ∧ s'.errno = s.errno ∧ s'.savedErrno = s.savedErrno)
    (hchild : s'.child = s.child)
    (hhandled : ∀ pc sig, (pc, sig) ∈ s'.handled → ¬Guarded pc sig ∧ ∃ f, orig.action sig = .handler f) :
    Inv orig s' := by
  obtain ⟨hmask, haction⟩ := hsigs
  obtain ⟨ho, hi, hq, hst, he, hse⟩ := hsame
  have hrep : s'.reported = s.reported := by rw [State.reported, State.reported, hpc, he, hse]
  refine ⟨by rw [hmask, hpc, h.mask], by rw [haction, hpc, h.action], by rw [hpc, ho]; exact h.origMask,
    by rw [hpc, hi]; exact h.saOrigInt, by rw [hpc, hq]; exact h.saOrigQuit,
    by rw [hpc, hchild]; exact h.noChild, by rw [hpc, hchild]; exact h.hasChild,
    by rw [hchild]; exact h.child, by rw [hpc, hchild, hst, hrep]; exact h.outcome, hhandled,
    by rw [hpc]; exact h.killed⟩

theorem Inv.generate (h : Inv orig s) (sig : ℕ) :
    Inv orig { s with sigs := s.sigs.generate harmless sig } :=
  h.of_pending rfl ⟨generate_mask .., generate_action ..⟩ ⟨rfl, rfl, rfl, rfl, rfl, rfl⟩ rfl h.handled

/-- A child that moves on, for a caller that still waits or has been killed. -/
theorem Inv.of_child (h : Inv orig s) {c c' : Child η} (hc : s.child = some c)
    (hrunning : c.pc.running) (hc' : ChildInv orig c') {sigs : SigState ℕ η}
    (hmask : sigs.mask = s.sigs.mask) (haction : sigs.action = s.sigs.action) :
    Inv orig { s with child := some c', sigs := sigs } := by
  refine ⟨hmask.trans h.mask, haction.trans h.action, h.origMask, h.saOrigInt, h.saOrigQuit,
    fun hr => ?_, fun _ => ⟨c', rfl⟩, fun c'' hc'' => ?_, fun hr hk => ?_, h.handled, h.killed⟩
  · rw [h.noChild hr] at hc
    cases hc
  · rw [Option.some.injEq] at hc''
    exact hc'' ▸ hc'
  · -- a caller that is past `waitpid()` has no child that runs
    cases h.outcome hr hk with
    | noChild hn => rw [hn] at hc; cases hc
    | waited hw hpc =>
      rw [hw, Option.some.injEq] at hc
      rw [← hc, hpc] at hrunning
      cases hrunning
    | gone hg hpc =>
      rw [hg, Option.some.injEq] at hc
      rw [← hc, hpc] at hrunning
      cases hrunning

theorem resetUnless_mask (d : Disposition η) (sig : ℕ) (sigs : SigState ℕ η) :
    (resetUnless d sig sigs).mask = sigs.mask := by
  cases d <;> rfl

/-- To leave an ignored signal alone and to reset any other is what `exec()` does. -/
theorem resetUnless_action (d : Disposition η) (sig : ℕ) (sigs : SigState ℕ η)
    (hign : sigs.action sig = .SIG_IGN) :
    (resetUnless d sig sigs).action = Function.update sigs.action sig d.exec := by
  cases d with
  | SIG_IGN =>
    have hsame : Function.update sigs.action sig .SIG_IGN = sigs.action := by
      rw [← hign, Function.update_eq_self]
    exact hsame.symm
  | SIG_DFL => rfl
  | handler f => rfl

theorem Inv.childStep {s' : State η} (h : Inv orig s) (hs : childStep s = some s') : Inv orig s' := by
  cases hc : s.child with
  | none => simp only [SystemFunction.childStep, hc, reduceCtorEq] at hs
  | some c =>
    have hci := h.child c hc
    have hrank : 3 < s.pc.rank := by
      by_contra hr
      rw [h.noChild (by omega)] at hc
      cases hc
    cases hpc : c.pc with
    | int =>
      simp only [SystemFunction.childStep, hc, hpc, Option.some.injEq] at hs
      rw [← hs]
      have hm := hci.mask (by rw [hpc]; rfl)
      have ha := hci.action (by rw [hpc]; rfl)
      refine h.of_child hc (by rw [hpc]; rfl) ⟨fun _ => ?_, fun _ => ?_, by simp, by simp⟩ rfl rfl
      · rw [resetUnless_mask, hm, hpc]
        rfl
      · rw [resetUnless_action _ _ _ (by rw [ha, hpc]; rfl), ha, hpc, h.saOrigInt (by omega)]
        funext sig
        rw [Function.update_apply]
        by_cases hsig : sig = SIGINT
        · subst hsig
          rw [if_pos rfl, childActionAt, if_pos rfl]
          rfl
        · rw [if_neg hsig, childActionAt, childActionAt, if_neg hsig, if_neg hsig]
          rfl
    | quit =>
      simp only [SystemFunction.childStep, hc, hpc, Option.some.injEq] at hs
      rw [← hs]
      have hm := hci.mask (by rw [hpc]; rfl)
      have ha := hci.action (by rw [hpc]; rfl)
      refine h.of_child hc (by rw [hpc]; rfl) ⟨fun _ => ?_, fun _ => ?_, by simp, by simp⟩ rfl rfl
      · rw [resetUnless_mask, hm, hpc]
        rfl
      · rw [resetUnless_action _ _ _ (by rw [ha, hpc]; rfl), ha, hpc, h.saOrigQuit (by omega)]
        funext sig
        rw [Function.update_apply]
        by_cases hsig : sig = SIGQUIT
        · subst hsig
          rw [if_pos rfl, childActionAt, if_neg (by decide), if_pos rfl]
          rfl
        · rw [if_neg hsig, childActionAt, childActionAt, if_neg hsig, if_neg hsig]
          rfl
    | setmask =>
      simp only [SystemFunction.childStep, hc, hpc, Option.some.injEq] at hs
      rw [← hs]
      have ha := hci.action (by rw [hpc]; rfl)
      refine h.of_child hc (by rw [hpc]; rfl) ⟨fun _ => ?_, fun _ => ?_, by simp, by simp⟩ rfl rfl
      · exact h.origMask (by omega)
      · exact ha.trans (by rw [hpc]; rfl)
    | exec =>
      simp only [SystemFunction.childStep, hc, hpc, Option.some.injEq] at hs
      rw [← hs]
      have hm := hci.mask (by rw [hpc]; rfl)
      have ha := hci.action (by rw [hpc]; rfl)
      refine h.of_child hc (by rw [hpc]; rfl) ⟨fun _ => ?_, fun _ => ?_, by simp, by simp⟩ rfl rfl
      · rw [show c.sigs.exec.mask = c.sigs.mask from rfl, hm, hpc]
        rfl
      · rw [show c.sigs.exec.action = fun sig => (c.sigs.action sig).exec from rfl, ha, hpc]
        funext sig
        simp only [childActionAt, ChildPc.keepsInt, ChildPc.keepsQuit, Bool.false_eq_true, if_false,
          reduceCtorEq, if_true]
        split
        · exact exec_exec _
        · split
          · exact exec_exec _
          · rfl
    | shell => simp only [SystemFunction.childStep, hc, hpc, reduceCtorEq] at hs
    | zombie status => simp only [SystemFunction.childStep, hc, hpc, reduceCtorEq] at hs
    | waitedFor status => simp only [SystemFunction.childStep, hc, hpc, reduceCtorEq] at hs
    | gone => simp only [SystemFunction.childStep, hc, hpc, reduceCtorEq] at hs

theorem Inv.childDies {s' : State η} {status : ℤ} (h : Inv orig s)
    (hs : childDies status s = some s') : Inv orig s' := by
  cases hc : s.child with
  | none => simp only [SystemFunction.childDies, hc, reduceCtorEq] at hs
  | some c =>
    simp only [SystemFunction.childDies, hc, Option.ite_none_right_eq_some, Option.some.injEq] at hs
    obtain ⟨hrunning, rfl⟩ := hs
    refine h.of_child hc hrunning ?_ (generate_mask ..) (generate_action ..)
    have haction : s.sigs.action SIGCHLD = orig.action SIGCHLD := by rw [h.action, actionAt_sigchld]
    rw [haction]
    cases hd : orig.action SIGCHLD with
    | SIG_IGN => exact ⟨nofun, nofun, by simp, fun _ => hd⟩
    | SIG_DFL => exact ⟨nofun, nofun, by simp [hd], by simp⟩
    | handler f => exact ⟨nofun, nofun, by simp [hd], by simp⟩

theorem Inv.deliver {s' : State η} {sig : ℕ} (h : Inv orig s) (hs : deliver sig s = some s') :
    Inv orig s' := by
  have hpc : s.pc ≠ .ret ∧ ∀ at_ sig', s.pc ≠ .killed at_ sig' := by
    constructor
    · intro hp
      rw [SystemFunction.deliver, hp] at hs
      cases hs
    · intro at_ sig' hp
      rw [SystemFunction.deliver, hp] at hs
      cases hs
  simp only [SystemFunction.deliver] at hs
  cases hd : s.sigs.deliver sig with
  | none => rw [hd] at hs; split at hs <;> cases hs
  | some r =>
    obtain ⟨d, sigs⟩ := r
    obtain ⟨-, hmask, hact, rfl⟩ := deliver_eq_some hd
    rw [hd] at hs
    have hquiet : ∀ s'' : State η, s'' = { s with
        sigs := { s.sigs with pending := Function.update s.sigs.pending sig false } } → Inv orig s'' := by
      rintro s'' rfl
      exact h.of_pending rfl ⟨rfl, rfl⟩ ⟨rfl, rfl, rfl, rfl, rfl, rfl⟩ rfl h.handled
    split at hs
    · cases hs
    · cases hs
    · cases d with
      | SIG_IGN =>
        simp only [Option.some.injEq] at hs
        exact hquiet s' hs.symm
      | handler f =>
        simp only [Option.some.injEq] at hs
        obtain ⟨hfree, horig⟩ := h.not_guarded hmask (by rw [← hact]; exact nofun)
        rw [← hs]
        refine h.of_pending rfl ⟨rfl, rfl⟩ ⟨rfl, rfl, rfl, rfl, rfl, rfl⟩ rfl fun pc sig' hmem => ?_
        rcases List.mem_append.mp hmem with hmem | hmem
        · exact h.handled pc sig' hmem
        · rw [List.mem_singleton, Prod.mk.injEq] at hmem
          rw [hmem.1, hmem.2]
          exact ⟨hfree, f, by rw [← horig, ← hact]⟩
      | SIG_DFL =>
        simp only at hs
        split at hs
        · rw [Option.some.injEq] at hs
          exact hquiet s' hs.symm
        · rw [Option.some.injEq] at hs
          obtain ⟨hfree, horig⟩ := h.not_guarded hmask (by rw [← hact]; exact nofun)
          rw [← hs]
          refine ⟨h.mask, h.action, h.origMask, h.saOrigInt, h.saOrigQuit, h.noChild, nofun, h.child,
            fun _ hk => absurd rfl (hk s.pc sig), h.handled, fun at_ sig' he => ?_⟩
          rw [Pc.killed.injEq] at he
          rw [← he.1, ← he.2]
          exact ⟨hfree, by rw [← horig, ← hact]⟩

/-- A call from `fork()` on: the locals with the old mask and dispositions stay. -/
theorem Inv.later {s' : State η} (h : Inv orig s) (hrank : 3 ≤ s.pc.rank)
    (hnext : 4 ≤ s'.pc.rank) (hmask : s'.sigs.mask = maskAt orig s'.pc)
    (haction : s'.sigs.action = actionAt orig s'.pc)
    (hlocals : s'.origMask = s.origMask ∧ s'.saOrigInt = s.saOrigInt ∧ s'.saOrigQuit = s.saOrigQuit)
    (hhas : s'.pc = .waitpid → ∃ c, s'.child = some c) (hci : ∀ c, s'.child = some c → ChildInv orig c)
    (houtcome : 5 ≤ s'.pc.rank → Outcome orig s'.child s'.status s'.reported)
    (hhandled : s'.handled = s.handled) (hkilled : ∀ at_ sig, s'.pc ≠ .killed at_ sig) : Inv orig s' := by
  obtain ⟨hm, hi, hq⟩ := hlocals
  exact ⟨hmask, haction, fun _ => hm.trans (h.origMask (by omega)),
    fun _ => hi.trans (h.saOrigInt (by omega)), fun _ => hq.trans (h.saOrigQuit hrank),
    fun hr => by omega, hhas, hci, fun hr _ => houtcome hr, by rw [hhandled]; exact h.handled,
    fun at_ sig hk => absurd hk (hkilled at_ sig)⟩

/-- The child as `fork()` makes it. -/
theorem Inv.fork (h : Inv orig s) (hpc : s.pc = .fork) :
    ChildInv orig { pc := .int, sigs := s.sigs.fork } := by
  refine ⟨fun _ => ?_, fun _ => ?_, by simp, by simp⟩
  · exact h.mask.trans (by rw [hpc]; rfl)
  · refine h.action.trans ?_
    rw [hpc]
    funext sig
    simp only [actionAt, childActionAt, Pc.intIgnored, Pc.quitIgnored, ChildPc.keepsInt,
      ChildPc.keepsQuit, and_true, if_true, reduceCtorEq, if_false]

theorem Inv.callerStep {e : Errno} {s' : State η} (h : Inv orig s) (hs : callerStep e s = some s') :
    Inv orig s' := by
  have hm := h.mask
  have ha := h.action
  cases hpc : s.pc with
  | block =>
    have hnone : s.child = none := h.noChild (by rw [hpc]; decide)
    simp only [SystemFunction.callerStep, hpc, Option.some.injEq] at hs
    rw [hpc, maskAt_free rfl] at hm
    rw [hpc] at ha
    rw [← hs]
    refine ⟨?_, ha, fun _ => hm, fun hr => absurd hr (by decide : ¬2 ≤ Pc.ignoreInt.rank),
      fun hr => absurd hr (by decide : ¬3 ≤ Pc.ignoreInt.rank), fun _ => hnone, nofun, h.child,
      fun hr => absurd hr (by decide : ¬5 ≤ Pc.ignoreInt.rank), h.handled, nofun⟩
    rw [maskAt_blocked rfl, ← hm]
    rfl
  | ignoreInt =>
    have hnone : s.child = none := h.noChild (by rw [hpc]; decide)
    simp only [SystemFunction.callerStep, hpc, Option.some.injEq] at hs
    rw [hpc] at hm ha
    rw [← hs]
    refine ⟨hm, ?_, fun _ => h.origMask (by rw [hpc]; decide), fun _ => ?_,
      fun hr => absurd hr (by decide : ¬3 ≤ Pc.ignoreQuit.rank), fun _ => hnone, nofun, h.child,
      fun hr => absurd hr (by decide : ¬5 ≤ Pc.ignoreQuit.rank), h.handled, nofun⟩
    · have hnow : actionAt orig .ignoreQuit = Function.update (actionAt orig .ignoreInt) SIGINT .SIG_IGN :=
        actionAt_int rfl rfl
      rw [sigaction_action, ha, hnow]
    · rw [ha]
      rfl
  | ignoreQuit =>
    have hnone : s.child = none := h.noChild (by rw [hpc]; decide)
    simp only [SystemFunction.callerStep, hpc, Option.some.injEq] at hs
    rw [hpc] at hm ha
    rw [← hs]
    refine ⟨hm, ?_, fun _ => h.origMask (by rw [hpc]; decide),
      fun _ => h.saOrigInt (by rw [hpc]; decide), fun _ => ?_, fun _ => hnone, nofun, h.child,
      fun hr => absurd hr (by decide : ¬5 ≤ Pc.fork.rank), h.handled, nofun⟩
    · have hnow : actionAt orig .fork = Function.update (actionAt orig .ignoreQuit) SIGQUIT .SIG_IGN :=
        actionAt_quit rfl rfl
      rw [sigaction_action, ha, hnow]
    · rw [ha]
      rfl
  | fork =>
    simp only [SystemFunction.callerStep, hpc, Option.some.injEq] at hs
    rw [hpc] at hm ha
    rw [← hs]
    refine h.later (by rw [hpc]; decide) (by decide : 4 ≤ Pc.waitpid.rank) hm ha ⟨rfl, rfl, rfl⟩
      (fun _ => ⟨_, rfl⟩) (fun c hc => ?_) (fun hr => absurd hr (by decide : ¬5 ≤ Pc.waitpid.rank)) rfl
      nofun
    rw [Option.some.injEq] at hc
    exact hc ▸ h.fork hpc
  | waitpid =>
    obtain ⟨c, hc⟩ := h.hasChild hpc
    have hci := h.child c hc
    simp only [SystemFunction.callerStep, hpc, hc] at hs
    rw [hpc] at hm ha
    cases hcpc : c.pc with
    | zombie status =>
      simp only [hcpc, Option.some.injEq] at hs
      rw [← hs]
      have hsigchld := hci.zombie status (.inl hcpc)
      refine h.later (by rw [hpc]; decide) (by decide : 4 ≤ Pc.saveErrno.rank) hm ha ⟨rfl, rfl, rfl⟩ nofun
        (fun c' hc' => ?_) (fun _ => .waited rfl rfl hsigchld) rfl nofun
      rw [Option.some.injEq] at hc'
      rw [← hc']
      exact ⟨nofun, nofun, fun _ _ => hsigchld, by simp⟩
    | gone =>
      simp only [hcpc, Option.some.injEq] at hs
      rw [← hs]
      refine h.later (by rw [hpc]; decide) (by decide : 4 ≤ Pc.saveErrno.rank) hm ha ⟨rfl, rfl, rfl⟩ nofun
        (fun c' hc' => ?_) (fun _ => .gone rfl hcpc rfl rfl (hci.gone hcpc)) rfl nofun
      rw [Option.some.injEq] at hc'
      exact hc' ▸ hci
    | int => simp only [hcpc, reduceCtorEq] at hs
    | quit => simp only [hcpc, reduceCtorEq] at hs
    | setmask => simp only [hcpc, reduceCtorEq] at hs
    | exec => simp only [hcpc, reduceCtorEq] at hs
    | shell => simp only [hcpc, reduceCtorEq] at hs
    | waitedFor status => simp only [hcpc, reduceCtorEq] at hs
  | saveErrno =>
    have ho := h.outcome (by rw [hpc]; decide) (by rw [hpc]; exact nofun)
    simp only [SystemFunction.callerStep, hpc, Option.some.injEq] at hs
    rw [hpc] at hm ha
    rw [State.reported, hpc] at ho
    rw [← hs]
    exact h.later (by rw [hpc]; decide) (by decide : 4 ≤ Pc.setmask.rank) hm ha ⟨rfl, rfl, rfl⟩ nofun
      h.child (fun _ => ho) rfl nofun
  | setmask =>
    have ho := h.outcome (by rw [hpc]; decide) (by rw [hpc]; exact nofun)
    simp only [SystemFunction.callerStep, hpc, Option.some.injEq] at hs
    rw [hpc] at ha
    rw [State.reported, hpc] at ho
    rw [← hs]
    refine h.later (by rw [hpc]; decide) (by decide : 4 ≤ Pc.restoreInt.rank) ?_ ha ⟨rfl, rfl, rfl⟩ nofun
      h.child (fun _ => ho) rfl nofun
    rw [maskAt_free rfl]
    exact h.origMask (by rw [hpc]; decide)
  | restoreInt =>
    have ho := h.outcome (by rw [hpc]; decide) (by rw [hpc]; exact nofun)
    have hint := h.saOrigInt (by rw [hpc]; decide)
    simp only [SystemFunction.callerStep, hpc, Option.some.injEq] at hs
    rw [hpc] at hm ha
    rw [State.reported, hpc] at ho
    rw [← hs]
    refine h.later (by rw [hpc]; decide) (by decide : 4 ≤ Pc.restoreQuit.rank) hm ?_ ⟨rfl, rfl, rfl⟩ nofun
      h.child (fun _ => ho) rfl nofun
    have hnow : actionAt orig .restoreQuit = Function.update (actionAt orig .restoreInt) SIGINT s.saOrigInt :=
      actionAt_int rfl hint
    rw [sigaction_action, ha, hnow]
  | restoreQuit =>
    have ho := h.outcome (by rw [hpc]; decide) (by rw [hpc]; exact nofun)
    have hquit := h.saOrigQuit (by rw [hpc]; decide)
    simp only [SystemFunction.callerStep, hpc, Option.some.injEq] at hs
    rw [hpc] at hm ha
    rw [State.reported, hpc] at ho
    rw [← hs]
    refine h.later (by rw [hpc]; decide) (by decide : 4 ≤ Pc.restoreErrno.rank) hm ?_ ⟨rfl, rfl, rfl⟩ nofun
      h.child (fun _ => ho) rfl nofun
    have hnow : actionAt orig .restoreErrno =
        Function.update (actionAt orig .restoreQuit) SIGQUIT s.saOrigQuit := actionAt_quit rfl hquit
    rw [sigaction_action, ha, hnow]
  | restoreErrno =>
    have ho := h.outcome (by rw [hpc]; decide) (by rw [hpc]; exact nofun)
    simp only [SystemFunction.callerStep, hpc, Option.some.injEq] at hs
    rw [hpc] at hm ha
    rw [State.reported, hpc] at ho
    rw [← hs]
    exact h.later (by rw [hpc]; decide) (by decide : 4 ≤ Pc.ret.rank) hm ha ⟨rfl, rfl, rfl⟩ nofun
      h.child (fun _ => ho) rfl nofun
  | ret => simp only [SystemFunction.callerStep, hpc, reduceCtorEq] at hs
  | killed at_ sig => simp only [SystemFunction.callerStep, hpc, reduceCtorEq] at hs

theorem Inv.callerFails {s' : State η} (h : Inv orig s) (hs : callerFails s = some s') :
    Inv orig s' := by
  have hm := h.mask
  have ha := h.action
  cases hpc : s.pc <;> simp only [SystemFunction.callerFails, hpc, reduceCtorEq, Option.some.injEq] at hs <;>
    rw [hpc] at hm ha <;> rw [← hs]
  case fork =>
    have hnone : s.child = none := h.noChild (by rw [hpc]; decide)
    exact h.later (by rw [hpc]; decide) (by decide : 4 ≤ Pc.saveErrno.rank) hm ha ⟨rfl, rfl, rfl⟩ nofun
      h.child (fun _ => .noChild hnone rfl rfl) rfl nofun
  case waitpid =>
    exact h.later (by rw [hpc]; decide) (by decide : 4 ≤ Pc.waitpid.rank) hm ha ⟨rfl, rfl, rfl⟩
      (fun _ => h.hasChild hpc) h.child (fun hr => absurd hr (by decide : ¬5 ≤ Pc.waitpid.rank)) rfl nofun

theorem Inv.step {a : Act} {s' : State η} (h : Inv orig s) (hs : step s a = some s') : Inv orig s' := by
  cases a with
  | caller e => exact h.callerStep hs
  | callerFails => exact h.callerFails hs
  | child => exact h.childStep hs
  | childDies status => exact h.childDies hs
  | generate sig =>
    rw [SystemFunction.step, Option.some.injEq] at hs
    rw [← hs]
    exact h.generate sig
  | deliver sig => exact h.deliver hs

end Steps

/-! ## What the caller of `system()` can rely on -/

theorem inv_of_reachable {orig : SigState ℕ η} {s : State η} (h : Reachable (system orig) s) :
    Inv orig s :=
  h.invariant (I := Inv orig) (fun _ hs => Called.inv hs) fun _ _ _ hi _ hs => hi.step hs

/-- A caller that catches SIGINT and SIGCHLD, and has nothing blocked. -/
def catcher : SigState ℕ ℕ where
  mask := fun _ => false
  pending := fun _ => false
  action := fun sig => if sig = SIGINT then .handler 1 else if sig = SIGCHLD then .handler 2 else .SIG_DFL

def catcherCall : State ℕ where
  pc := .block
  sigs := catcher
  origMask := fun _ => true
  saOrigInt := .SIG_DFL
  saOrigQuit := .SIG_DFL
  status := 7
  errno := .other 0
  savedErrno := .other 0
  child := none
  handled := []

theorem catcherCall_called : Called catcher catcherCall := ⟨rfl, rfl, rfl, rfl, rfl⟩

/-- Up to the shell: a SIGINT before the call gets to ignore it, and one after it. -/
def toTheShell : List Act :=
  [.generate SIGINT, .deliver SIGINT, .caller .EINTR, .caller .EINTR, .generate SIGINT, .caller .EINTR,
    .caller .EINTR, .child, .child, .child, .child]

/-- **Nobody gets in between, and the shell starts clean**: no handler for SIGCHLD runs while it is
blocked, nor one for SIGINT or SIGQUIT while it is ignored, and these do not kill the caller then;
and when the child executes the shell, its mask and all its dispositions are those that an `exec()`
by the caller itself would have led to. -/
theorem guarded_and_clean {orig : SigState ℕ η} {s : State η} (h : Reachable (system orig) s) :
    (∀ pc sig, (pc, sig) ∈ s.handled → ¬Guarded pc sig ∧ ∃ f, orig.action sig = .handler f) ∧
      (∀ at_ sig, s.pc = .killed at_ sig → ¬Guarded at_ sig ∧ orig.action sig = .SIG_DFL) ∧
      ∀ c, s.child = some c → c.pc = .shell →
        c.sigs.mask = orig.exec.mask ∧ c.sigs.action = orig.exec.action := by
  have hi := inv_of_reachable h
  refine ⟨hi.handled, hi.killed, fun c hc hpc => ?_⟩
  have hci := hi.child c hc
  have hm := hci.mask (by rw [hpc]; rfl)
  have ha := hci.action (by rw [hpc]; rfl)
  rw [hpc] at hm ha
  refine ⟨hm, ha.trans ?_⟩
  funext sig
  simp only [childActionAt, SigState.exec, ChildPc.keepsInt, ChildPc.keepsQuit, Bool.false_eq_true,
    if_false, if_true]
  split
  · rfl
  · split <;> rfl

theorem guarded_and_clean_catcher : ∃ s : State ℕ, Reachable (system catcher) s ∧
    ((∀ pc sig, (pc, sig) ∈ s.handled → ¬Guarded pc sig ∧ ∃ f, catcher.action sig = .handler f) ∧
      (∀ at_ sig, s.pc = .killed at_ sig → ¬Guarded at_ sig ∧ catcher.action sig = .SIG_DFL) ∧
      ∀ c, s.child = some c → c.pc = .shell →
        c.sigs.mask = catcher.exec.mask ∧ c.sigs.action = catcher.exec.action) ∧
    ∃ c, s.child = some c ∧ c.pc = .shell := by
  obtain ⟨s, hrun, c, hc, hpc⟩ : ∃ s, (system catcher).run catcherCall toTheShell = some s ∧
      ∃ c, s.child = some c ∧ c.pc = .shell := ⟨_, rfl, _, rfl, rfl⟩
  have hreach := System.reachable_of_run _ (.init catcherCall_called) hrun
  exact ⟨s, hreach, guarded_and_clean hreach, c, hc, hpc⟩

end Tlpi.SystemFunction
