/-
`procexec/multi_SIGCHLD.c`: a handler for SIGCHLD that reaps the children, and a parent that waits
in `sigsuspend()` until there are none left.

## What is modelled

`main()` with a step for each call, the handler that interrupts it, and the children, which die when
they like and with any status. SIGCHLD is also generated for reasons other than a child's death, as
`SA_NOCLDSTOP` is not set: a child that stops or goes on, or a `kill()` from somewhere. The kernel
picks the zombie that a `waitpid(-1, ...)` is given. The calls that may fail do so at any time.

## The shape of the argument

SIGCHLD does not queue, so that the number of signals says nothing about the number of dead
children. What holds instead, at every moment, is that a zombie has either a pending SIGCHLD behind
it or a handler that has yet to see `waitpid()` come back empty (`Inv.woken`): a child that dies
while the handler is about to leave makes the blocked signal pending, and the handler runs again.
Nobody is forgotten for this reason, and `sigsuspend()` is never entered for good, as SIGCHLD is
blocked between the test of `numLiveChildren` and the call.
-/
import Mathlib.Data.Int.Notation
import Mathlib.Data.List.Nodup
import Mathlib.Data.List.Perm.Subperm
import Mathlib.Data.List.Range
import Mathlib.Order.Interval.Finset.Nat
import Tlpi.Parties
import Tlpi.Signals
import Tlpi.Transition

set_option autoImplicit false

namespace Tlpi.MultiSigchld

open Tlpi.Signals Tlpi.Transition Tlpi.Parties

/-! ## The program -/

/-- The handlers there are. -/
inductive Handler where
  | sigchldHandler
deriving Repr, DecidableEq

/-- Where `main()` stands. -/
inductive Pc where
  | sigaction | sigprocmask
  | fork (j : ℕ)
  /-- At the condition of the loop. -/
  | test
  | sigsuspend
  /-- Within `sigsuspend()`. -/
  | suspended
  /-- `sigsuspend()` has returned. -/
  | woken
  | print
  | exited | failed
deriving Repr, DecidableEq

/-- Where the handler stands. -/
inductive HandlerPc where
  | waitpid
  | reaped (j : ℕ) (status : ℤ)
  | ret
deriving Repr, DecidableEq

inductive ChildPc where
  | absent
  | alive
  | zombie (status : ℤ)
  | waitedFor (status : ℤ)
deriving Repr, DecidableEq

structure State where
  pc : Pc
  /-- The handler that has interrupted `main()`, if one has. -/
  handler : Option HandlerPc
  sigs : SigState ℕ Handler
  /-- The mask that the return from the handler brings back. -/
  savedMask : ℕ → Bool
  numLiveChildren : ℤ
  sigCnt : ℤ
  child : ℕ → ChildPc
  /-- The children that the handler has reported, each with its status. -/
  reaped : List (ℕ × ℤ)

def blockMask (sig : ℕ) : Bool := sig == SIGCHLD

def emptyMask (_ : ℕ) : Bool := false

/-- One call of `main()`. -/
def mainStep (argc : ℕ) (s : State) : Option State :=
  match s.handler with
  | some _ => none
  | none =>
    match s.pc with
    | .sigaction =>
      some { s with
        pc := .sigprocmask, sigs := s.sigs.sigaction harmless SIGCHLD (.handler .sigchldHandler) }
    | .sigprocmask => some { s with pc := .fork 1, sigs := s.sigs.setmask blockMask }
    | .fork j =>
      if j < argc then some { s with pc := .fork (j + 1), child := Function.update s.child j .alive }
      else some { s with pc := .test }
    | .test => some { s with pc := if s.numLiveChildren > 0 then .sigsuspend else .print }
    | .sigsuspend =>
      some { s with pc := .suspended, savedMask := s.sigs.mask, sigs := s.sigs.setmask emptyMask }
    | .woken => some { s with pc := .test, sigCnt := s.sigCnt + 1 }
    | .print => some { s with pc := .exited }
    | .suspended | .exited | .failed => none

/-- A call fails, and `systmErr()` is the end of it. -/
def mainFails (argc : ℕ) (s : State) : Option State :=
  match s.handler with
  | some _ => none
  | none =>
    match s.pc with
    | .sigaction | .sigprocmask => some { s with pc := .failed }
    | .fork j => if j < argc then some { s with pc := .failed } else none
    | _ => none

def ChildPc.dead : ChildPc → Bool
  | .zombie _ => true
  | _ => false

/-- One call of the handler; `j` is the zombie that `waitpid()` finds, if it finds one. -/
def handlerStep (argc : ℕ) (j : ℕ) (s : State) : Option State :=
  match s.handler with
  | none => none
  | some .waitpid =>
    match s.child j with
    | .zombie status =>
      some { s with
        handler := some (.reaped j status), child := Function.update s.child j (.waitedFor status) }
    | _ =>
      -- 0, or -1 with ECHILD
      if (List.range argc).all fun i => !(s.child i).dead then some { s with handler := some .ret } else none
  | some (.reaped j status) =>
    some { s with
      handler := some .waitpid, numLiveChildren := s.numLiveChildren - 1, reaped := s.reaped ++ [(j, status)] }
  | some .ret =>
    some { s with
      handler := none, sigs := s.sigs.setmask s.savedMask
      pc := if s.pc = .suspended then .woken else s.pc }

def childDies (j : ℕ) (status : ℤ) (s : State) : Option State :=
  match s.child j with
  | .alive =>
    some { s with
      child := Function.update s.child j (.zombie status), sigs := s.sigs.generate harmless SIGCHLD }
  | _ => none

/-- SIGCHLD is delivered. The handler runs with SIGCHLD blocked; `sigsuspend()` has put away the mask
that is to come back. -/
def deliver (s : State) : Option State :=
  match s.handler with
  | some _ => none
  | none =>
    match s.sigs.deliver SIGCHLD with
    | none => none
    | some (.handler .sigchldHandler, sigs) =>
      some { s with
        handler := some .waitpid, sigs := sigs.block SIGCHLD
        savedMask := if s.pc = .suspended then s.savedMask else s.sigs.mask }
    | some (_, sigs) => some { s with sigs := sigs }

inductive Act where
  | main
  | mainFails
  | handler (j : ℕ)
  | childDies (j : ℕ) (status : ℤ)
  | deliver
  /-- A SIGCHLD that no death is behind. -/
  | stray
deriving Repr, DecidableEq

def step (argc : ℕ) (s : State) : Act → Option State
  | .main => mainStep argc s
  | .mainFails => mainFails argc s
  | .handler j => handlerStep argc j s
  | .childDies j status => childDies j status s
  | .deliver => if s.pc = .exited ∨ s.pc = .failed then none else deliver s
  | .stray => some { s with sigs := s.sigs.generate harmless SIGCHLD }

/-- The mask and the dispositions are those of whoever executed the program; its SIGCHLD is not
pending. -/
structure Starts (argc : ℕ) (s : State) : Prop where
  enough : 2 ≤ argc
  pc : s.pc = .sigaction
  handler : s.handler = none
  pending : s.sigs.pending SIGCHLD = false
  numLiveChildren : s.numLiveChildren = argc - 1
  sigCnt : s.sigCnt = 0
  child : ∀ j, s.child j = .absent
  reaped : s.reaped = []

def multiSigchld (argc : ℕ) : System State Act where
  init := Starts argc
  step := step argc

/-! ## The invariant -/

/-- The children that have been created: all of those before this one. -/
def Pc.created (argc : ℕ) : Pc → ℕ
  | .sigaction | .sigprocmask => 1
  | .fork j => j
  | _ => argc

/-- `sigaction()` is done. -/
def Pc.caught : Pc → Bool
  | .sigaction | .failed => false
  | _ => true

/-- SIGCHLD is blocked, unless a handler has interrupted it. -/
def Pc.blocks : Pc → Bool
  | .fork _ | .test | .sigsuspend | .woken | .print => true
  | _ => false

/-- Where a handler may interrupt it. -/
def Pc.open : Pc → Bool
  | .sigaction | .sigprocmask | .suspended => true
  | _ => false

structure Inv (argc : ℕ) (s : State) : Prop where
  enough : 2 ≤ argc
  action : s.pc.caught → s.sigs.action SIGCHLD = .handler .sigchldHandler
  blocked : s.pc.blocks ∨ s.handler.isSome → s.sigs.mask SIGCHLD = true
  unblocked : s.pc = .suspended → s.handler = none → s.sigs.mask SIGCHLD = false
  savedMask : s.pc = .suspended → s.savedMask SIGCHLD = true
  interrupted : s.handler.isSome → s.pc.open
  created : s.pc ≠ .failed → 1 ≤ s.pc.created argc ∧ s.pc.created argc ≤ argc ∧
    ∀ j, s.child j ≠ .absent ↔ 1 ≤ j ∧ j < s.pc.created argc
  /-- Nobody is forgotten. -/
  woken : s.pc ≠ .failed → (∃ j, (s.child j).dead) →
    s.sigs.pending SIGCHLD = true ∨ s.handler = some .waitpid ∨ ∃ j status, s.handler = some (.reaped j status)
  current : ∀ j status, s.handler = some (.reaped j status) →
    s.child j = .waitedFor status ∧ ∀ status', (j, status') ∉ s.reaped
  reaped : ∀ j status, (j, status) ∈ s.reaped ↔
    s.child j = .waitedFor status ∧ s.handler ≠ some (.reaped j status)
  nodup : (s.reaped.map Prod.fst).Nodup
  numLiveChildren : s.numLiveChildren = argc - 1 - s.reaped.length
  waiting : s.pc = .sigsuspend ∨ s.pc = .suspended ∧ s.handler = none → 0 < s.numLiveChildren
  done : s.pc = .print ∨ s.pc = .exited → s.numLiveChildren ≤ 0
  sigCnt : 0 ≤ s.sigCnt
  counted : s.reaped ≠ [] → 1 ≤ s.sigCnt ∨ s.pc = .woken ∨ s.pc = .suspended ∧ s.handler.isSome

theorem Starts.inv {argc : ℕ} {s : State} (h : Starts argc s) : Inv argc s where
  enough := h.enough
  action hc := by rw [h.pc] at hc; cases hc
  blocked hb := by
    rw [h.pc, h.handler] at hb
    rcases hb with hb | hb <;> cases hb
  unblocked hpc := by rw [h.pc] at hpc; cases hpc
  savedMask hpc := by rw [h.pc] at hpc; cases hpc
  interrupted hh := by rw [h.handler] at hh; cases hh
  created _ := by
    rw [h.pc]
    refine ⟨le_rfl, by have := h.enough; simp only [Pc.created]; omega, fun j => ?_⟩
    rw [h.child]
    simp only [ne_eq, not_true_eq_false, Pc.created, false_iff, not_and, not_lt, imp_self]
  woken _ hd := by
    obtain ⟨j, hd⟩ := hd
    rw [h.child] at hd
    cases hd
  current j status hc := by rw [h.handler] at hc; cases hc
  reaped j status := by
    rw [h.reaped, h.child]
    simp
  nodup := by
    rw [h.reaped]
    exact List.nodup_nil
  numLiveChildren := by
    rw [h.reaped, h.numLiveChildren]
    simp
  waiting hw := by
    rw [h.pc] at hw
    rcases hw with hw | hw
    · cases hw
    · cases hw.1
  done hd := by
    rw [h.pc] at hd
    rcases hd with hd | hd <;> cases hd
  sigCnt := h.sigCnt.ge
  counted hr := absurd h.reaped hr

/-! ## Steps -/

section Steps

variable {argc : ℕ} {s s' : State}

theorem update_absent_iff {child : ℕ → ChildPc} {c d : ChildPc} {j : ℕ} (hc : child j = c)
    (hca : c ≠ .absent) (hda : d ≠ .absent) (i : ℕ) :
    Function.update child j d i ≠ .absent ↔ child i ≠ .absent := by
  rw [Function.update_apply]
  split
  · rename_i hij
    subst hij
    rw [hc]
    exact iff_of_true hda hca
  · exact Iff.rfl

theorem Inv.mainStep (h : Inv argc s) (hs : mainStep argc s = some s') : Inv argc s' := by
  obtain ⟨pc, handler, sigs, savedMask, numLiveChildren, sigCnt, child, reaped⟩ := s
  cases handler with
  | some f => simp only [MultiSigchld.mainStep, reduceCtorEq] at hs
  | none =>
    cases pc with
    | sigaction =>
      obtain rfl := Option.some.inj hs
      exact { h with
        action := fun _ => by rw [sigaction_action, Function.update_self]
        blocked := by simp [Pc.blocks], unblocked := nofun, savedMask := nofun
        interrupted := nofun
        created := fun _ => h.created nofun
        woken := fun _ hd => by
          obtain ⟨j, hd⟩ := hd
          have hj := ((h.created nofun).2.2 j).mp fun habs => by
            simp only at habs hd
            rw [habs] at hd
            cases hd
          simp only [Pc.created] at hj
          omega
        waiting := by simp, done := by simp, counted := fun hr => by simpa using h.counted hr }
    | sigprocmask =>
      obtain rfl := Option.some.inj hs
      exact { h with
        action := fun _ => h.action rfl
        blocked := fun _ => rfl, unblocked := nofun, savedMask := nofun, interrupted := nofun
        created := fun _ => h.created nofun
        woken := fun _ => h.woken nofun
        waiting := by simp, done := by simp, counted := fun hr => by simpa using h.counted hr }
    | fork j =>
      simp only [MultiSigchld.mainStep] at hs
      have hcreated := h.created nofun
      simp only [Pc.created] at hcreated
      have habsent : child j = .absent := by
        by_contra hne
        have := (hcreated.2.2 j).mp hne
        omega
      split at hs
      · rename_i hlt
        obtain rfl := Option.some.inj hs
        exact { h with
          action := fun _ => h.action rfl
          blocked := fun _ => h.blocked (.inl rfl), unblocked := nofun, savedMask := nofun
          interrupted := nofun
          created := fun _ => by
            refine ⟨by simp only [Pc.created]; omega, hlt, fun i => ?_⟩
            simp only [Pc.created, Function.update_apply]
            split
            · rename_i hij
              simp only [ne_eq, reduceCtorEq, not_false_eq_true, true_iff]
              omega
            · rename_i hij
              have := hcreated.2.2 i
              rw [this]
              omega
          woken := fun _ hd => by
            obtain ⟨i, hd⟩ := hd
            refine h.woken nofun ⟨i, ?_⟩
            simp only [Function.update_apply] at hd
            split at hd
            · cases hd
            · exact hd
          current := nofun
          reaped := fun i status => by
            rw [h.reaped]
            simp only [Function.update_apply, ne_eq, reduceCtorEq, not_false_eq_true, and_true]
            split
            · rename_i hij
              rw [hij, habsent]
              simp only [reduceCtorEq]
            · exact Iff.rfl
          waiting := by simp, done := by simp, counted := fun hr => by simpa using h.counted hr }
      · rename_i hge
        obtain rfl := Option.some.inj hs
        have hj : j = argc := by omega
        subst hj
        exact { h with
          action := fun _ => h.action rfl
          blocked := fun _ => h.blocked (.inl rfl), unblocked := nofun, savedMask := nofun
          interrupted := nofun
          created := fun _ => hcreated
          woken := fun _ => h.woken nofun
          waiting := by simp, done := by simp, counted := fun hr => by simpa using h.counted hr }
    | test =>
      obtain rfl := Option.some.inj hs
      have hcounted := h.counted
      simp only [reduceCtorEq, false_and, or_false] at hcounted
      split
      · rename_i hpos
        exact { h with
          action := fun _ => h.action rfl
          blocked := fun _ => h.blocked (.inl rfl), unblocked := nofun, savedMask := nofun
          interrupted := nofun
          created := fun _ => h.created nofun
          woken := fun _ => h.woken nofun
          waiting := fun _ => hpos, done := by simp, counted := fun hr => .inl (hcounted hr) }
      · rename_i hpos
        exact { h with
          action := fun _ => h.action rfl
          blocked := fun _ => h.blocked (.inl rfl), unblocked := nofun, savedMask := nofun
          interrupted := nofun
          created := fun _ => h.created nofun
          woken := fun _ => h.woken nofun
          waiting := by simp, done := fun _ => not_lt.mp hpos, counted := fun hr => .inl (hcounted hr) }
    | sigsuspend =>
      obtain rfl := Option.some.inj hs
      exact { h with
        action := fun _ => h.action rfl
        blocked := by simp [Pc.blocks], unblocked := fun _ _ => rfl
        savedMask := fun _ => h.blocked (.inl rfl)
        interrupted := nofun
        created := fun _ => h.created nofun
        woken := fun _ => h.woken nofun
        waiting := fun _ => h.waiting (.inl rfl), done := by simp
        counted := fun hr => by simpa using h.counted hr }
    | woken =>
      obtain rfl := Option.some.inj hs
      exact { h with
        action := fun _ => h.action rfl
        blocked := fun _ => h.blocked (.inl rfl), unblocked := nofun, savedMask := nofun
        interrupted := nofun
        created := fun _ => h.created nofun
        woken := fun _ => h.woken nofun
        waiting := by simp, done := by simp
        sigCnt := by have := h.sigCnt; simp only at this ⊢; omega
        counted := fun _ => by have := h.sigCnt; simp only at this ⊢; omega }
    | print =>
      obtain rfl := Option.some.inj hs
      exact { h with
        action := fun _ => h.action rfl
        blocked := by simp [Pc.blocks], unblocked := nofun, savedMask := nofun
        interrupted := nofun
        created := fun _ => h.created nofun
        woken := fun _ => h.woken nofun
        waiting := by simp, done := fun _ => h.done (.inl rfl)
        counted := fun hr => by simpa using h.counted hr }
    | suspended => simp only [MultiSigchld.mainStep, reduceCtorEq] at hs
    | exited => simp only [MultiSigchld.mainStep, reduceCtorEq] at hs
    | failed => simp only [MultiSigchld.mainStep, reduceCtorEq] at hs

theorem Inv.mainFails (h : Inv argc s) (hs : mainFails argc s = some s') : Inv argc s' := by
  obtain ⟨pc, handler, sigs, savedMask, numLiveChildren, sigCnt, child, reaped⟩ := s
  -- wherever it fails, `sigsuspend()` is still to come
  have failed : ∀ pc' : Pc, handler = none → pc ≠ .woken → pc ≠ .suspended →
      Inv argc { pc := .failed, handler, sigs, savedMask, numLiveChildren, sigCnt, child, reaped } :=
    fun _ hnone hwoken hsuspended => { h with
      action := nofun
      blocked := by simp [Pc.blocks, hnone], unblocked := nofun, savedMask := nofun
      interrupted := by simp [hnone]
      created := fun hne => absurd rfl hne, woken := fun hne => absurd rfl hne
      waiting := by simp, done := by simp
      counted := fun hr => by simpa [hwoken, hsuspended] using h.counted hr }
  cases handler with
  | some f => simp only [MultiSigchld.mainFails, reduceCtorEq] at hs
  | none =>
    cases pc with
    | sigaction =>
      obtain rfl := Option.some.inj hs
      exact failed .sigaction rfl nofun nofun
    | sigprocmask =>
      obtain rfl := Option.some.inj hs
      exact failed .sigprocmask rfl nofun nofun
    | fork j =>
      simp only [MultiSigchld.mainFails, Option.ite_none_right_eq_some, Option.some.injEq] at hs
      rw [← hs.2]
      exact failed (.fork j) rfl nofun nofun
    | _ => simp only [MultiSigchld.mainFails, reduceCtorEq] at hs

theorem Inv.handlerStep {j : ℕ} (h : Inv argc s) (hs : handlerStep argc j s = some s') : Inv argc s' := by
  obtain ⟨pc, handler, sigs, savedMask, numLiveChildren, sigCnt, child, reaped⟩ := s
  cases handler with
  | none => simp only [MultiSigchld.handlerStep, reduceCtorEq] at hs
  | some f =>
    have hopen := h.interrupted rfl
    have hmask := h.blocked (.inr rfl)
    cases f with
    | waitpid =>
      simp only [MultiSigchld.handlerStep] at hs
      split at hs
      · rename_i status hj
        obtain rfl := Option.some.inj hs
        have hchanges := update_absent_iff (d := .waitedFor status) hj nofun nofun
        exact { h with
          blocked := fun _ => hmask, unblocked := nofun, interrupted := fun _ => hopen
          created := fun hpc => ⟨(h.created hpc).1, (h.created hpc).2.1, fun i =>
            (hchanges i).trans ((h.created hpc).2.2 i)⟩
          woken := fun _ _ => .inr (.inr ⟨j, status, rfl⟩)
          current := fun i status' hi => by
            simp only [Option.some.injEq, HandlerPc.reaped.injEq] at hi
            rw [← hi.1, ← hi.2]
            refine ⟨Function.update_self .., fun status'' hmem => ?_⟩
            have hwaited := ((h.reaped _ _).mp hmem).1
            simp only [hj, reduceCtorEq] at hwaited
          reaped := fun i status' => by
            rw [h.reaped]
            simp only [Function.update_apply, ne_eq, Option.some.injEq, reduceCtorEq, not_false_eq_true,
              and_true, HandlerPc.reaped.injEq, not_and]
            split
            · rename_i hij
              subst hij
              rw [hj]
              simp only [reduceCtorEq, ChildPc.waitedFor.injEq, forall_const, false_iff, not_and, not_not,
                imp_self]
            · rename_i hij
              exact ⟨fun hc => ⟨hc, fun he => absurd he.symm hij⟩, fun hc => hc.1⟩
          waiting := fun hw => h.waiting (hw.imp id fun hw => absurd hw.2 nofun) }
      · simp only [Option.ite_none_right_eq_some, Option.some.injEq] at hs
        obtain ⟨hnone, rfl⟩ := hs
        exact { h with
          blocked := fun _ => hmask, unblocked := nofun, interrupted := fun _ => hopen
          woken := fun hpc hd => by
            obtain ⟨i, hd⟩ := hd
            have hi := ((h.created hpc).2.2 i).mp fun habs => by
              simp only at habs hd
              rw [habs] at hd
              cases hd
            have hle := (h.created hpc).2.1
            have halive := List.all_eq_true.mp hnone i (List.mem_range.mpr (by omega))
            rw [hd] at halive
            cases halive
          current := nofun
          reaped := fun i status => by
            rw [h.reaped]
            simp
          waiting := fun hw => h.waiting (hw.imp id fun hw => absurd hw.2 nofun) }
    | reaped i status =>
      obtain rfl := Option.some.inj hs
      obtain ⟨hwaited, hnew⟩ := h.current i status rfl
      simp only at hwaited
      exact { h with
        blocked := fun _ => hmask, unblocked := nofun, interrupted := fun _ => hopen
        woken := fun _ _ => .inr (.inl rfl)
        current := nofun
        reaped := fun k status' => by
          rw [List.mem_append, h.reaped, List.mem_singleton, Prod.mk.injEq]
          simp only [ne_eq, Option.some.injEq, HandlerPc.reaped.injEq, reduceCtorEq, not_false_eq_true, and_true]
          constructor
          · rintro (hc | ⟨rfl, rfl⟩)
            · exact hc.1
            · exact hwaited
          · intro hc
            by_cases hk : i = k ∧ status = status'
            · exact .inr ⟨hk.1.symm, hk.2.symm⟩
            · exact .inl ⟨hc, hk⟩
        nodup := by
          rw [List.map_append, List.map_singleton]
          refine List.nodup_append.mpr ⟨h.nodup, List.nodup_singleton _, ?_⟩
          rintro k hk k' hk' rfl
          rw [List.mem_singleton] at hk'
          obtain ⟨⟨i', status'⟩, hmem, rfl⟩ := List.mem_map.mp hk
          simp only at hk'
          exact hnew status' (hk' ▸ hmem)
        numLiveChildren := by
          have := h.numLiveChildren
          simp only at this
          rw [List.length_append, List.length_singleton, this]
          push_cast
          omega
        waiting := fun hw => by
          rcases hw with hw | hw
          · rw [hw] at hopen
            cases hopen
          · cases hw.2
        done := fun hd => by
          simp only at hd
          rcases hd with hd | hd <;> rw [hd] at hopen <;> cases hopen
        counted := fun _ => by
          refine .inr (.inr ⟨?_, rfl⟩)
          -- before the children are created there is nobody to reap
          have hcreated := h.created fun hf => by simp only at hf; rw [hf] at hopen; cases hopen
          have hi := (hcreated.2.2 i).mp fun habs => by
            simp only [hwaited, reduceCtorEq] at habs
          cases pc <;> simp only [Pc.open, Bool.false_eq_true] at hopen <;> simp only [Pc.created] at hi
          · omega
          · omega
          · rfl }
    | ret =>
      obtain rfl := Option.some.inj hs
      have hreaped : ∀ i status, (i, status) ∈ reaped ↔
          child i = .waitedFor status ∧ (none : Option HandlerPc) ≠ some (.reaped i status) := fun i status => by
        rw [h.reaped]
        simp
      have hno : ∀ {P : Prop}, (some HandlerPc.ret = some HandlerPc.waitpid ∨
          ∃ j status, some HandlerPc.ret = some (HandlerPc.reaped j status)) → P := by
        rintro P (hc | ⟨_, _, hc⟩) <;> cases hc
      split
      · rename_i hpc
        simp only at hpc
        subst hpc
        have hwoken := h.woken nofun
        exact { h with
          action := fun _ => h.action rfl
          blocked := fun _ => h.savedMask rfl, unblocked := nofun, savedMask := nofun, interrupted := nofun
          created := fun _ => h.created nofun
          woken := fun _ hd => .inl ((hwoken hd).resolve_right hno)
          current := nofun, reaped := hreaped
          waiting := by simp, done := by simp, counted := fun _ => .inr (.inl rfl) }
      · rename_i hpc
        have hblocks : pc.blocks = false := by
          cases pc <;> first | rfl | cases hopen
        exact { h with
          blocked := by simp [hblocks], unblocked := fun hsusp => absurd hsusp hpc, interrupted := nofun
          woken := fun hfailed hd => .inl ((h.woken hfailed hd).resolve_right hno)
          current := nofun, reaped := hreaped
          waiting := fun hw => by
            rcases hw with hw | hw
            · rw [hw] at hopen
              cases hopen
            · exact absurd hw.1 hpc
          counted := fun hr => by
            have hc := h.counted hr
            simp only [show pc ≠ .suspended from hpc, false_and, or_false] at hc
            exact hc.imp id .inl }

theorem Inv.childDies {j : ℕ} {status : ℤ} (h : Inv argc s) (hs : childDies j status s = some s') :
    Inv argc s' := by
  cases hj : s.child j with
  | alive =>
    simp only [MultiSigchld.childDies, hj, Option.some.injEq] at hs
    rw [← hs]
    have hchanges := update_absent_iff (d := .zombie status) hj nofun nofun
    exact { h with
      action := fun hc => by rw [generate_action]; exact h.action hc
      blocked := fun hb => by rw [generate_mask]; exact h.blocked hb
      unblocked := fun hpc hh => by rw [generate_mask]; exact h.unblocked hpc hh
      created := fun hpc => ⟨(h.created hpc).1, (h.created hpc).2.1, fun i =>
        (hchanges i).trans ((h.created hpc).2.2 i)⟩
      woken := fun hpc _ => by
        -- its SIGCHLD is not lost: there is a handler
        have hcaught : s.pc.caught := by
          have hexists := ((h.created hpc).2.2 j).mp fun habs => by rw [hj] at habs; cases habs
          cases hp : s.pc <;> first | rfl | skip
          · rw [hp] at hexists
            simp only [Pc.created] at hexists
            omega
          · exact absurd hp hpc
        rw [generate_pending_of_handler _ _ _ (h.action hcaught)]
        exact .inl (Function.update_self ..)
      current := fun i status' hi => by
        obtain ⟨hwaited, hnew⟩ := h.current i status' hi
        have hij : i ≠ j := fun hij => by
          rw [hij, hj] at hwaited
          cases hwaited
        exact ⟨(Function.update_of_ne hij _ s.child).trans hwaited, hnew⟩
      reaped := fun i status' => by
        rw [h.reaped]
        refine and_congr_left fun _ => ?_
        simp only [Function.update_apply]
        split
        · rename_i hij
          rw [hij, hj]
          exact iff_of_false nofun nofun
        · exact Iff.rfl }
  | absent => simp only [MultiSigchld.childDies, hj, reduceCtorEq] at hs
  | zombie status => simp only [MultiSigchld.childDies, hj, reduceCtorEq] at hs
  | waitedFor status => simp only [MultiSigchld.childDies, hj, reduceCtorEq] at hs

theorem Inv.stray (h : Inv argc s) : Inv argc { s with sigs := s.sigs.generate harmless SIGCHLD } :=
  { h with
    action := fun hc => by rw [generate_action]; exact h.action hc
    blocked := fun hb => by rw [generate_mask]; exact h.blocked hb
    unblocked := fun hpc hh => by rw [generate_mask]; exact h.unblocked hpc hh
    woken := fun hpc hd => (h.woken hpc hd).imp_left (generate_pending_mono _ _ _) }

/-- A delivery starts the handler, as far as `main()` has got ready for it. -/
theorem deliver_cases (h : Inv argc s) (hs : deliver s = some s') :
    s.handler = none ∧ s.sigs.pending SIGCHLD = true ∧ s.pc.blocks = false ∧
      ((∃ sigs, s' = { s with
          handler := some .waitpid, sigs := sigs.block SIGCHLD
          savedMask := if s.pc = .suspended then s.savedMask else s.sigs.mask } ∧
          sigs = { s.sigs with pending := Function.update s.sigs.pending SIGCHLD false }) ∨
        s.pc.caught = false ∧
          s' = { s with sigs := { s.sigs with pending := Function.update s.sigs.pending SIGCHLD false } }) := by
  cases hh : s.handler with
  | some f => simp only [MultiSigchld.deliver, hh, reduceCtorEq] at hs
  | none =>
    cases hd : s.sigs.deliver SIGCHLD with
    | none => simp only [MultiSigchld.deliver, hh, hd, reduceCtorEq] at hs
    | some r =>
      obtain ⟨d, sigs⟩ := r
      obtain ⟨hpending, hmask, hact, rfl⟩ := deliver_eq_some hd
      have hblocks : s.pc.blocks = false := by
        by_contra hb
        rw [h.blocked (.inl (by simpa using hb))] at hmask
        cases hmask
      refine ⟨rfl, hpending, hblocks, ?_⟩
      simp only [MultiSigchld.deliver, hh, hd] at hs
      cases d with
      | handler f =>
        cases f
        exact .inl ⟨_, (Option.some.inj hs).symm, rfl⟩
      | SIG_DFL =>
        refine .inr ⟨?_, (Option.some.inj hs).symm⟩
        by_contra hc
        rw [h.action (by simpa using hc)] at hact
        cases hact
      | SIG_IGN =>
        refine .inr ⟨?_, (Option.some.inj hs).symm⟩
        by_contra hc
        rw [h.action (by simpa using hc)] at hact
        cases hact

theorem Inv.deliver (h : Inv argc s) (hgoes : ¬(s.pc = .exited ∨ s.pc = .failed))
    (hs : deliver s = some s') : Inv argc s' := by
  obtain ⟨hnone, hpending, hblocks, ⟨sigs, rfl, rfl⟩ | ⟨hcaught, rfl⟩⟩ := deliver_cases h hs
  · have hopen : s.pc.open := by
      cases hp : s.pc <;> simp_all [Pc.blocks, Pc.open]
    exact { h with
      blocked := fun _ => by rw [block_mask, Function.update_self]
      unblocked := nofun
      savedMask := fun hpc => by
        simp only at hpc
        simp only [hpc, if_true]
        exact h.savedMask hpc
      interrupted := fun _ => hopen
      woken := fun _ _ => .inr (.inl rfl)
      current := nofun
      reaped := fun i status => by
        rw [h.reaped, hnone]
        simp
      waiting := fun hw => h.waiting (hw.imp id fun hw => absurd hw.2 nofun)
      counted := fun hr => (h.counted hr).imp id (Or.imp id fun hc => ⟨hc.1, rfl⟩) }
  · exact { h with
      woken := fun hfailed hd => by
        obtain ⟨i, hd⟩ := hd
        have hi := ((h.created hfailed).2.2 i).mp fun habs => by
          simp only at habs hd
          rw [habs] at hd
          cases hd
        cases hp : s.pc <;> rw [hp] at hcaught hi <;> cases hcaught
        · simp only [Pc.created] at hi
          omega
        · exact absurd hp hfailed }

theorem Inv.step {a : Act} (h : Inv argc s) (hs : step argc s a = some s') : Inv argc s' := by
  cases a with
  | main => exact h.mainStep hs
  | mainFails => exact h.mainFails hs
  | handler j => exact h.handlerStep hs
  | childDies j status => exact h.childDies hs
  | deliver =>
    simp only [MultiSigchld.step, Option.ite_none_left_eq_some] at hs
    exact h.deliver hs.1 hs.2
  | stray =>
    rw [MultiSigchld.step, Option.some.injEq] at hs
    rw [← hs]
    exact h.stray

end Steps

/-! ## A run with two children -/

/-- The parent inherits an empty mask. -/
def start (argc : ℕ) : State where
  pc := .sigaction
  handler := none
  sigs := { mask := fun _ => false, pending := fun _ => false, action := fun _ => .SIG_DFL }
  savedMask := fun _ => false
  numLiveChildren := argc - 1
  sigCnt := 0
  child := fun _ => .absent
  reaped := []

theorem start_starts {argc : ℕ} (h : 2 ≤ argc) : Starts argc (start argc) :=
  ⟨h, rfl, rfl, rfl, rfl, rfl, fun _ => rfl, rfl⟩

/-- Both children die before the parent waits, and it is woken once. -/
def bothEarly : List Act :=
  [.main, .main, .main, .main, .childDies 1 0, .childDies 2 256, .main, .main, .main, .deliver,
    .handler 2, .handler 0, .handler 1, .handler 0, .handler 0, .handler 0, .main, .main, .main]

/-! ## Everybody is reaped -/

theorem inv_of_reachable {argc : ℕ} {s : State} (h : Reachable (multiSigchld argc) s) : Inv argc s :=
  h.invariant (I := Inv argc) (fun _ hs => Starts.inv hs) fun _ _ _ hi _ hs => hi.step hs

/-- No call fails, and every SIGCHLD comes from a death. -/
def Quiet (_ : State) : Act → Prop
  | .mainFails | .stray => False
  | _ => True

instance (s : State) (a : Act) : Decidable (Quiet s a) := by
  cases a <;> unfold Quiet <;> infer_instance

/-- How many steps of its own `main()` takes before it waits again. -/
def Pc.budget : Pc → ℕ
  | .sigaction => 5
  | .sigprocmask => 4
  | .fork _ | .woken => 3
  | .test => 2
  | .sigsuspend | .print => 1
  | .suspended | .exited | .failed => 0

/-- The same for the handler, and for `main()` after it. -/
def handlerBudget : Option HandlerPc → ℕ
  | some (.reaped _ _) => 6
  | some .waitpid => 5
  | some .ret => 4
  | none => 0

/-- What the rest of a child's life gives rise to. -/
def ChildPc.budget : ChildPc → ℕ
  | .absent => 10
  | .alive => 9
  | .zombie _ => 2
  | .waitedFor _ => 0

def pendingBudget (pending : Bool) : ℕ := if pending then 6 else 0

def State.budget (argc : ℕ) (s : State) : ℕ :=
  ∑ j ∈ Finset.Ico 1 argc, (s.child j).budget +
    (s.pc.budget + handlerBudget s.handler + pendingBudget (s.sigs.pending SIGCHLD))

theorem pendingBudget_le (pending : Bool) : pendingBudget pending ≤ 6 := by
  cases pending <;> decide

theorem State.budget_le (argc : ℕ) (s : State) : s.budget argc ≤ 10 * argc + 17 := by
  have hchildren : ∑ j ∈ Finset.Ico 1 argc, (s.child j).budget ≤ ∑ _j ∈ Finset.Ico 1 argc, 10 :=
    Finset.sum_le_sum fun j _ => by cases s.child j <;> simp [ChildPc.budget]
  have hpc : s.pc.budget ≤ 5 := by cases s.pc <;> simp [Pc.budget]
  have hhandler : handlerBudget s.handler ≤ 6 := by
    rcases s.handler with _ | (_ | _ | _) <;> simp [handlerBudget]
  have hpending := pendingBudget_le (s.sigs.pending SIGCHLD)
  rw [Finset.sum_const_nat fun _ _ => rfl, Nat.card_Ico] at hchildren
  rw [State.budget]
  omega

section Budget

variable {argc : ℕ} {s s' : State}

/-- A child that is somewhere is one of those that were created. -/
theorem Inv.mem_Ico (h : Inv argc s) (hok : s.pc ≠ .failed) {j : ℕ} (hj : s.child j ≠ .absent) :
    j ∈ Finset.Ico 1 argc := by
  have hcreated := h.created hok
  have := (hcreated.2.2 j).mp hj
  exact Finset.mem_Ico.mpr (by omega)

theorem mainStep_budget (h : Inv argc s) (hs : mainStep argc s = some s') :
    s'.budget argc < s.budget argc ∧ s'.pc ≠ .failed := by
  obtain ⟨pc, handler, sigs, savedMask, numLiveChildren, sigCnt, child, reaped⟩ := s
  cases handler with
  | some f => simp only [mainStep, reduceCtorEq] at hs
  | none =>
    cases pc with
    | fork j =>
      simp only [mainStep] at hs
      have hcreated := h.created (fun hc => by cases hc)
      simp only [Pc.created] at hcreated
      split at hs
      · rename_i hlt
        obtain rfl := Option.some.inj hs
        have habsent : child j = .absent := by
          by_contra hne
          have := (hcreated.2.2 j).mp hne
          omega
        have hsum := sum_update_mem ChildPc.budget child .alive (Finset.mem_Ico.mpr ⟨hcreated.1, hlt⟩)
        rw [habsent] at hsum
        change _ + 10 = _ + 9 at hsum
        refine ⟨?_, fun hc => by cases hc⟩
        simp only [State.budget, Pc.budget]
        omega
      · obtain rfl := Option.some.inj hs
        exact ⟨by simp only [State.budget, Pc.budget]; omega, fun hc => by cases hc⟩
    | test =>
      obtain rfl := Option.some.inj hs
      split
      · exact ⟨by simp only [State.budget, Pc.budget]; omega, fun hc => by cases hc⟩
      · exact ⟨by simp only [State.budget, Pc.budget]; omega, fun hc => by cases hc⟩
    | sigaction | sigprocmask | sigsuspend | woken | print =>
      obtain rfl := Option.some.inj hs
      refine ⟨?_, fun hc => by cases hc⟩
      simp only [State.budget, Pc.budget, SigState.sigaction, SigState.setmask, Disposition.ignores,
        Bool.false_eq_true, if_false]
      omega
    | suspended | exited | failed => simp only [mainStep, reduceCtorEq] at hs

theorem handlerStep_budget {j : ℕ} (h : Inv argc s) (hok : s.pc ≠ .failed)
    (hs : handlerStep argc j s = some s') : s'.budget argc < s.budget argc ∧ s'.pc ≠ .failed := by
  obtain ⟨pc, handler, sigs, savedMask, numLiveChildren, sigCnt, child, reaped⟩ := s
  cases handler with
  | none => simp only [handlerStep, reduceCtorEq] at hs
  | some f =>
    cases f with
    | waitpid =>
      simp only [handlerStep] at hs
      split at hs
      · rename_i status hj
        obtain rfl := Option.some.inj hs
        have hmem := h.mem_Ico hok (j := j) (by simp only; rw [hj]; nofun)
        have hsum := sum_update_mem ChildPc.budget child (.waitedFor status) hmem
        rw [hj] at hsum
        change _ + 2 = _ + 0 at hsum
        refine ⟨?_, hok⟩
        simp only [State.budget, handlerBudget]
        omega
      · simp only [Option.ite_none_right_eq_some, Option.some.injEq] at hs
        rw [← hs.2]
        refine ⟨?_, hok⟩
        simp only [State.budget, handlerBudget]
        omega
    | reaped i status =>
      obtain rfl := Option.some.inj hs
      refine ⟨?_, hok⟩
      simp only [State.budget, handlerBudget]
      omega
    | ret =>
      obtain rfl := Option.some.inj hs
      have hopen := h.interrupted rfl
      split
      · rename_i hpc
        simp only at hpc
        subst hpc
        refine ⟨?_, nofun⟩
        simp only [State.budget, handlerBudget, Pc.budget, SigState.setmask]
        omega
      · refine ⟨?_, hok⟩
        simp only [State.budget, handlerBudget, SigState.setmask]
        omega

theorem childDies_budget {j : ℕ} {status : ℤ} (h : Inv argc s) (hok : s.pc ≠ .failed)
    (hs : childDies j status s = some s') : s'.budget argc < s.budget argc ∧ s'.pc ≠ .failed := by
  cases hj : s.child j with
  | alive =>
    simp only [childDies, hj, Option.some.injEq] at hs
    rw [← hs]
    have hsum := sum_update_mem ChildPc.budget s.child (.zombie status)
      (h.mem_Ico hok (j := j) (by rw [hj]; nofun))
    rw [hj] at hsum
    change _ + 9 = _ + 2 at hsum
    refine ⟨?_, hok⟩
    have hpending := pendingBudget_le ((s.sigs.generate harmless SIGCHLD).pending SIGCHLD)
    simp only [State.budget]
    omega
  | absent | zombie status | waitedFor status => simp only [childDies, hj, reduceCtorEq] at hs

theorem deliver_budget (h : Inv argc s) (hok : s.pc ≠ .failed) (hs : deliver s = some s') :
    s'.budget argc < s.budget argc ∧ s'.pc ≠ .failed := by
  obtain ⟨hnone, hpending, -, ⟨sigs, rfl, rfl⟩ | ⟨-, rfl⟩⟩ := deliver_cases h hs
  · refine ⟨?_, hok⟩
    simp only [State.budget, SigState.block, Function.update_self, hnone, hpending, handlerBudget,
      pendingBudget, if_true, Bool.false_eq_true, if_false]
    omega
  · refine ⟨?_, hok⟩
    simp only [State.budget, Function.update_self, hpending, pendingBudget, if_true, Bool.false_eq_true,
      if_false]
    omega

theorem budget_step {a : Act} (h : Inv argc s) (hok : s.pc ≠ .failed) (hC : Quiet s a)
    (hs : step argc s a = some s') : s'.budget argc < s.budget argc ∧ s'.pc ≠ .failed := by
  cases a with
  | main => exact mainStep_budget h hs
  | handler j => exact handlerStep_budget h hok hs
  | childDies j status => exact childDies_budget h hok hs
  | deliver =>
    simp only [step, Option.ite_none_left_eq_some] at hs
    exact deliver_budget h hok hs.2
  | mainFails => exact hC.elim
  | stray => exact hC.elim

/-- As long as the program has not exited, something can happen: for one that waits, a death or a
delivery. -/
theorem not_stuck (h : Inv argc s) (hok : s.pc ≠ .failed) (hexit : s.pc ≠ .exited) :
    ∃ a s', Quiet s a ∧ step argc s a = some s' := by
  cases hh : s.handler with
  | some f =>
    cases f with
    | waitpid =>
      by_cases hd : ∃ j status, s.child j = .zombie status
      · obtain ⟨j, status, hj⟩ := hd
        exact ⟨.handler j, _, trivial, by simp only [step, handlerStep, hh, hj]; rfl⟩
      · have hnone : ((List.range argc).all fun i => !(s.child i).dead) = true := by
          refine List.all_eq_true.mpr fun i _ => ?_
          cases hi : s.child i with
          | zombie status => exact absurd ⟨i, status, hi⟩ hd
          | _ => rfl
        refine ⟨.handler 0, { s with handler := some .ret }, trivial, ?_⟩
        simp only [step, handlerStep, hh]
        split
        · rename_i status hz
          exact absurd ⟨0, status, hz⟩ hd
        · rw [if_pos hnone]
    | reaped j status => exact ⟨.handler 0, _, trivial, by simp only [step, handlerStep, hh]; rfl⟩
    | ret => exact ⟨.handler 0, _, trivial, by simp only [step, handlerStep, hh]; rfl⟩
  | none =>
    cases hpc : s.pc with
    | failed => exact absurd hpc hok
    | exited => exact absurd hpc hexit
    | suspended =>
      by_cases hp : s.sigs.pending SIGCHLD = true
      · have hmask := h.unblocked hpc hh
        have hact := h.action (by rw [hpc]; rfl)
        exact ⟨.deliver, _, trivial, by
          simp only [step, deliver, hh, hpc, SigState.deliver, hp, hmask, hact, Bool.not_false,
            Bool.and_self, if_true, reduceCtorEq, or_self, if_false]
          rfl⟩
      · -- nobody has died unseen, and somebody is left
        have hlive : ∃ j, s.child j = .alive := by
          by_contra hno
          have hzombie : ∀ j, (s.child j).dead = false := fun j => by
            by_contra hd
            rcases h.woken hok ⟨j, by simpa using hd⟩ with hp' | hc | ⟨i, st, hc⟩
            · exact hp hp'
            · rw [hh] at hc
              cases hc
            · rw [hh] at hc
              cases hc
          have hwaited : ∀ j, 1 ≤ j → j < argc → j ∈ s.reaped.map Prod.fst := fun j h1 h2 => by
            have hne := ((h.created hok).2.2 j).mpr ⟨h1, by rw [hpc]; exact h2⟩
            cases hj : s.child j with
            | absent => exact absurd hj hne
            | alive => exact absurd ⟨j, hj⟩ hno
            | zombie status =>
              have := hzombie j
              rw [hj] at this
              cases this
            | waitedFor status =>
              refine List.mem_map.mpr ⟨(j, status), (h.reaped j status).mpr ⟨hj, ?_⟩, rfl⟩
              rw [hh]
              intro hc
              cases hc
          have hsub : List.range' 1 (argc - 1) ⊆ s.reaped.map Prod.fst := fun j hj => by
            rw [List.mem_range'_1] at hj
            exact hwaited j hj.1 (by omega)
          have hle := (List.Nodup.subperm List.nodup_range' hsub).length_le
          rw [List.length_range', List.length_map] at hle
          have hpos := h.waiting (.inr ⟨hpc, hh⟩)
          rw [h.numLiveChildren] at hpos
          omega
        obtain ⟨j, hj⟩ := hlive
        exact ⟨.childDies j 0, _, trivial, by simp only [step, childDies, hj]; rfl⟩
    | fork j =>
      by_cases hj : j < argc
      · exact ⟨.main, _, trivial, by simp only [step, mainStep, hh, hpc, hj, if_true]; rfl⟩
      · exact ⟨.main, _, trivial, by simp only [step, mainStep, hh, hpc, hj, if_false]; rfl⟩
    | sigaction | sigprocmask | test | sigsuspend | woken | print =>
      exact ⟨.main, _, trivial, by simp only [step, mainStep, hh, hpc]; rfl⟩

end Budget

/-- **No wakeup is lost**: from wherever the program has got to, and however its children's deaths
and their signals come about, it goes on for no more than ten steps for each child and a few of its
own, and the only place where nothing more can happen is behind its `exit()`. -/
theorem always_exits {argc : ℕ} {s s' : State} (h : Reachable (multiSigchld argc) s) (hok : s.pc ≠ .failed)
    (as : List Act) (hs : (multiSigchld argc).runWith Quiet s as = some s') :
    as.length ≤ 10 * argc + 17 ∧
      ((∀ a s'', Quiet s' a → step argc s' a ≠ some s'') → s'.pc = .exited) := by
  obtain ⟨⟨hi', hok'⟩, hle⟩ := System.runWith_measure (S := multiSigchld argc)
    (I := fun s => Inv argc s ∧ s.pc ≠ .failed) (m := State.budget argc)
    (fun s a s' hi hC hs => ⟨⟨hi.1.step hs, (budget_step hi.1 hi.2 hC hs).2⟩, (budget_step hi.1 hi.2 hC hs).1⟩)
    as ⟨inv_of_reachable h, hok⟩ hs
  have hbudget := s.budget_le argc
  refine ⟨by omega, fun hstuck => ?_⟩
  by_contra hexit
  obtain ⟨a, s'', hC, hs''⟩ := not_stuck hi' hok' hexit
  exact hstuck a s'' hC hs''

theorem always_exits_two : ∃ s : State, (multiSigchld 3).runWith Quiet (start 3) bothEarly = some s ∧
    bothEarly.length ≤ 10 * 3 + 17 ∧
      ((∀ a s'', Quiet s a → step 3 s a ≠ some s'') → s.pc = .exited) := by
  obtain ⟨s, hrun⟩ : ∃ s, (multiSigchld 3).runWith Quiet (start 3) bothEarly = some s := ⟨_, rfl⟩
  exact ⟨s, hrun, always_exits (.init (start_starts (by decide))) nofun bothEarly hrun⟩

/-! ## How often SIGCHLD is caught -/

/-- Every SIGCHLD comes from a death. -/
def FromDeath (_ : State) (a : Act) : Prop := a ≠ .stray

instance (s : State) (a : Act) : Decidable (FromDeath s a) := inferInstanceAs (Decidable (a ≠ .stray))

def ChildPc.deaths : ChildPc → ℕ
  | .absent | .alive => 0
  | .zombie _ | .waitedFor _ => 1

def State.deaths (argc : ℕ) (s : State) : ℕ := ∑ j ∈ Finset.Ico 1 argc, (s.child j).deaths

/-- The signals that are on their way to `sigCnt`. -/
def State.uncounted (s : State) : ℕ :=
  (decide (s.pc = .woken)).toNat + s.handler.isSome.toNat + (s.sigs.pending SIGCHLD).toNat

section Deaths

variable {argc : ℕ} {s s' : State}

theorem mainStep_deaths (h : Inv argc s) (hle : s.sigCnt + s.uncounted ≤ s.deaths argc)
    (hs : mainStep argc s = some s') : s'.sigCnt + s'.uncounted ≤ s'.deaths argc := by
  obtain ⟨pc, handler, sigs, savedMask, numLiveChildren, sigCnt, child, reaped⟩ := s
  cases handler with
  | some f => simp only [mainStep, reduceCtorEq] at hs
  | none =>
    cases pc with
    | fork j =>
      simp only [mainStep] at hs
      have hcreated := h.created nofun
      simp only [Pc.created] at hcreated
      split at hs
      · rename_i hlt
        obtain rfl := Option.some.inj hs
        have habsent : child j = .absent := by
          by_contra hne
          have := (hcreated.2.2 j).mp hne
          omega
        have hsum := sum_update_mem ChildPc.deaths child .alive (Finset.mem_Ico.mpr ⟨hcreated.1, hlt⟩)
        rw [habsent] at hsum
        change _ + 0 = _ + 0 at hsum
        simp only [State.uncounted, State.deaths, reduceCtorEq, decide_false] at hle ⊢
        omega
      · obtain rfl := Option.some.inj hs
        exact hle
    | test =>
      obtain rfl := Option.some.inj hs
      split <;> exact hle
    | woken =>
      obtain rfl := Option.some.inj hs
      simp only [State.uncounted, State.deaths, reduceCtorEq, decide_true, decide_false, Bool.toNat_true,
        Bool.toNat_false] at hle ⊢
      omega
    | sigaction | sigprocmask | sigsuspend | print =>
      obtain rfl := Option.some.inj hs
      exact hle
    | suspended | exited | failed => simp only [mainStep, reduceCtorEq] at hs

theorem handlerStep_deaths {j : ℕ} (h : Inv argc s) (hok : s.pc ≠ .failed)
    (hle : s.sigCnt + s.uncounted ≤ s.deaths argc) (hs : handlerStep argc j s = some s') :
    s'.sigCnt + s'.uncounted ≤ s'.deaths argc := by
  obtain ⟨pc, handler, sigs, savedMask, numLiveChildren, sigCnt, child, reaped⟩ := s
  cases handler with
  | none => simp only [handlerStep, reduceCtorEq] at hs
  | some f =>
    cases f with
    | waitpid =>
      simp only [handlerStep] at hs
      split at hs
      · rename_i status hj
        obtain rfl := Option.some.inj hs
        have hmem := h.mem_Ico hok (j := j) (by simp only; rw [hj]; nofun)
        have hsum := sum_update_mem ChildPc.deaths child (.waitedFor status) hmem
        rw [hj] at hsum
        change _ + 1 = _ + 1 at hsum
        simp only [State.uncounted, State.deaths] at hle ⊢
        rw [Option.isSome_some] at hle ⊢
        omega
      · simp only [Option.ite_none_right_eq_some, Option.some.injEq] at hs
        rw [← hs.2]
        exact hle
    | reaped i status =>
      obtain rfl := Option.some.inj hs
      exact hle
    | ret =>
      obtain rfl := Option.some.inj hs
      -- what leaves the handler is on its way to the counter, or was never to be counted
      simp only [State.uncounted, State.deaths, SigState.setmask, Option.isSome_some, Option.isSome_none,
        Bool.toNat_true, Bool.toNat_false] at hle ⊢
      split
      · simp only [decide_true, Bool.toNat_true]
        omega
      · omega

theorem childDies_deaths {j : ℕ} {status : ℤ} (h : Inv argc s) (hok : s.pc ≠ .failed)
    (hle : s.sigCnt + s.uncounted ≤ s.deaths argc) (hs : childDies j status s = some s') :
    s'.sigCnt + s'.uncounted ≤ s'.deaths argc := by
  cases hj : s.child j with
  | alive =>
    simp only [childDies, hj, Option.some.injEq] at hs
    rw [← hs]
    have hsum := sum_update_mem ChildPc.deaths s.child (.zombie status)
      (h.mem_Ico hok (j := j) (by rw [hj]; nofun))
    rw [hj] at hsum
    change _ + 0 = _ + 1 at hsum
    have hpending := Bool.toNat_le ((s.sigs.generate harmless SIGCHLD).pending SIGCHLD)
    simp only [State.uncounted, State.deaths] at hle ⊢
    omega
  | absent | zombie status | waitedFor status => simp only [childDies, hj, reduceCtorEq] at hs

theorem deliver_deaths (h : Inv argc s) (hle : s.sigCnt + s.uncounted ≤ s.deaths argc)
    (hs : deliver s = some s') : s'.sigCnt + s'.uncounted ≤ s'.deaths argc := by
  obtain ⟨hnone, hpending, -, ⟨sigs, rfl, rfl⟩ | ⟨-, rfl⟩⟩ := deliver_cases h hs
  · simp only [State.uncounted, State.deaths, SigState.block, Function.update_self, hnone, hpending,
      Option.isSome_some, Option.isSome_none, Bool.toNat_true, Bool.toNat_false] at hle ⊢
    omega
  · simp only [State.uncounted, State.deaths, Function.update_self, hpending, Bool.toNat_true,
      Bool.toNat_false] at hle ⊢
    omega

/-- There is no way back from a failure. -/
theorem pc_of_failed {a : Act} (hfailed : s.pc = .failed) (hs : step argc s a = some s') :
    s'.pc = .failed := by
  cases a with
  | main =>
    simp only [step, mainStep, hfailed] at hs
    split at hs <;> cases hs
  | mainFails =>
    simp only [step, mainFails, hfailed] at hs
    split at hs <;> cases hs
  | handler j =>
    simp only [step, handlerStep] at hs
    split at hs
    · cases hs
    · split at hs
      · obtain rfl := Option.some.inj hs
        exact hfailed
      · rw [Option.ite_none_right_eq_some, Option.some.injEq] at hs
        rw [← hs.2]
        exact hfailed
    · obtain rfl := Option.some.inj hs
      exact hfailed
    · obtain rfl := Option.some.inj hs
      simp only [hfailed, reduceCtorEq, if_false]
  | childDies j status =>
    simp only [step, childDies] at hs
    split at hs
    · obtain rfl := Option.some.inj hs
      exact hfailed
    · cases hs
  | deliver => simp only [step, hfailed, or_true, if_true, reduceCtorEq] at hs
  | stray =>
    obtain rfl := Option.some.inj hs
    exact hfailed

theorem mainFails_pc (hs : mainFails argc s = some s') : s'.pc = .failed := by
  unfold mainFails at hs
  split at hs
  · cases hs
  · split at hs
    · obtain rfl := Option.some.inj hs
      rfl
    · obtain rfl := Option.some.inj hs
      rfl
    · rw [Option.ite_none_right_eq_some, Option.some.injEq] at hs
      rw [← hs.2]
    · cases hs

theorem deaths_step {a : Act} (h : Inv argc s) (hC : FromDeath s a) (hs : step argc s a = some s')
    (hle : s.pc ≠ .failed → s.sigCnt + s.uncounted ≤ s.deaths argc) (hok' : s'.pc ≠ .failed) :
    s'.sigCnt + s'.uncounted ≤ s'.deaths argc := by
  have hok : s.pc ≠ .failed := fun hfailed => hok' (pc_of_failed hfailed hs)
  have hle := hle hok
  cases a with
  | main => exact mainStep_deaths h hle hs
  | mainFails => exact absurd (mainFails_pc hs) hok'
  | handler j => exact handlerStep_deaths h hok hle hs
  | childDies j status => exact childDies_deaths h hok hle hs
  | deliver =>
    simp only [step, Option.ite_none_left_eq_some] at hs
    exact deliver_deaths h hle hs.2
  | stray => exact absurd rfl hC

end Deaths

theorem Starts.counted {argc : ℕ} {s : State} (h : Starts argc s) :
    s.sigCnt + s.uncounted ≤ s.deaths argc := by
  simp only [State.uncounted, h.sigCnt, h.pc, h.handler, h.pending, reduceCtorEq, decide_false,
    Option.isSome_none, Bool.toNat_false, zero_add]
  exact Int.natCast_nonneg _

/-- **Dead children may share a signal, and none of them sends two**: at every moment of a run whose
signals all come from deaths, SIGCHLD has been caught at most once for each child that is dead. -/
theorem sigCnt_le_deaths {argc : ℕ} {s : State} (h : Reaches (multiSigchld argc) FromDeath s)
    (hok : s.pc ≠ .failed) : s.sigCnt ≤ s.deaths argc := by
  have hi := h.invariant (I := fun s => Inv argc s ∧ (s.pc ≠ .failed → s.sigCnt + s.uncounted ≤ s.deaths argc))
    (fun _ hs => ⟨Starts.inv hs, fun _ => Starts.counted hs⟩)
    fun _ _ _ hi hC hs => ⟨hi.1.step hs, deaths_step hi.1 hC hs hi.2⟩
  have hle := hi.2 hok
  omega

theorem sigCnt_le_deaths_two : ∃ s : State, Reaches (multiSigchld 3) FromDeath s ∧ s.pc = .exited ∧
    s.sigCnt = 1 ∧ s.sigCnt ≤ s.deaths 3 := by
  obtain ⟨s, hrun, hpc, hcnt⟩ : ∃ s, (multiSigchld 3).runWith FromDeath (start 3) bothEarly = some s ∧
      s.pc = .exited ∧ s.sigCnt = 1 := ⟨_, rfl, rfl, rfl⟩
  have h := System.reaches_of_runWith bothEarly (.init (start_starts (by decide))) hrun
  exact ⟨s, h, hpc, hcnt, sigCnt_le_deaths h (by rw [hpc]; nofun)⟩

end Tlpi.MultiSigchld
