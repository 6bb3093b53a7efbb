/-
`altio/self_pipe.c`: the self-pipe trick. The handler of SIGINT writes a byte into a pipe of which
`main()` has the read end among the descriptors that it selects on.

## What is modelled

`main()` and the handler with a step for each system call and for each test of its result, `errno`
included: the handler may run between the return of `select()` or `read()` and the test of `errno`.
The pipe holds `capacity` bytes at most. SIGINT is generated at any time; the other descriptors become
ready, and the timeout comes, when they like. The calls that may fail do so at any time.

`seen` is a history variable: how often the handler had written, or tried to, when `select()` was
successful. The program does not read it; the number of those times so far is `handled`.

## The shape of the argument

Until `select()` is successful nothing is read from the pipe, so that it is empty if and only if the
handler has never got to its `write()`: a full pipe is not an empty one (`Inv.holds`). What `select()`
says of the read end then tells whether a signal was handled. A signal that is handled while the loop
around `select()` is anywhere but in the call is told of by the next call, and `errno` is what the call
left there whenever it is tested, because the handler puts it back.
-/
import Mathlib.Data.Int.Notation
import Mathlib.Logic.Function.Basic
import Tlpi.Signals
import Tlpi.Transition

set_option autoImplicit false

namespace Tlpi.SelfPipe

open Tlpi.Signals Tlpi.Transition

/-! ## The program -/

inductive Errno where
  | EINTR | EAGAIN
  | other (n : ℕ)
deriving Repr, DecidableEq

/-- The handlers there are. -/
inductive Handler where
  | handler
deriving Repr, DecidableEq

/-- Where `main()` stands. -/
inductive Pc where
  | pipe | nonblockRead | nonblockWrite | sigaction
  | select
  /-- Within `select()`. -/
  | selecting
  /-- At the condition of the loop. -/
  | selected
  /-- At the test for an unexpected error. -/
  | checkReady
  | isset
  | read
  /-- At the test of `errno`, after a `read()` that returned -1. -/
  | readFailed
  | report
  | exited | failed
  /-- SIGINT has killed it. -/
  | killed
deriving Repr, DecidableEq

/-- Where the handler stands. -/
inductive HandlerPc where
  | saveErrno | write
  /-- At the test of what `write()` returned. -/
  | check (ret : ℤ)
  | restoreErrno
deriving Repr, DecidableEq

structure State where
  pc : Pc
  /-- The handler that has interrupted `main()`, if one has. -/
  handler : Option HandlerPc
  sigs : SigState ℕ Handler
  /-- The mask that the return from the handler brings back. -/
  savedMask : ℕ → Bool
  savedErrno : Errno
  errno : Errno
  nonblockRead : Bool
  nonblockWrite : Bool
  /-- The bytes in the pipe, once it has been created. -/
  pipe : Option ℕ
  ready : ℤ
  /-- The read end is in `readfds`. -/
  issetPipe : Bool
  /-- The other descriptors in `readfds`. -/
  readfds : List ℕ
  /-- The message has been printed. -/
  caught : Bool
  handled : ℕ
  seen : Option ℕ

/-- One call or test of `main()`, apart from the return from `select()`. -/
def mainStep (s : State) : Option State :=
  match s.handler with
  | some _ => none
  | none =>
    match s.pc with
    | .pipe => some { s with pc := .nonblockRead, pipe := some 0 }
    | .nonblockRead => some { s with pc := .nonblockWrite, nonblockRead := true }
    | .nonblockWrite => some { s with pc := .sigaction, nonblockWrite := true }
    | .sigaction =>
      some { s with pc := .select, sigs := s.sigs.sigaction harmless SIGINT (.handler .handler) }
    | .select => some { s with pc := .selecting }
    | .selecting => none
    | .selected => some { s with pc := if s.ready = -1 ∧ s.errno = .EINTR then .select else .checkReady }
    | .checkReady => some { s with pc := if s.ready = -1 then .failed else .isset }
    | .isset => some (if s.issetPipe then { s with pc := .read, caught := true } else { s with pc := .report })
    | .read =>
      match s.pipe with
      | some (n + 1) => some { s with pipe := some n }
      -- with the flag not set the call would wait
      | some 0 => if s.nonblockRead then some { s with pc := .readFailed, errno := .EAGAIN } else none
      | none => none
    | .readFailed => some { s with pc := if s.errno = .EAGAIN then .report else .failed }
    | .report => some { s with pc := .exited }
    | .exited | .failed | .killed => none

/-- A call fails: `select()` with an error of its own, the others to end the program. -/
def mainFails (n : ℕ) (s : State) : Option State :=
  match s.handler with
  | some _ => none
  | none =>
    match s.pc with
    | .pipe | .nonblockRead | .nonblockWrite | .sigaction => some { s with pc := .failed }
    | .select => some { s with pc := .selected, ready := -1, errno := .other n }
    | _ => none

/-- `select()` returns, with the descriptors of `rs` and with the read end of the pipe, if that is
ready; or with none at all, when the time is over. -/
def selects (rs : List ℕ) (timeout : Bool) (s : State) : Option State :=
  match s.handler with
  | some _ => none
  | none =>
    match s.pc, s.pipe with
    | .selecting, some n =>
      if 0 < n ∨ rs ≠ [] ∨ timeout then
        some { s with
          pc := .selected, ready := rs.length + if 0 < n then 1 else 0, issetPipe := decide (0 < n)
          readfds := rs, seen := some s.handled }
      else none
    | _, _ => none

/-- One call or test of the handler. Its return interrupts `select()`. -/
def handlerStep (capacity : ℕ) (s : State) : Option State :=
  match s.handler with
  | none => none
  | some .saveErrno => some { s with handler := some .write, savedErrno := s.errno }
  | some .write =>
    match s.pipe with
    | none => none
    | some n =>
      if n < capacity then
        some { s with handler := some (.check 1), pipe := some (n + 1), handled := s.handled + 1 }
      else if s.nonblockWrite then
        some { s with handler := some (.check (-1)), errno := .EAGAIN, handled := s.handled + 1 }
      else none
  | some (.check ret) =>
    if ret = -1 ∧ s.errno ≠ .EAGAIN then some { s with handler := none, pc := .failed }
    else some { s with handler := some .restoreErrno }
  | some .restoreErrno =>
    if s.pc = .selecting then
      some { s with
        handler := none, sigs := s.sigs.setmask s.savedMask, pc := .selected, ready := -1, errno := .EINTR }
    else some { s with handler := none, sigs := s.sigs.setmask s.savedMask, errno := s.savedErrno }

/-- SIGINT is delivered. The handler runs with SIGINT blocked. -/
def deliver (s : State) : Option State :=
  match s.handler with
  | some _ => none
  | none =>
    match s.sigs.deliver SIGINT with
    | none => none
    | some (.handler .handler, sigs) =>
      some { s with handler := some .saveErrno, sigs := sigs.block SIGINT, savedMask := s.sigs.mask }
    | some (.SIG_IGN, sigs) => some { s with sigs := sigs }
    | some (.SIG_DFL, sigs) => some { s with sigs := sigs, pc := .killed }

def Pc.ended : Pc → Bool
  | .exited | .failed | .killed => true
  | _ => false

inductive Act where
  | main
  | mainFails (n : ℕ)
  | selects (rs : List ℕ) (timeout : Bool)
  | handler
  | deliver
  | generate
deriving Repr, DecidableEq

def step (capacity : ℕ) (s : State) : Act → Option State
  | .main => mainStep s
  | .mainFails n => mainFails n s
  | .selects rs timeout => selects rs timeout s
  | .handler => handlerStep capacity s
  | .deliver => if s.pc.ended then none else deliver s
  | .generate => some { s with sigs := s.sigs.generate harmless SIGINT }

/-- The mask and the dispositions are those of whoever executed the program, which has no handler
left. -/
structure Starts (s : State) : Prop where
  pc : s.pc = .pipe
  handler : s.handler = none
  action : ∀ f, s.sigs.action SIGINT ≠ .handler f
  pipe : s.pipe = none
  caught : s.caught = false
  handled : s.handled = 0
  seen : s.seen = none

def selfPipe (capacity : ℕ) : System State Act where
  init := Starts
  step := step capacity

/-! ## The invariant -/

/-- How much of the set-up is done. -/
def Pc.rank : Pc → ℕ
  | .pipe | .failed | .killed => 0
  | .nonblockRead => 1
  | .nonblockWrite => 2
  | .sigaction => 3
  | _ => 4

/-- The handler is still to be established. -/
def Pc.early : Pc → Bool
  | .pipe | .nonblockRead | .nonblockWrite | .sigaction => true
  | _ => false

/-- Nothing has been read from the pipe. -/
def Pc.undrained : Pc → Bool
  | .nonblockRead | .nonblockWrite | .sigaction | .select | .selecting | .selected | .checkReady | .isset => true
  | _ => false

/-- `select()` has told of the pipe what there is to tell. -/
def Seen (seen : Option ℕ) (told : Bool) : Prop := ∃ k, seen = some k ∧ (told = true ↔ 0 < k)

structure Inv (capacity : ℕ) (s : State) : Prop where
  fits : s.pipe.getD 0 ≤ capacity
  pipe : 1 ≤ s.pc.rank → ∃ n, s.pipe = some n ∧ n ≤ capacity
  nonblockRead : 2 ≤ s.pc.rank → s.nonblockRead = true
  nonblockWrite : 3 ≤ s.pc.rank → s.nonblockWrite = true
  early : s.pc.early → (∀ f, s.sigs.action SIGINT ≠ .handler f) ∧ s.handled = 0
  action : 4 ≤ s.pc.rank → s.sigs.action SIGINT = .handler .handler
  handler : s.handler.isSome → 4 ≤ s.pc.rank
  /-- An empty pipe is one that nobody has written to. -/
  holds : s.pc.undrained → ∀ n, s.pipe = some n → (0 < n ↔ 0 < s.handled)
  uncaught : s.pc.early ∨ s.pc.undrained → s.caught = false
  selected : s.pc = .selected ∨ s.pc = .checkReady → s.ready ≠ -1 → Seen s.seen s.issetPipe
  isset : s.pc = .isset → Seen s.seen s.issetPipe
  drained : s.pc = .read ∨ s.pc = .readFailed ∨ s.pc = .report ∨ s.pc = .exited → Seen s.seen s.caught

theorem Starts.inv {capacity : ℕ} {s : State} (h : Starts s) : Inv capacity s where
  fits := by
    rw [h.pipe]
    exact Nat.zero_le _
  pipe hr := by rw [h.pc] at hr; cases hr
  nonblockRead hr := by rw [h.pc] at hr; cases hr
  nonblockWrite hr := by rw [h.pc] at hr; cases hr
  early _ := ⟨h.action, h.handled⟩
  action hr := by rw [h.pc] at hr; cases hr
  handler hh := by rw [h.handler] at hh; cases hh
  holds hu := by rw [h.pc] at hu; cases hu
  uncaught _ := h.caught
  selected hp := by rw [h.pc] at hp; rcases hp with hp | hp <;> cases hp
  isset hp := by rw [h.pc] at hp; cases hp
  drained hp := by rw [h.pc] at hp; rcases hp with hp | hp | hp | hp <;> cases hp

section Steps

variable {capacity : ℕ} {s s' : State}

/-- A failure leaves nothing to be said. -/
theorem inv_over (h : s.pc = .failed ∨ s.pc = .killed) (hnone : s.handler = none)
    (hfits : s.pipe.getD 0 ≤ capacity) : Inv capacity s where
  fits := hfits
  pipe hr := by rcases h with h | h <;> rw [h] at hr <;> cases hr
  nonblockRead hr := by rcases h with h | h <;> rw [h] at hr <;> cases hr
  nonblockWrite hr := by rcases h with h | h <;> rw [h] at hr <;> cases hr
  early he := by rcases h with h | h <;> rw [h] at he <;> cases he
  action hr := by rcases h with h | h <;> rw [h] at hr <;> cases hr
  handler hh := by rw [hnone] at hh; cases hh
  holds hu := by rcases h with h | h <;> rw [h] at hu <;> cases hu
  uncaught hu := by rcases h with h | h <;> rw [h] at hu <;> rcases hu with hu | hu <;> cases hu
  selected hp := by rcases h with h | h <;> rw [h] at hp <;> rcases hp with hp | hp <;> cases hp
  isset hp := by rcases h with h | h <;> rw [h] at hp <;> cases hp
  drained hp := by rcases h with h | h <;> rw [h] at hp <;> rcases hp with hp | hp | hp | hp <;> cases hp

theorem Inv.mainStep (h : Inv capacity s) (hs : mainStep s = some s') : Inv capacity s' := by
  obtain ⟨pc, handler, sigs, savedMask, savedErrno, errno, nonblockRead, nonblockWrite, pipe, ready, issetPipe,
    readfds, caught, handled, seen⟩ := s
  cases handler with
  | some f => simp only [SelfPipe.mainStep, reduceCtorEq] at hs
  | none =>
    have hinside : ∀ {P : Prop}, (none : Option HandlerPc).isSome → P := fun hh => by cases hh
    cases pc with
    | pipe =>
      obtain rfl := Option.some.inj hs
      obtain ⟨haction, hhandled⟩ := h.early rfl
      simp only at hhandled
      exact { h with
        fits := Nat.zero_le _, pipe := fun _ => ⟨0, rfl, Nat.zero_le _⟩
        nonblockRead := by simp [Pc.rank], nonblockWrite := by simp [Pc.rank]
        early := fun _ => ⟨haction, hhandled⟩, action := by simp [Pc.rank], handler := hinside
        holds := fun _ n hn => by
          obtain rfl := Option.some.inj hn
          simp only [hhandled]
        uncaught := fun _ => h.uncaught (.inl rfl)
        selected := by simp, isset := nofun, drained := by simp }
    | nonblockRead =>
      obtain rfl := Option.some.inj hs
      exact { h with
        pipe := fun _ => h.pipe (by simp [Pc.rank])
        nonblockRead := fun _ => rfl, nonblockWrite := by simp [Pc.rank]
        early := fun _ => h.early rfl, action := by simp [Pc.rank], handler := hinside
        holds := fun _ => h.holds rfl
        uncaught := fun _ => h.uncaught (.inl rfl)
        selected := by simp, isset := nofun, drained := by simp }
    | nonblockWrite =>
      obtain rfl := Option.some.inj hs
      exact { h with
        pipe := fun _ => h.pipe (by simp [Pc.rank])
        nonblockRead := fun _ => h.nonblockRead (by simp [Pc.rank]), nonblockWrite := fun _ => rfl
        early := fun _ => h.early rfl, action := by simp [Pc.rank], handler := hinside
        holds := fun _ => h.holds rfl
        uncaught := fun _ => h.uncaught (.inl rfl)
        selected := by simp, isset := nofun, drained := by simp }
    | sigaction =>
      obtain rfl := Option.some.inj hs
      exact { h with
        pipe := fun _ => h.pipe (by simp [Pc.rank])
        nonblockRead := fun _ => h.nonblockRead (by simp [Pc.rank])
        nonblockWrite := fun _ => h.nonblockWrite (by simp [Pc.rank])
        early := nofun, action := fun _ => by rw [sigaction_action, Function.update_self]
        handler := hinside, holds := fun _ => h.holds rfl
        uncaught := fun _ => h.uncaught (.inl rfl)
        selected := by simp, isset := nofun, drained := by simp }
    | select =>
      obtain rfl := Option.some.inj hs
      exact { h with
        early := nofun, holds := fun _ => h.holds rfl, uncaught := fun _ => h.uncaught (.inr rfl)
        selected := by simp, isset := nofun, drained := by simp }
    | selecting => simp only [SelfPipe.mainStep, reduceCtorEq] at hs
    | selected =>
      obtain rfl := Option.some.inj hs
      split
      · exact { h with
          early := nofun, holds := fun _ => h.holds rfl, uncaught := fun _ => h.uncaught (.inr rfl)
          selected := by simp, isset := nofun, drained := by simp }
      · exact { h with
          early := nofun, holds := fun _ => h.holds rfl, uncaught := fun _ => h.uncaught (.inr rfl)
          selected := fun _ => h.selected (.inl rfl), isset := nofun, drained := by simp }
    | checkReady =>
      obtain rfl := Option.some.inj hs
      split
      · exact inv_over (.inl rfl) rfl h.fits
      · rename_i hready
        exact { h with
          early := nofun, holds := fun _ => h.holds rfl, uncaught := fun _ => h.uncaught (.inr rfl)
          selected := by simp, isset := fun _ => h.selected (.inr rfl) hready, drained := by simp }
    | isset =>
      obtain rfl := Option.some.inj hs
      obtain ⟨k, hk, htold⟩ := h.isset rfl
      have huncaught := h.uncaught (.inr rfl)
      simp only at hk htold huncaught
      split
      · rename_i hset
        exact { h with
          early := nofun, holds := nofun, uncaught := by simp [Pc.early, Pc.undrained]
          selected := by simp, isset := nofun
          drained := fun _ => ⟨k, hk, iff_of_true rfl (htold.mp hset)⟩ }
      · rename_i hset
        exact { h with
          early := nofun, holds := nofun, uncaught := by simp [Pc.early, Pc.undrained]
          selected := by simp, isset := nofun
          drained := fun _ => ⟨k, hk, iff_of_false (by simp only [huncaught]; nofun) fun hpos => hset (htold.mpr hpos)⟩ }
    | read =>
      obtain ⟨n, hn, hle⟩ := h.pipe (by simp [Pc.rank])
      simp only at hn
      subst hn
      cases n with
      | zero =>
        simp only [SelfPipe.mainStep, Option.ite_none_right_eq_some, Option.some.injEq] at hs
        rw [← hs.2]
        exact { h with
          early := nofun, holds := nofun, uncaught := by simp [Pc.early, Pc.undrained]
          selected := by simp, isset := nofun, drained := fun _ => h.drained (.inl rfl) }
      | succ n =>
        obtain rfl := Option.some.inj hs
        exact { h with
          fits := by simp only [Option.getD_some]; omega
          pipe := fun _ => ⟨n, rfl, by omega⟩
          early := nofun, holds := nofun }
    | readFailed =>
      obtain rfl := Option.some.inj hs
      split
      · exact { h with
          early := nofun, holds := nofun, uncaught := by simp [Pc.early, Pc.undrained]
          selected := by simp, isset := nofun, drained := fun _ => h.drained (.inr (.inl rfl)) }
      · exact inv_over (.inl rfl) rfl h.fits
    | report =>
      obtain rfl := Option.some.inj hs
      exact { h with
        early := nofun, holds := nofun, uncaught := by simp [Pc.early, Pc.undrained]
        selected := by simp, isset := nofun, drained := fun _ => h.drained (.inr (.inr (.inl rfl))) }
    | exited => simp only [SelfPipe.mainStep, reduceCtorEq] at hs
    | failed => simp only [SelfPipe.mainStep, reduceCtorEq] at hs
    | killed => simp only [SelfPipe.mainStep, reduceCtorEq] at hs

theorem Inv.mainFails {n : ℕ} (h : Inv capacity s) (hs : mainFails n s = some s') : Inv capacity s' := by
  obtain ⟨pc, handler, sigs, savedMask, savedErrno, errno, nonblockRead, nonblockWrite, pipe, ready, issetPipe,
    readfds, caught, handled, seen⟩ := s
  cases handler with
  | some f => simp only [SelfPipe.mainFails, reduceCtorEq] at hs
  | none =>
    cases pc with
    | pipe | nonblockRead | nonblockWrite | sigaction =>
      obtain rfl := Option.some.inj hs
      exact inv_over (.inl rfl) rfl h.fits
    | select =>
      obtain rfl := Option.some.inj hs
      exact { h with
        early := nofun, holds := fun _ => h.holds rfl, uncaught := fun _ => h.uncaught (.inr rfl)
        selected := fun _ hready => absurd rfl hready, isset := nofun, drained := by simp }
    | _ => simp only [SelfPipe.mainFails, reduceCtorEq] at hs

/-- What `select()` says of the read end is whether the handler has written. -/
theorem Inv.selects {rs : List ℕ} {timeout : Bool} (h : Inv capacity s)
    (hs : selects rs timeout s = some s') : Inv capacity s' := by
  obtain ⟨pc, handler, sigs, savedMask, savedErrno, errno, nonblockRead, nonblockWrite, pipe, ready, issetPipe,
    readfds, caught, handled, seen⟩ := s
  cases handler with
  | some f => simp only [SelfPipe.selects, reduceCtorEq] at hs
  | none =>
    cases pc with
    | selecting =>
      obtain ⟨n, hn, hle⟩ := h.pipe (by simp [Pc.rank])
      have hholds := h.holds rfl n hn
      simp only at hn hholds
      subst hn
      simp only [SelfPipe.selects, Option.ite_none_right_eq_some, Option.some.injEq] at hs
      rw [← hs.2]
      exact { h with
        early := nofun, holds := fun _ => h.holds rfl, uncaught := fun _ => h.uncaught (.inr rfl)
        selected := fun _ _ => ⟨handled, rfl, by rw [decide_eq_true_iff]; exact hholds⟩
        isset := nofun, drained := by simp }
    | _ => simp only [SelfPipe.selects, reduceCtorEq] at hs

theorem Inv.handlerStep (hcapacity : 0 < capacity) (h : Inv capacity s)
    (hs : handlerStep capacity s = some s') : Inv capacity s' := by
  obtain ⟨pc, handler, sigs, savedMask, savedErrno, errno, nonblockRead, nonblockWrite, pipe, ready, issetPipe,
    readfds, caught, handled, seen⟩ := s
  cases handler with
  | none => simp only [SelfPipe.handlerStep, reduceCtorEq] at hs
  | some f =>
    have hrank := h.handler rfl
    have hearly : ¬Pc.early pc := fun he => by cases pc <;> simp [Pc.early, Pc.rank] at he hrank
    cases f with
    | saveErrno =>
      obtain rfl := Option.some.inj hs
      exact { h with handler := fun _ => hrank }
    | write =>
      obtain ⟨n, hn, hle⟩ := h.pipe (Nat.le_trans (by decide) hrank)
      simp only at hn
      subst hn
      simp only [SelfPipe.handlerStep] at hs
      split at hs
      · rename_i hlt
        obtain rfl := Option.some.inj hs
        exact { h with
          fits := hlt, pipe := fun _ => ⟨n + 1, rfl, hlt⟩
          early := fun he => absurd he hearly, handler := fun _ => hrank
          holds := fun _ m hm => by
            obtain rfl := Option.some.inj hm
            exact iff_of_true (Nat.succ_pos _) (Nat.succ_pos _) }
      · rename_i hfull
        rw [Option.ite_none_right_eq_some, Option.some.injEq] at hs
        rw [← hs.2]
        exact { h with
          early := fun he => absurd he hearly, handler := fun _ => hrank
          holds := fun _ m hm => by
            -- there is a byte in a pipe that is full
            obtain rfl := Option.some.inj hm
            exact iff_of_true (by omega) (Nat.succ_pos _) }
    | check ret =>
      simp only [SelfPipe.handlerStep] at hs
      split at hs
      · obtain rfl := Option.some.inj hs
        exact inv_over (.inl rfl) rfl h.fits
      · obtain rfl := Option.some.inj hs
        exact { h with handler := fun _ => hrank }
    | restoreErrno =>
      simp only [SelfPipe.handlerStep] at hs
      split at hs
      · rename_i hpc
        subst hpc
        obtain rfl := Option.some.inj hs
        exact { h with
          early := nofun, handler := nofun, holds := fun _ => h.holds rfl
          uncaught := fun _ => h.uncaught (.inr rfl)
          selected := fun _ hready => absurd rfl hready, isset := nofun, drained := by simp }
      · obtain rfl := Option.some.inj hs
        exact { h with handler := nofun }

/-- A delivery starts the handler, once that has been established. -/
theorem deliver_cases (h : Inv capacity s) (hended : s.pc.ended = false) (hs : deliver s = some s') :
    s.handler = none ∧ s.sigs.pending SIGINT = true ∧
      (4 ≤ s.pc.rank ∧ (∃ sigs, sigs.action = s.sigs.action ∧ sigs.pending SIGINT = false ∧
          s' = { s with handler := some .saveErrno, sigs := sigs, savedMask := s.sigs.mask }) ∨
        s.pc.early ∧ (∃ sigs, sigs.action = s.sigs.action ∧ sigs.pending SIGINT = false ∧
          (s' = { s with sigs := sigs } ∨ s' = { s with sigs := sigs, pc := .killed }))) := by
  cases hh : s.handler with
  | some f => simp only [SelfPipe.deliver, hh, reduceCtorEq] at hs
  | none =>
    cases hd : s.sigs.deliver SIGINT with
    | none => simp only [SelfPipe.deliver, hh, hd, reduceCtorEq] at hs
    | some r =>
      obtain ⟨d, sigs⟩ := r
      obtain ⟨hpending, -, hact, rfl⟩ := deliver_eq_some hd
      let sigs : SigState ℕ Handler := { s.sigs with pending := Function.update s.sigs.pending SIGINT false }
      have hgone : sigs.pending SIGINT = false := Function.update_self SIGINT false s.sigs.pending
      -- the program is where the disposition says that it is
      have hrank : s.pc.early ∨ 4 ≤ s.pc.rank := by
        cases hp : s.pc <;> rw [hp] at hended <;> simp [Pc.early, Pc.rank, Pc.ended] at hended ⊢
      refine ⟨rfl, hpending, ?_⟩
      simp only [SelfPipe.deliver, hh, hd] at hs
      cases d with
      | handler f =>
        cases f
        obtain rfl := Option.some.inj hs
        refine .inl ⟨hrank.resolve_left fun he => (h.early he).1 _ hact.symm, ?_⟩
        exact ⟨sigs.block SIGINT, rfl, hgone, rfl⟩
      | SIG_DFL =>
        obtain rfl := Option.some.inj hs
        refine .inr ⟨hrank.resolve_right fun hr => ?_, sigs, rfl, hgone, .inr rfl⟩
        rw [h.action hr] at hact
        cases hact
      | SIG_IGN =>
        obtain rfl := Option.some.inj hs
        refine .inr ⟨hrank.resolve_right fun hr => ?_, sigs, rfl, hgone, .inl rfl⟩
        rw [h.action hr] at hact
        cases hact

theorem Inv.deliver (h : Inv capacity s) (hended : s.pc.ended = false) (hs : deliver s = some s') :
    Inv capacity s' := by
  obtain ⟨hnone, -, ⟨hrank, sigs, haction, -, rfl⟩ | ⟨hearly, sigs, haction, -, rfl | rfl⟩⟩ :=
    deliver_cases h hended hs
  · exact { h with
      early := fun he => by rw [haction]; exact h.early he
      action := fun hr => by rw [haction]; exact h.action hr
      handler := fun _ => hrank }
  · exact { h with
      early := fun he => by rw [haction]; exact h.early he
      action := fun hr => by rw [haction]; exact h.action hr }
  · exact inv_over (.inr rfl) hnone h.fits

theorem Inv.generate (h : Inv capacity s) :
    Inv capacity { s with sigs := s.sigs.generate harmless SIGINT } :=
  { h with
    early := fun he => by rw [generate_action]; exact h.early he
    action := fun hr => by rw [generate_action]; exact h.action hr }

theorem Inv.step (hcapacity : 0 < capacity) {a : Act} (h : Inv capacity s)
    (hs : step capacity s a = some s') : Inv capacity s' := by
  cases a with
  | main => exact h.mainStep hs
  | mainFails n => exact h.mainFails hs
  | selects rs timeout => exact h.selects hs
  | handler => exact h.handlerStep hcapacity hs
  | deliver =>
    simp only [SelfPipe.step, Option.ite_none_left_eq_some] at hs
    exact h.deliver (by simpa using hs.1) hs.2
  | generate =>
    rw [SelfPipe.step, Option.some.injEq] at hs
    rw [← hs]
    exact h.generate

end Steps

/-! ## What the program says is true -/

/-- SIGINT is not blocked and not ignored at the start. -/
def start : State where
  pc := .pipe
  handler := none
  sigs := { mask := fun _ => false, pending := fun _ => false, action := fun _ => .SIG_DFL }
  savedMask := fun _ => false
  savedErrno := .other 0
  errno := .other 0
  nonblockRead := false
  nonblockWrite := false
  pipe := none
  ready := 0
  issetPipe := true
  readfds := []
  caught := false
  handled := 0
  seen := none

theorem start_starts : Starts start := ⟨rfl, rfl, nofun, rfl, rfl, rfl, rfl⟩

/-- As far as the handler, which has interrupted `select()`. -/
def interrupted : List Act :=
  [.main, .main, .main, .main, .main, .generate, .deliver, .handler, .handler]

/-- From there on: another signal comes between the return of `select()` and the test of `errno`. -/
def twice : List Act :=
  [.handler, .handler, .generate, .deliver, .handler, .handler, .handler, .handler, .main, .main,
    .selects [] false, .main, .main, .main, .main, .main, .main, .main]

theorem inv_of_reachable {capacity : ℕ} (hcapacity : 0 < capacity) {s : State}
    (h : Reachable (selfPipe capacity) s) : Inv capacity s :=
  h.invariant (I := Inv capacity) (fun _ hs => Starts.inv hs) fun _ _ _ hi _ hs => hi.step hcapacity hs

/-- **The message is right**: wherever the signals arrive, a program that ends has said that a signal
was caught if and only if its handler had run up to its `write()`, to whatever effect, before
`select()` was successful; and whenever the handler runs, the pipe is there and does not block. -/
theorem caught_iff_handled {capacity : ℕ} {s : State} (h : Reachable (selfPipe capacity) s)
    (hcapacity : 0 < capacity) :
    (s.pc = .exited → ∃ k, s.seen = some k ∧ (s.caught = true ↔ 0 < k)) ∧
      (s.handler.isSome → s.pipe.isSome ∧ s.nonblockRead = true ∧ s.nonblockWrite = true) := by
  have hi := inv_of_reachable hcapacity h
  refine ⟨fun hpc => hi.drained (.inr (.inr (.inr hpc))), fun hh => ?_⟩
  have hrank := hi.handler hh
  obtain ⟨n, hn, -⟩ := hi.pipe (by omega)
  exact ⟨by rw [hn]; rfl, hi.nonblockRead (by omega), hi.nonblockWrite (by omega)⟩

/-- In a pipe with room for one byte the second `write()` fails. -/
theorem caught_iff_handled_twice : ∃ s : State, Reachable (selfPipe 1) s ∧ s.pc = .exited ∧ s.caught = true ∧
    s.handled = 2 ∧ (s.pc = .exited → ∃ k, s.seen = some k ∧ (s.caught = true ↔ 0 < k)) ∧
      (s.handler.isSome → s.pipe.isSome ∧ s.nonblockRead = true ∧ s.nonblockWrite = true) := by
  obtain ⟨s, hrun, hpc, hcaught, hhandled⟩ : ∃ s, (selfPipe 1).run start (interrupted ++ twice) = some s ∧
      s.pc = .exited ∧ s.caught = true ∧ s.handled = 2 := ⟨_, rfl, rfl, rfl, rfl⟩
  have h := System.reachable_of_run _ (.init start_starts) hrun
  exact ⟨s, h, hpc, hcaught, hhandled, caught_iff_handled h Nat.one_pos⟩

/-! ## The program wakes up -/

/-- No call of `main()` fails. -/
def NoFault (_ : State) : Act → Prop
  | .mainFails _ => False
  | _ => True

/-- And nothing else is ready, there is no timeout, and no other signal comes. -/
def Alone (_ : State) : Act → Prop
  | .mainFails _ | .generate => False
  | .selects rs timeout => rs = [] ∧ timeout = false
  | _ => True

instance (s : State) (a : Act) : Decidable (NoFault s a) := by
  cases a <;> unfold NoFault <;> infer_instance

instance (s : State) (a : Act) : Decidable (Alone s a) := by
  cases a <;> unfold Alone <;> infer_instance

/-- The `errno` of `main()`, which the handler has put away. -/
def State.mainErrno (s : State) : Errno :=
  match s.handler with
  | none | some .saveErrno => s.errno
  | some _ => s.savedErrno

/-- `errno` is right wherever it is tested. -/
structure Errnos (s : State) : Prop where
  failed : s.pc ≠ .failed
  selected : s.pc = .selected → s.ready = -1 → s.mainErrno = .EINTR
  checkReady : s.pc = .checkReady → s.ready ≠ -1
  readFailed : s.pc = .readFailed → s.mainErrno = .EAGAIN
  check : s.handler = some (.check (-1)) → s.errno = .EAGAIN

theorem Starts.errnos {s : State} (h : Starts s) : Errnos s := by
  refine ⟨?_, fun hp => ?_, fun hp => ?_, fun hp => ?_, fun hh => ?_⟩
  · rw [h.pc]
    nofun
  · rw [h.pc] at hp
    cases hp
  · rw [h.pc] at hp
    cases hp
  · rw [h.pc] at hp
    cases hp
  · rw [h.handler] at hh
    cases hh

section Progress

variable {capacity : ℕ} {s s' : State}

theorem Errnos.mainStep (hi : Inv capacity s) (h : Errnos s) (hs : mainStep s = some s') : Errnos s' := by
  obtain ⟨pc, handler, sigs, savedMask, savedErrno, errno, nonblockRead, nonblockWrite, pipe, ready, issetPipe,
    readfds, caught, handled, seen⟩ := s
  cases handler with
  | some f => simp only [SelfPipe.mainStep, reduceCtorEq] at hs
  | none =>
    cases pc with
    | pipe | nonblockRead | nonblockWrite | sigaction | select | report =>
      obtain rfl := Option.some.inj hs
      exact ⟨nofun, nofun, nofun, nofun, nofun⟩
    | selected =>
      obtain rfl := Option.some.inj hs
      split
      · exact ⟨nofun, nofun, nofun, nofun, nofun⟩
      · rename_i hloop
        refine ⟨nofun, nofun, fun _ hready => hloop ⟨hready, h.selected rfl hready⟩, nofun, nofun⟩
    | checkReady =>
      obtain rfl := Option.some.inj hs
      have hready := h.checkReady rfl
      rw [if_neg hready]
      exact ⟨nofun, nofun, nofun, nofun, nofun⟩
    | isset =>
      obtain rfl := Option.some.inj hs
      split <;> exact ⟨nofun, nofun, nofun, nofun, nofun⟩
    | read =>
      obtain ⟨n, hn, -⟩ := hi.pipe (by simp [Pc.rank])
      simp only at hn
      subst hn
      cases n with
      | zero =>
        simp only [SelfPipe.mainStep, Option.ite_none_right_eq_some, Option.some.injEq] at hs
        rw [← hs.2]
        exact ⟨nofun, nofun, nofun, fun _ => rfl, nofun⟩
      | succ n =>
        obtain rfl := Option.some.inj hs
        exact ⟨nofun, nofun, nofun, nofun, nofun⟩
    | readFailed =>
      obtain rfl := Option.some.inj hs
      have herrno : errno = .EAGAIN := h.readFailed rfl
      simp only [herrno, if_true]
      exact ⟨nofun, nofun, nofun, nofun, nofun⟩
    | selecting | exited | failed | killed => simp only [SelfPipe.mainStep, reduceCtorEq] at hs

theorem Errnos.selects {rs : List ℕ} {timeout : Bool} (h : Errnos s)
    (hs : selects rs timeout s = some s') : Errnos s' := by
  unfold SelfPipe.selects at hs
  split at hs
  · cases hs
  · rename_i hnone
    split at hs
    · rw [Option.ite_none_right_eq_some, Option.some.injEq] at hs
      rw [← hs.2]
      refine ⟨nofun, fun _ hready => ?_, nofun, nofun, h.check⟩
      simp only at hready
      split at hready <;> omega
    · cases hs

/-- What the handler does to `errno`, it undoes. -/
theorem Errnos.handlerStep (h : Errnos s) (hs : handlerStep capacity s = some s') : Errnos s' := by
  obtain ⟨pc, handler, sigs, savedMask, savedErrno, errno, nonblockRead, nonblockWrite, pipe, ready, issetPipe,
    readfds, caught, handled, seen⟩ := s
  cases handler with
  | none => simp only [SelfPipe.handlerStep, reduceCtorEq] at hs
  | some f =>
    cases f with
    | saveErrno =>
      obtain rfl := Option.some.inj hs
      exact ⟨h.failed, h.selected, h.checkReady, h.readFailed, nofun⟩
    | write =>
      simp only [SelfPipe.handlerStep] at hs
      split at hs
      · cases hs
      · split at hs
        · obtain rfl := Option.some.inj hs
          refine ⟨h.failed, h.selected, h.checkReady, h.readFailed, fun hc => ?_⟩
          simp only [Option.some.injEq, HandlerPc.check.injEq] at hc
          omega
        · rw [Option.ite_none_right_eq_some, Option.some.injEq] at hs
          rw [← hs.2]
          exact ⟨h.failed, h.selected, h.checkReady, h.readFailed, fun _ => rfl⟩
    | check ret =>
      simp only [SelfPipe.handlerStep] at hs
      split at hs
      · rename_i hbad
        refine absurd (h.check ?_) hbad.2
        simp only [hbad.1]
      · obtain rfl := Option.some.inj hs
        exact ⟨h.failed, h.selected, h.checkReady, h.readFailed, nofun⟩
    | restoreErrno =>
      simp only [SelfPipe.handlerStep] at hs
      split at hs
      · obtain rfl := Option.some.inj hs
        exact ⟨nofun, fun _ _ => rfl, nofun, nofun, nofun⟩
      · obtain rfl := Option.some.inj hs
        exact ⟨h.failed, h.selected, h.checkReady, h.readFailed, nofun⟩

theorem Errnos.step (hi : Inv capacity s) {a : Act} (hC : NoFault s a) (h : Errnos s)
    (hs : step capacity s a = some s') : Errnos s' := by
  cases a with
  | main => exact h.mainStep hi hs
  | mainFails n => exact hC.elim
  | selects rs timeout => exact h.selects hs
  | handler => exact h.handlerStep hs
  | deliver =>
    simp only [SelfPipe.step, Option.ite_none_left_eq_some] at hs
    obtain ⟨hnone, -, ⟨-, sigs, -, -, rfl⟩ | ⟨hearly, sigs, -, -, rfl | rfl⟩⟩ :=
      deliver_cases hi (by simpa using hs.1) hs.2
    · refine ⟨h.failed, fun hp hr => ?_, h.checkReady, fun hp => ?_, nofun⟩
      · have := h.selected hp hr
        simpa only [State.mainErrno, hnone] using this
      · have := h.readFailed hp
        simpa only [State.mainErrno, hnone] using this
    · exact ⟨h.failed, h.selected, h.checkReady, h.readFailed, h.check⟩
    · exact ⟨nofun, nofun, nofun, nofun, h.check⟩
  | generate =>
    rw [SelfPipe.step, Option.some.injEq] at hs
    rw [← hs]
    exact ⟨h.failed, h.selected, h.checkReady, h.readFailed, h.check⟩

/-- How many steps of its own `main()` takes before it waits, or ends. -/
def Pc.budget (ready : ℤ) : Pc → ℕ
  | .pipe => 13
  | .nonblockRead => 12
  | .nonblockWrite => 11
  | .sigaction => 10
  | .selected => if ready = -1 then 9 else 6
  | .select => 8
  | .selecting => 7
  | .checkReady => 5
  | .isset => 4
  | .read => 3
  | .readFailed => 2
  | .report => 1
  | .exited | .failed | .killed => 0

/-- The same for the handler, for the byte that it writes and for `main()` after it. -/
def handlerBudget : Option HandlerPc → ℕ
  | some .saveErrno => 7
  | some .write => 6
  | some (.check _) => 4
  | some .restoreErrno => 3
  | none => 0

def State.budget (s : State) : ℕ :=
  s.pc.budget s.ready + handlerBudget s.handler + 8 * (s.sigs.pending SIGINT).toNat + s.pipe.getD 0

theorem State.budget_le (h : Inv capacity s) : s.budget ≤ capacity + 28 := by
  have hfits := h.fits
  have hpc : s.pc.budget s.ready ≤ 13 := by
    cases s.pc <;> simp only [Pc.budget] <;> first | omega | (split <;> omega)
  have hhandler : handlerBudget s.handler ≤ 7 := by
    rcases s.handler with _ | (_ | _ | _ | _) <;> simp [handlerBudget]
  have hpending := Bool.toNat_le (s.sigs.pending SIGINT)
  rw [State.budget]
  omega

theorem mainStep_budget (hi : Inv capacity s) (h : Errnos s) (hs : mainStep s = some s') :
    s'.budget < s.budget := by
  obtain ⟨pc, handler, sigs, savedMask, savedErrno, errno, nonblockRead, nonblockWrite, pipe, ready, issetPipe,
    readfds, caught, handled, seen⟩ := s
  cases handler with
  | some f => simp only [mainStep, reduceCtorEq] at hs
  | none =>
    cases pc with
    | pipe | nonblockRead | nonblockWrite | select | report =>
      obtain rfl := Option.some.inj hs
      simp only [State.budget, Pc.budget, Option.getD_some]
      omega
    | sigaction =>
      obtain rfl := Option.some.inj hs
      simp only [State.budget, Pc.budget, SigState.sigaction, Disposition.ignores, Bool.false_eq_true, if_false]
      omega
    | selected =>
      obtain rfl := Option.some.inj hs
      have herrno := h.selected rfl
      by_cases hready : ready = -1
      · have herrno : errno = .EINTR := herrno hready
        simp only [hready, herrno, State.budget, Pc.budget, and_self, if_true]
        omega
      · simp only [hready, State.budget, Pc.budget, false_and, if_false]
        omega
    | checkReady =>
      obtain rfl := Option.some.inj hs
      rw [if_neg (h.checkReady rfl)]
      simp only [State.budget, Pc.budget]
      omega
    | isset =>
      obtain rfl := Option.some.inj hs
      split
      · simp only [State.budget, Pc.budget]
        omega
      · simp only [State.budget, Pc.budget]
        omega
    | read =>
      obtain ⟨n, hn, -⟩ := hi.pipe (by simp [Pc.rank])
      simp only at hn
      subst hn
      cases n with
      | zero =>
        simp only [mainStep, Option.ite_none_right_eq_some, Option.some.injEq] at hs
        rw [← hs.2]
        simp only [State.budget, Pc.budget]
        omega
      | succ n =>
        obtain rfl := Option.some.inj hs
        simp only [State.budget, Option.getD_some]
        omega
    | readFailed =>
      obtain rfl := Option.some.inj hs
      have herrno : errno = .EAGAIN := h.readFailed rfl
      simp only [herrno, if_true, State.budget, Pc.budget]
      omega
    | selecting | exited | failed | killed => simp only [mainStep, reduceCtorEq] at hs

theorem selects_budget {rs : List ℕ} {timeout : Bool} (hs : selects rs timeout s = some s') :
    s'.budget < s.budget := by
  unfold selects at hs
  split at hs
  · cases hs
  · rename_i hnone
    split at hs
    · rename_i n hpc hpipe
      rw [Option.ite_none_right_eq_some, Option.some.injEq] at hs
      rw [← hs.2]
      have hready : ¬((rs.length : ℤ) + if 0 < n then 1 else 0) = -1 := by split <;> omega
      simp only [State.budget, Pc.budget, hpc, if_neg hready]
      omega
    · cases hs

theorem handlerStep_budget (h : Errnos s) (hs : handlerStep capacity s = some s') :
    s'.budget < s.budget := by
  obtain ⟨pc, handler, sigs, savedMask, savedErrno, errno, nonblockRead, nonblockWrite, pipe, ready, issetPipe,
    readfds, caught, handled, seen⟩ := s
  cases handler with
  | none => simp only [handlerStep, reduceCtorEq] at hs
  | some f =>
    cases f with
    | saveErrno =>
      obtain rfl := Option.some.inj hs
      simp only [State.budget, handlerBudget]
      omega
    | write =>
      simp only [handlerStep] at hs
      split at hs
      · cases hs
      · split at hs
        · obtain rfl := Option.some.inj hs
          simp only [State.budget, handlerBudget, Option.getD_some]
          omega
        · rw [Option.ite_none_right_eq_some, Option.some.injEq] at hs
          rw [← hs.2]
          simp only [State.budget, handlerBudget]
          omega
    | check ret =>
      simp only [handlerStep] at hs
      split at hs
      · rename_i hbad
        refine absurd (h.check ?_) hbad.2
        simp only [hbad.1]
      · obtain rfl := Option.some.inj hs
        simp only [State.budget, handlerBudget]
        omega
    | restoreErrno =>
      simp only [handlerStep] at hs
      split at hs
      · rename_i hpc
        subst hpc
        obtain rfl := Option.some.inj hs
        simp only [State.budget, handlerBudget, Pc.budget, SigState.setmask, if_true]
        omega
      · obtain rfl := Option.some.inj hs
        simp only [State.budget, handlerBudget, SigState.setmask]
        omega

theorem budget_step (hi : Inv capacity s) (h : Errnos s) {a : Act} (hC : Alone s a)
    (hs : step capacity s a = some s') : s'.budget < s.budget := by
  cases a with
  | main => exact mainStep_budget hi h hs
  | mainFails n => exact hC.elim
  | selects rs timeout => exact selects_budget hs
  | handler => exact handlerStep_budget h hs
  | deliver =>
    simp only [step, Option.ite_none_left_eq_some] at hs
    obtain ⟨hnone, hpending, ⟨-, sigs, -, hgone, rfl⟩ | ⟨-, sigs, -, hgone, rfl | rfl⟩⟩ :=
      deliver_cases hi (by simpa using hs.1) hs.2
    · simp only [State.budget, hnone, hpending, hgone, handlerBudget, Bool.toNat_true, Bool.toNat_false]
      omega
    · simp only [State.budget, hpending, hgone, Bool.toNat_true, Bool.toNat_false]
      omega
    · simp only [State.budget, hpending, hgone, Pc.budget, Bool.toNat_true, Bool.toNat_false]
      omega
  | generate => exact hC.elim

theorem Alone.noFault {a : Act} (h : Alone s a) : NoFault s a := by
  cases a with
  | mainFails n => exact h.elim
  | _ => trivial

/-- The handler is never held up, and `main()` waits only for a signal that has not come. -/
theorem not_stuck (hi : Inv capacity s) (hended : s.pc.ended = false)
    (hwaits : ¬(s.pc = .selecting ∧ s.handled = 0)) : ∃ a s', Alone s a ∧ step capacity s a = some s' := by
  cases hh : s.handler with
  | some f =>
    have hrank := hi.handler (by rw [hh]; rfl)
    cases f with
    | saveErrno => exact ⟨.handler, _, trivial, by simp only [step, handlerStep, hh]; rfl⟩
    | write =>
      obtain ⟨n, hn, -⟩ := hi.pipe (by omega)
      have hnonblock := hi.nonblockWrite (by omega)
      by_cases hlt : n < capacity
      · exact ⟨.handler, _, trivial, by simp only [step, handlerStep, hh, hn, hlt, if_true]; rfl⟩
      · exact ⟨.handler, _, trivial, by
          simp only [step, handlerStep, hh, hn, hlt, if_false, hnonblock, if_true]
          rfl⟩
    | check ret =>
      by_cases hbad : ret = -1 ∧ s.errno ≠ .EAGAIN
      · exact ⟨.handler, _, trivial, by simp only [step, handlerStep, hh, if_pos hbad]; rfl⟩
      · exact ⟨.handler, _, trivial, by simp only [step, handlerStep, hh, if_neg hbad]; rfl⟩
    | restoreErrno =>
      by_cases hpc : s.pc = .selecting
      · exact ⟨.handler, _, trivial, by simp only [step, handlerStep, hh, if_pos hpc]; rfl⟩
      · exact ⟨.handler, _, trivial, by simp only [step, handlerStep, hh, if_neg hpc]; rfl⟩
  | none =>
    cases hpc : s.pc with
    | selecting =>
      obtain ⟨n, hn, -⟩ := hi.pipe (by rw [hpc]; simp [Pc.rank])
      have hholds := hi.holds (by rw [hpc]; rfl) n hn
      have hpos : 0 < n := hholds.mpr (by
        have : s.handled ≠ 0 := fun hzero => hwaits ⟨hpc, hzero⟩
        omega)
      exact ⟨.selects [] false, _, ⟨rfl, rfl⟩, by
        simp only [step, selects, hh, hpc, hn, hpos, true_or, if_true]
        rfl⟩
    | read =>
      obtain ⟨n, hn, -⟩ := hi.pipe (by rw [hpc]; simp [Pc.rank])
      have hnonblock := hi.nonblockRead (by rw [hpc]; simp [Pc.rank])
      cases n with
      | zero => exact ⟨.main, _, trivial, by simp only [step, mainStep, hh, hpc, hn, hnonblock, if_true]; rfl⟩
      | succ n => exact ⟨.main, _, trivial, by simp only [step, mainStep, hh, hpc, hn]; rfl⟩
    | exited | failed | killed =>
      rw [hpc] at hended
      cases hended
    | _ => exact ⟨.main, _, trivial, by simp only [step, mainStep, hh, hpc]; rfl⟩

end Progress

/-- **A signal that is handled wakes the program**: from wherever it has got to without a failing
call, and with nothing else to wake it, the program goes on for no more steps than the pipe has room
and a few of its own, and where nothing more can happen it has ended, or it waits and no signal has
been handled. -/
theorem always_wakes {capacity : ℕ} {s s' : State} (h : Reaches (selfPipe capacity) NoFault s)
    (hcapacity : 0 < capacity) (as : List Act) (hs : (selfPipe capacity).runWith Alone s as = some s') :
    as.length ≤ capacity + 28 ∧
      ((∀ a s'', Alone s' a → step capacity s' a ≠ some s'') →
        s'.pc = .exited ∨ s'.pc = .killed ∨ s'.pc = .selecting ∧ s'.handled = 0) := by
  have hstart : Inv capacity s ∧ Errnos s :=
    h.invariant (I := fun s => Inv capacity s ∧ Errnos s) (fun _ hs => ⟨Starts.inv hs, Starts.errnos hs⟩)
      fun _ _ _ hi hC hs => ⟨hi.1.step hcapacity hs, hi.2.step hi.1 hC hs⟩
  obtain ⟨⟨hi', he'⟩, hle⟩ := System.runWith_measure (S := selfPipe capacity)
    (I := fun s => Inv capacity s ∧ Errnos s) (m := State.budget)
    (fun s a s' hi hC hs => ⟨⟨hi.1.step hcapacity hs, hi.2.step hi.1 hC.noFault hs⟩, budget_step hi.1 hi.2 hC hs⟩)
    as hstart hs
  have hbudget := State.budget_le hstart.1
  refine ⟨by omega, fun hstuck => ?_⟩
  by_contra hno
  have hended : s'.pc.ended = false := by
    cases hpc : s'.pc with
    | exited => exact absurd (.inl hpc) hno
    | killed => exact absurd (.inr (.inl hpc)) hno
    | failed => exact absurd hpc he'.failed
    | _ => rfl
  obtain ⟨a, s'', hC, hs''⟩ := not_stuck hi' hended fun hwaits => hno (.inr (.inr hwaits))
  exact hstuck a s'' hC hs''

/-- The rest of a run after the handler's `write()`. -/
def woken : List Act :=
  [.handler, .handler, .main, .main, .selects [] false, .main, .main, .main, .main, .main, .main, .main]

theorem always_wakes_once : ∃ s s' : State, Reaches (selfPipe 1) NoFault s ∧
    (selfPipe 1).runWith Alone s woken = some s' ∧ s'.pc = .exited ∧ woken.length ≤ 1 + 28 ∧
      ((∀ a s'', Alone s' a → step 1 s' a ≠ some s'') →
        s'.pc = .exited ∨ s'.pc = .killed ∨ s'.pc = .selecting ∧ s'.handled = 0) := by
  obtain ⟨s, hrun, s', hrun', hpc⟩ : ∃ s, (selfPipe 1).runWith NoFault start interrupted = some s ∧
      ∃ s', (selfPipe 1).runWith Alone s woken = some s' ∧ s'.pc = .exited := ⟨_, rfl, _, rfl, rfl⟩
  have h := System.reaches_of_runWith interrupted (.init start_starts) hrun
  exact ⟨s, s', h, hrun', hpc, always_wakes h Nat.one_pos woken hrun'⟩

end Tlpi.SelfPipe
