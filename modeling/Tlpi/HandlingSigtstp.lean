/-
`pgsjc/handling_SIGTSTP.c`: a handler for SIGTSTP after which the process does stop, by SIGTSTP.

## What is modelled

The program one call a step, and signals of any kind that are sent to it at any moment. SIGCONT resumes
the process, and discards the stop signals that are pending; a stop signal discards a pending SIGCONT. A
stop signal other than SIGSTOP does not stop a process whose group is orphaned, which it may become at any
moment. While the process is stopped it makes no call and is delivered nothing. Where several signals can
be delivered the order is open, and delivery may come later than the signal, but not later than the end of
the `sigprocmask()` that unblocks it.

The handler could interrupt itself, so its invocations are a stack. `entryErrno` of an invocation, and
`caught`, `stopped_by`, `cancelled` and `spared` of the state, are history variables; `e` is what the
calls of the handler may do to `errno`. Signals that nobody handles may kill the process.

## The shape of the argument

The place in the handler says what the mask and the disposition of SIGTSTP are (`maskAt`, `dispAt`). It
is delivered only where it is not blocked, and that is outside the handler, which is thus never nested,
and behind the `sigprocmask()` in it, where the disposition is the default. And the signal that the
handler has raised is pending up to there, unless SIGCONT has discarded it, so it is paid for before
the handler goes on (`debt`).
-/
import Mathlib.Data.Bool.Basic
import Mathlib.Data.List.Count
import Tlpi.Signals
import Tlpi.Transition

set_option autoImplicit false

namespace Tlpi.HandlingSigtstp

open Tlpi.Signals Tlpi.Transition

/-! ## 1. The program -/

inductive Handler where
  | tstpHandler
deriving Repr, DecidableEq

/-- The next call of `main()`. -/
inductive Pc where
  /-- `sigaction(SIGTSTP, NULL, &sa)` -/
  | query
  | establish | pause | print
deriving Repr, DecidableEq

/-- The next step of the handler. -/
inductive HandlerPc where
  | save | signal | raise | unblock
  /-- `sigprocmask(SIG_UNBLOCK, ...)` has changed the mask; `SIG_SETMASK` is next. -/
  | unblocked
  | reestablish | restore | ret
deriving Repr, DecidableEq

/-- Where the program is. -/
inductive Place where
  | main (pc : Pc)
  | handler (pc : HandlerPc)
deriving Repr, DecidableEq

/-- An invocation of the handler: its locals, and the mask that its return restores. -/
structure Frame where
  pc : HandlerPc
  savedErrno : ℕ
  prevMask : ℕ → Bool
  outer : ℕ → Bool
  entryErrno : ℕ

structure State where
  pc : Pc
  frames : List Frame
  sigs : SigState ℕ Handler
  errno : ℕ
  stopped : Bool
  killed : Bool
  orphaned : Bool
  caught : ℕ
  /-- The signals that have stopped the process, and where it was. -/
  stopped_by : List (ℕ × Place)
  /-- Where it was when SIGCONT discarded a pending SIGTSTP. -/
  cancelled : List Place
  /-- The signals that have not stopped it as it is orphaned. -/
  spared : List (ℕ × Place)

abbrev EINTR : ℕ := 4

def State.place (s : State) : Place :=
  match s.frames with
  | [] => .main s.pc
  | f :: _ => .handler f.pc

/-- A signal is generated for the process, by somebody else or by itself. -/
def State.kill (s : State) (sig : ℕ) : State :=
  if sig = SIGCONT then
    { s with
      stopped := false
      sigs := (s.sigs.discard stops).generate harmless SIGCONT
      cancelled := if s.sigs.pending SIGTSTP then s.place :: s.cancelled else s.cancelled }
  else if stops sig then
    { s with sigs := (s.sigs.discard fun other => other == SIGCONT).generate harmless sig }
  else { s with sigs := s.sigs.generate harmless sig }

/-- The default action of a stop signal. -/
def State.stop (s : State) (sig : ℕ) : State :=
  if s.orphaned && sig != SIGSTOP then { s with spared := (sig, s.place) :: s.spared }
  else { s with stopped := true, stopped_by := (sig, s.place) :: s.stopped_by }

/-- A step of `main()`. -/
def mainStep (s : State) : Option State :=
  match s.frames with
  | _ :: _ => none
  | [] =>
    match s.pc with
    | .query => some { s with pc := if s.sigs.action SIGTSTP = .SIG_IGN then .pause else .establish }
    | .establish =>
      some { s with sigs := s.sigs.sigaction harmless SIGTSTP (.handler .tstpHandler), pc := .pause }
    | .pause => none
    | .print => some { s with pc := .pause }

/-- A step of the handler; `e` is what `errno` is after its call. -/
def handlerStep (e : ℕ) (s : State) : Option State :=
  match s.frames with
  | [] => none
  | f :: frames =>
    match f.pc with
    | .save =>
      some { s with frames := { f with savedErrno := s.errno, pc := .signal } :: frames, errno := e }
    | .signal =>
      some { s with
        frames := { f with pc := .raise } :: frames
        sigs := s.sigs.sigaction harmless SIGTSTP .SIG_DFL
        errno := e }
    | .raise => some { s.kill SIGTSTP with frames := { f with pc := .unblock } :: frames, errno := e }
    | .unblock =>
      some { s with
        frames := { f with prevMask := s.sigs.mask, pc := .unblocked } :: frames
        sigs := s.sigs.unblock SIGTSTP
        errno := e }
    | .unblocked =>
      -- what is unblocked is delivered before the call comes back
      if s.sigs.pending SIGTSTP && !s.sigs.mask SIGTSTP then none
      else
        some { s with
          frames := { f with pc := .reestablish } :: frames
          sigs := s.sigs.setmask f.prevMask
          errno := e }
    | .reestablish =>
      some { s with
        frames := { f with pc := .restore } :: frames
        sigs := s.sigs.sigaction harmless SIGTSTP (.handler .tstpHandler)
        errno := e }
    | .restore => some { s with frames := { f with pc := .ret } :: frames, errno := f.savedErrno }
    | .ret =>
      -- back in `main()`, `pause()` returns
      let t := { s with frames := frames, sigs := s.sigs.setmask f.outer }
      some (if frames = [] ∧ s.pc = .pause then { t with pc := .print, errno := EINTR } else t)

/-- A pending signal is delivered. -/
def deliver (sig : ℕ) (s : State) : Option State :=
  match s.sigs.deliver sig with
  | none => none
  | some (.SIG_IGN, sigs) => some { s with sigs := sigs }
  | some (.SIG_DFL, sigs) =>
    if stops sig then some { s.stop sig with sigs := sigs }
    else if harmless sig then some { s with sigs := sigs }
    else some { s with sigs := sigs, killed := true }
  | some (.handler .tstpHandler, sigs) =>
    some { s with
      frames := ⟨.save, 0, fun _ => false, s.sigs.mask, s.errno⟩ :: s.frames
      sigs := sigs.block sig
      caught := s.caught + 1 }

inductive Act where
  | main
  | handler (e : ℕ)
  /-- Somebody sends a signal, from the terminal for one. -/
  | kill (sig : ℕ)
  | deliver (sig : ℕ)
  /-- The process group becomes orphaned. -/
  | orphan
deriving Repr, DecidableEq

def step (s : State) (a : Act) : Option State :=
  if s.killed then none
  else
    match a with
    | .main => if s.stopped then none else mainStep s
    | .handler e => if s.stopped then none else handlerStep e s
    | .kill sig => some (s.kill sig)
    | .deliver sig => if s.stopped && sig != SIGKILL then none else deliver sig s
    | .orphan => some { s with orphaned := true }

/-- After `exec()`: any mask, anything pending, and no handler. -/
structure Starts (orig : SigState ℕ Handler) (s : State) : Prop where
  pc : s.pc = .query
  frames : s.frames = []
  sigs : s.sigs = orig
  stopped : s.stopped = false
  caught : s.caught = 0
  stopped_by : s.stopped_by = []
  cancelled : s.cancelled = []
  spared : s.spared = []
  handlers : ∀ sig f, orig.action sig ≠ .handler f

def handlingSigtstp (orig : SigState ℕ Handler) : System State Act where
  init := Starts orig
  step := step

/-! ## 2. The mask and the disposition -/

/-- The mask in the handler. -/
def maskAt (orig : SigState ℕ Handler) : HandlerPc → ℕ → Bool
  | .unblocked => orig.mask
  | _ => Function.update orig.mask SIGTSTP true

/-- The disposition of SIGTSTP in the handler. -/
def dispAt : HandlerPc → Disposition Handler
  | .save | .signal | .restore | .ret => .handler .tstpHandler
  | .raise | .unblock | .unblocked | .reestablish => .SIG_DFL

/-- And in `main()`. -/
def mainDisp (orig : SigState ℕ Handler) : Pc → Disposition Handler
  | .query | .establish => orig.action SIGTSTP
  | .pause | .print => if orig.action SIGTSTP = .SIG_IGN then .SIG_IGN else .handler .tstpHandler

structure Outside (orig : SigState ℕ Handler) (s : State) : Prop where
  frames : s.frames = []
  mask : s.sigs.mask = orig.mask
  action : s.sigs.action = Function.update orig.action SIGTSTP (mainDisp orig s.pc)
  establish : s.pc = .establish → orig.action SIGTSTP ≠ .SIG_IGN

structure Inside (orig : SigState ℕ Handler) (s : State) (f : Frame) : Prop where
  frames : s.frames = [f]
  mask : s.sigs.mask = maskAt orig f.pc
  action : s.sigs.action = Function.update orig.action SIGTSTP (dispAt f.pc)
  pc : s.pc = .pause ∨ s.pc = .print
  outer : f.outer = orig.mask
  opened : orig.mask SIGTSTP = false
  caught : orig.action SIGTSTP ≠ .SIG_IGN
  prevMask : f.pc = .unblocked → f.prevMask = Function.update orig.mask SIGTSTP true
  entryErrno : f.pc = .save ∨ f.pc = .ret → s.errno = f.entryErrno
  savedErrno : f.pc ≠ .save → f.savedErrno = f.entryErrno

/-! ## 3. What is paid for -/

/-- Where the signal that the handler has raised may be pending. -/
def Place.raised : Place → Bool
  | .handler .unblock | .handler .unblocked => true
  | _ => false

/-- How often the process was stopped by SIGTSTP behind the unblocking in the handler, was spared this as
it is orphaned, or was saved from it by SIGCONT. -/
def State.settled (s : State) : ℕ :=
  s.stopped_by.count (SIGTSTP, .handler .unblocked) + s.spared.count (SIGTSTP, .handler .unblocked) +
    s.cancelled.countP Place.raised

/-- Whether the invocation that is running is still to stop the process. -/
def owes (pending : Bool) : List Frame → ℕ
  | [] => 0
  | f :: _ =>
    match f.pc with
    | .save | .signal | .raise => 1
    | .unblock | .unblocked => if pending then 1 else 0
    | .reestablish | .restore | .ret => 0

def State.debt (s : State) : ℕ := owes (s.sigs.pending SIGTSTP) s.frames

theorem owes_mono {p q : Bool} (h : p = true → q = true) (frames : List Frame) :
    owes p frames ≤ owes q frames := by
  cases frames with
  | nil => exact Nat.le_refl 0
  | cons f frames => cases f with | mk pc _ _ _ _ => cases pc <;> cases p <;> cases q <;> simp_all [owes]

structure Inv (orig : SigState ℕ Handler) (s : State) : Prop where
  handlers : ∀ sig f, orig.action sig ≠ .handler f
  place : Outside orig s ∨ ∃ f, Inside orig s f
  stops : ∀ place, (SIGTSTP, place) ∈ s.stopped_by →
    place = .main .query ∨ place = .main .establish ∨ place = .handler .unblocked
  ignored : orig.action SIGTSTP = .SIG_IGN → s.caught = 0 ∧ ∀ place, (SIGTSTP, place) ∉ s.stopped_by
  paid : s.caught ≤ s.settled + s.debt

section Steps

variable {orig : SigState ℕ Handler} {s s' : State}

theorem Starts.inv (h : Starts orig s) : Inv orig s where
  handlers := h.handlers
  place := by
    refine .inl ⟨h.frames, by rw [h.sigs], ?_, fun hpc => ?_⟩
    · rw [h.sigs, h.pc, mainDisp, Function.update_eq_self]
    · rw [h.pc] at hpc
      cases hpc
  stops := fun place hmem => by rw [h.stopped_by] at hmem; cases hmem
  ignored := fun _ => ⟨h.caught, fun place hmem => by rw [h.stopped_by] at hmem; cases hmem⟩
  paid := by rw [h.caught]; omega

/-- A signal leaves the mask and the dispositions alone. -/
theorem kill_same (s : State) (sig : ℕ) :
    (s.kill sig).sigs.mask = s.sigs.mask ∧ (s.kill sig).sigs.action = s.sigs.action ∧
      (s.kill sig).frames = s.frames ∧ (s.kill sig).pc = s.pc ∧ (s.kill sig).errno = s.errno ∧
      (s.kill sig).caught = s.caught ∧ (s.kill sig).stopped_by = s.stopped_by ∧
      (s.kill sig).spared = s.spared := by
  unfold State.kill
  split
  · exact ⟨generate_mask .., generate_action .., rfl, rfl, rfl, rfl, rfl, rfl⟩
  · split
    · exact ⟨generate_mask .., generate_action .., rfl, rfl, rfl, rfl, rfl, rfl⟩
    · exact ⟨generate_mask .., generate_action .., rfl, rfl, rfl, rfl, rfl, rfl⟩

/-- What only the pending signals are changed by keeps the place. -/
theorem Inside.congr {f : Frame} (h : Inside orig s f) (hframes : s'.frames = s.frames)
    (hmask : s'.sigs.mask = s.sigs.mask) (haction : s'.sigs.action = s.sigs.action)
    (hpc : s'.pc = s.pc) (herrno : s'.errno = s.errno) : Inside orig s' f :=
  ⟨hframes.trans h.frames, hmask.trans h.mask, haction.trans h.action, by rw [hpc]; exact h.pc, h.outer,
    h.opened, h.caught, h.prevMask, by rw [herrno]; exact h.entryErrno, h.savedErrno⟩

theorem Outside.congr (h : Outside orig s) (hframes : s'.frames = s.frames)
    (hmask : s'.sigs.mask = s.sigs.mask) (haction : s'.sigs.action = s.sigs.action)
    (hpc : s'.pc = s.pc) : Outside orig s' :=
  ⟨hframes.trans h.frames, hmask.trans h.mask, by rw [haction, hpc]; exact h.action,
    by rw [hpc]; exact h.establish⟩

theorem place_congr (h : Outside orig s ∨ ∃ f, Inside orig s f) (hframes : s'.frames = s.frames)
    (hmask : s'.sigs.mask = s.sigs.mask) (haction : s'.sigs.action = s.sigs.action)
    (hpc : s'.pc = s.pc) (herrno : s'.errno = s.errno) : Outside orig s' ∨ ∃ f, Inside orig s' f := by
  rcases h with h | ⟨f, h⟩
  · exact .inl (h.congr hframes hmask haction hpc)
  · exact .inr ⟨f, h.congr hframes hmask haction hpc herrno⟩

/-- SIGCONT pays for what it takes away; every other signal leaves SIGTSTP pending. -/
theorem kill_paid (s : State) (sig : ℕ) : s.settled + s.debt ≤ (s.kill sig).settled + (s.kill sig).debt := by
  obtain ⟨-, -, hframes, -, -, -, hstopped, hspared⟩ := kill_same s sig
  by_cases hcont : sig = SIGCONT
  · have hcancelled : (s.kill sig).cancelled =
        if s.sigs.pending SIGTSTP then s.place :: s.cancelled else s.cancelled := by
      rw [State.kill, if_pos hcont]
    have hdebt : s.debt ≤ (if s.sigs.pending SIGTSTP && s.place.raised then 1 else 0) + (s.kill sig).debt := by
      rw [State.debt, State.debt, hframes, State.place]
      cases s.frames with
      | nil => exact Nat.zero_le _
      | cons f frames =>
        cases f with | mk pc _ _ _ _ => cases pc <;> cases s.sigs.pending SIGTSTP <;> simp [owes, Place.raised]
    rw [State.settled, State.settled, hstopped, hspared, hcancelled]
    split
    · rename_i hpending
      rw [hpending, Bool.true_and] at hdebt
      rw [List.countP_cons]
      omega
    · rename_i hpending
      rw [Bool.not_eq_true] at hpending
      rw [hpending, Bool.false_and, if_neg Bool.false_ne_true, Nat.zero_add] at hdebt
      omega
  · have hcancelled : (s.kill sig).cancelled = s.cancelled := by
      rw [State.kill, if_neg hcont]
      split <;> rfl
    have hpending : s.sigs.pending SIGTSTP = true → (s.kill sig).sigs.pending SIGTSTP = true := fun h => by
      rw [State.kill, if_neg hcont]
      split
      · refine generate_pending_mono _ _ _ ?_
        simp only [SigState.discard, h]
        decide
      · exact generate_pending_mono _ _ _ h
    have hdebt := owes_mono hpending s.frames
    rw [State.settled, State.settled, State.debt, State.debt, hframes, hstopped, hspared, hcancelled]
    omega

theorem Inv.kill (h : Inv orig s) (sig : ℕ) : Inv orig (s.kill sig) := by
  obtain ⟨hmask, haction, hframes, hpc, herrno, hcaught, hstopped, -⟩ := kill_same s sig
  refine ⟨h.handlers, place_congr h.place hframes hmask haction hpc herrno, ?_, ?_, ?_⟩
  · rw [hstopped]
    exact h.stops
  · rw [hcaught, hstopped]
    exact h.ignored
  · rw [hcaught]
    exact Nat.le_trans h.paid (kill_paid s sig)

theorem Inv.mainStep (h : Inv orig s) (hs : mainStep s = some s') : Inv orig s' := by
  unfold HandlingSigtstp.mainStep at hs
  split at hs
  · cases hs
  · rename_i hframes
    have hout : Outside orig s := h.place.resolve_right fun ⟨f, hin⟩ => by
      rw [hin.frames] at hframes
      cases hframes
    have haction := hout.action
    have hpaid : ∀ t : State, t.frames = [] → t.caught = s.caught → t.settled = s.settled →
        t.caught ≤ t.settled + t.debt := fun t hf hc hs => by
      have := h.paid
      rw [State.debt, hframes] at this
      rw [State.debt, hf, hc, hs]
      exact this
    split at hs
    · rename_i hpc
      obtain rfl := Option.some.inj hs
      rw [hpc] at haction
      refine ⟨h.handlers, .inl ⟨hframes, hout.mask, ?_, ?_⟩, h.stops, h.ignored, hpaid _ hframes rfl rfl⟩
      · have hdisp : s.sigs.action SIGTSTP = orig.action SIGTSTP := by
          rw [haction, Function.update_self]
          rfl
        simp only [hdisp]
        rw [haction]
        split
        · rename_i hign
          simp only [mainDisp, hign, if_true]
        · rfl
      · have hdisp : s.sigs.action SIGTSTP = orig.action SIGTSTP := by
          rw [haction, Function.update_self]
          rfl
        simp only [hdisp]
        intro hc hign
        rw [if_pos hign] at hc
        cases hc
    · rename_i hpc
      obtain rfl := Option.some.inj hs
      refine ⟨h.handlers, .inl ⟨hframes, hout.mask, ?_, nofun⟩, h.stops, h.ignored, hpaid _ hframes rfl rfl⟩
      simp only [sigaction_action, mainDisp, if_neg (hout.establish hpc), haction, Function.update_idem]
    · cases hs
    · rename_i hpc
      obtain rfl := Option.some.inj hs
      rw [hpc] at haction
      exact ⟨h.handlers, .inl ⟨hframes, hout.mask, haction, nofun⟩, h.stops, h.ignored, hpaid _ hframes rfl rfl⟩

/-- A step of the handler, from its place to the next. -/
theorem Inv.next {f : Frame} (h : Inv orig s) (hin : Inside orig s f) {pc : HandlerPc} {prevMask : ℕ → Bool}
    {savedErrno errno : ℕ} {sigs : SigState ℕ Handler} {cancelled : List Place}
    (hmask : sigs.mask = maskAt orig pc)
    (haction : sigs.action = Function.update orig.action SIGTSTP (dispAt pc))
    (hprev : pc = .unblocked → prevMask = Function.update orig.mask SIGTSTP true)
    (hsaved : savedErrno = f.entryErrno) (hret : pc = .ret → errno = f.entryErrno) (hsave : pc ≠ .save)
    (hcancelled : s.cancelled.countP Place.raised ≤ cancelled.countP Place.raised)
    (howes : s.debt ≤ owes (sigs.pending SIGTSTP) [⟨pc, savedErrno, prevMask, f.outer, f.entryErrno⟩]) :
    Inv orig { s with
      frames := [⟨pc, savedErrno, prevMask, f.outer, f.entryErrno⟩], sigs := sigs, errno := errno,
      cancelled := cancelled } := by
  refine ⟨h.handlers, .inr ⟨_, ⟨rfl, hmask, haction, hin.pc, hin.outer, hin.opened, hin.caught, hprev, ?_, fun _ => hsaved⟩⟩,
    h.stops, h.ignored, ?_⟩
  · rintro (hc | hc)
    · exact absurd hc hsave
    · exact hret hc
  · have hpaid := h.paid
    simp only [State.settled, State.debt] at hpaid howes ⊢
    omega

theorem Inv.handlerStep {e : ℕ} (h : Inv orig s) (hs : handlerStep e s = some s') : Inv orig s' := by
  unfold HandlingSigtstp.handlerStep at hs
  split at hs
  · cases hs
  · rename_i f frames hframes
    obtain ⟨g, hin⟩ := h.place.resolve_left fun hout => by
      rw [hout.frames] at hframes
      cases hframes
    have hfg := hin.frames
    rw [hframes] at hfg
    obtain ⟨rfl, rfl⟩ := List.cons.inj hfg
    have hdebt : s.debt = owes (s.sigs.pending SIGTSTP) [f] := by rw [State.debt, hframes]
    have hmask := hin.mask
    have haction := hin.action
    obtain ⟨pc, savedErrno, prevMask, outer, entryErrno⟩ := f
    cases pc with
    | save =>
      obtain rfl := Option.some.inj hs
      exact h.next hin hmask haction nofun (hin.entryErrno (.inl rfl)) nofun nofun (Nat.le_refl _) (by
        rw [hdebt]
        exact Nat.le_refl _)
    | signal =>
      obtain rfl := Option.some.inj hs
      refine h.next hin hmask ?_ nofun (hin.savedErrno nofun) nofun nofun (Nat.le_refl _) (by
        rw [hdebt]
        exact Nat.le_refl _)
      rw [sigaction_action, haction, Function.update_idem]
      rfl
    | raise =>
      obtain rfl := Option.some.inj hs
      obtain ⟨hkmask, hkaction, -⟩ := kill_same s SIGTSTP
      have hkill : s.kill SIGTSTP = { s with
          sigs := (s.sigs.discard fun other => other == SIGCONT).generate harmless SIGTSTP } := by
        rw [State.kill, if_neg (by decide), if_pos (by decide)]
      have hblocked : s.sigs.mask SIGTSTP = true := by
        rw [hmask]
        change Function.update orig.mask SIGTSTP true SIGTSTP = true
        rw [Function.update_self]
      rw [hkill] at hkmask hkaction ⊢
      refine h.next hin (hkmask.trans hmask) (hkaction.trans haction) nofun (hin.savedErrno nofun) nofun nofun
        (Nat.le_refl _) ?_
      -- it is blocked, so it is pending now
      rw [hdebt, generate_pending_of_mask _ _ _ (by exact hblocked), Function.update_self]
      exact Nat.le_refl _
    | unblock =>
      obtain rfl := Option.some.inj hs
      refine h.next hin ?_ haction (fun _ => hmask) (hin.savedErrno nofun) nofun nofun (Nat.le_refl _) (by
        rw [hdebt]
        exact Nat.le_refl _)
      have hlift : Function.update (Function.update orig.mask SIGTSTP true) SIGTSTP false = orig.mask := by
        rw [Function.update_idem, ← hin.opened, Function.update_eq_self]
      rw [unblock_mask, hmask]
      exact hlift
    | unblocked =>
      simp only [Option.ite_none_left_eq_some] at hs
      obtain ⟨hnone, hs⟩ := hs
      obtain rfl := Option.some.inj hs
      refine h.next hin (hin.prevMask rfl) haction nofun (hin.savedErrno nofun) nofun nofun (Nat.le_refl _) ?_
      have hopen : s.sigs.mask SIGTSTP = false := by
        rw [hmask]
        exact hin.opened
      rw [hopen, Bool.not_false, Bool.and_true, Bool.not_eq_true] at hnone
      rw [hdebt, hnone]
      exact Nat.le_refl _
    | reestablish =>
      obtain rfl := Option.some.inj hs
      refine h.next hin hmask ?_ nofun (hin.savedErrno nofun) nofun nofun (Nat.le_refl _) (by
        rw [hdebt]
        exact Nat.le_refl _)
      rw [sigaction_action, haction, Function.update_idem]
      rfl
    | restore =>
      obtain rfl := Option.some.inj hs
      exact h.next hin hmask haction nofun (hin.savedErrno nofun) (fun _ => hin.savedErrno nofun) nofun
        (Nat.le_refl _) (by
          rw [hdebt]
          exact Nat.le_refl _)
    | ret =>
      obtain rfl := Option.some.inj hs
      have hpaid := h.paid
      rw [hdebt] at hpaid
      have hdisp : dispAt .ret = mainDisp orig s.pc := by
        rcases hin.pc with hpc | hpc <;> rw [hpc, mainDisp, if_neg hin.caught] <;> rfl
      have haction' : s.sigs.action = Function.update orig.action SIGTSTP (mainDisp orig s.pc) := by
        rw [haction, ← hdisp]
      split
      · rename_i hpause
        refine ⟨h.handlers, .inl ⟨rfl, hin.outer, ?_, nofun⟩, h.stops, h.ignored, hpaid⟩
        rw [hpause.2] at haction'
        exact haction'
      · refine ⟨h.handlers, .inl ⟨rfl, hin.outer, haction', fun hc => ?_⟩, h.stops, h.ignored, hpaid⟩
        rcases hin.pc with hpc | hpc <;> rw [show s.pc = .establish from hc] at hpc <;> cases hpc

/-- Where SIGTSTP is delivered, and what its disposition is there. -/
theorem Inv.delivered (h : Inv orig s) (hmask : s.sigs.mask SIGTSTP = false) :
    Outside orig s ∧ s.sigs.action SIGTSTP = mainDisp orig s.pc ∨
      ∃ f, Inside orig s f ∧ f.pc = .unblocked ∧ s.sigs.action SIGTSTP = .SIG_DFL := by
  rcases h.place with hout | ⟨f, hin⟩
  · exact .inl ⟨hout, by rw [hout.action, Function.update_self]⟩
  · refine .inr ⟨f, hin, ?_⟩
    rw [hin.mask] at hmask
    have hpc : f.pc = .unblocked := by
      cases hpc : f.pc with
      | unblocked => rfl
      | _ =>
        rw [hpc] at hmask
        change Function.update orig.mask SIGTSTP true SIGTSTP = false at hmask
        rw [Function.update_self] at hmask
        cases hmask
    exact ⟨hpc, by rw [hin.action, Function.update_self, hpc]; rfl⟩

/-- Only SIGTSTP has a handler. -/
theorem Inv.action_of_ne (h : Inv orig s) {sig : ℕ} (hne : sig ≠ SIGTSTP) :
    s.sigs.action sig = orig.action sig := by
  rcases h.place with hout | ⟨f, hin⟩
  · rw [hout.action, Function.update_of_ne hne]
  · rw [hin.action, Function.update_of_ne hne]

/-- A signal other than SIGTSTP changes nothing that matters here. -/
theorem Inv.deliver_other (h : Inv orig s) {sig : ℕ} (hne : sig ≠ SIGTSTP) {t : State}
    (hsigs : t.sigs = { s.sigs with pending := Function.update s.sigs.pending sig false })
    (hframes : t.frames = s.frames) (hpc : t.pc = s.pc) (herrno : t.errno = s.errno)
    (hcaught : t.caught = s.caught) (hcancelled : t.cancelled = s.cancelled)
    (hstopped : t.stopped_by = s.stopped_by ∨ t.stopped_by = (sig, s.place) :: s.stopped_by)
    (hspared : t.spared = s.spared ∨ t.spared = (sig, s.place) :: s.spared) : Inv orig t := by
  have hpair : ∀ place other : Place, (sig, place) ≠ (SIGTSTP, other) := fun place other hc =>
    hne (Prod.mk.inj hc).1
  have hcount : ∀ {l l' : List (ℕ × Place)}, l' = l ∨ l' = (sig, s.place) :: l →
      ∀ place, l'.count (SIGTSTP, place) = l.count (SIGTSTP, place) := fun hl place => by
    rcases hl with rfl | rfl
    · rfl
    · exact List.count_cons_of_ne (hpair s.place place)
  have hmem : ∀ place, (SIGTSTP, place) ∈ t.stopped_by → (SIGTSTP, place) ∈ s.stopped_by := fun place hm => by
    rw [← List.count_pos_iff] at hm ⊢
    rwa [hcount hstopped] at hm
  refine ⟨h.handlers, place_congr h.place hframes (by rw [hsigs]) (by rw [hsigs]) hpc herrno,
    fun place hm => h.stops place (hmem place hm), fun hign => ?_, ?_⟩
  · rw [hcaught]
    exact ⟨(h.ignored hign).1, fun place hm => (h.ignored hign).2 place (hmem place hm)⟩
  · have hpaid := h.paid
    rw [State.settled, State.debt] at hpaid
    rw [State.settled, State.debt, hsigs, hcaught, hcount hstopped, hcount hspared, hcancelled, hframes]
    simp only [Function.update_of_ne hne.symm]
    exact hpaid

/-- A stop signal is delivered, with the default action. -/
theorem stop_cases (s : State) (sig : ℕ) :
    s.stop sig = { s with spared := (sig, s.place) :: s.spared } ∨
      s.stop sig = { s with stopped := true, stopped_by := (sig, s.place) :: s.stopped_by } := by
  unfold State.stop
  split
  · exact .inl rfl
  · exact .inr rfl

/-- SIGTSTP is delivered where its disposition is the default: at the start, or in the handler, which has
paid then. -/
theorem Inv.deliver_default (h : Inv orig s) (hpending : s.sigs.pending SIGTSTP = true)
    (hmask : s.sigs.mask SIGTSTP = false) (haction : s.sigs.action SIGTSTP = .SIG_DFL) :
    Inv orig { s.stop SIGTSTP with
      sigs := { s.sigs with pending := Function.update s.sigs.pending SIGTSTP false } } := by
  have hpaid := h.paid
  have hplace : orig.action SIGTSTP ≠ .SIG_IGN ∧ ((s.debt = 0 ∧ s.frames = [] ∧
      (s.place = .main .query ∨ s.place = .main .establish)) ∨ s.debt = 1 ∧ s.place = .handler .unblocked) := by
    rcases h.delivered hmask with ⟨hout, hdisp⟩ | ⟨f, hin, hpc, -⟩
    · rw [haction] at hdisp
      have hign : orig.action SIGTSTP ≠ .SIG_IGN := fun hign => by
        cases hpc : s.pc <;> rw [hpc] at hdisp <;> simp only [mainDisp, hign, if_true, reduceCtorEq] at hdisp
      refine ⟨hign, .inl ⟨by rw [State.debt, hout.frames]; rfl, hout.frames, ?_⟩⟩
      rw [State.place, hout.frames]
      cases hpc : s.pc with
      | query => exact .inl rfl
      | establish => exact .inr rfl
      | pause | print =>
        rw [hpc, mainDisp, if_neg hign] at hdisp
        cases hdisp
    · refine ⟨hin.caught, .inr ⟨?_, ?_⟩⟩
      · rw [State.debt, hin.frames, hpending]
        simp only [owes, hpc, if_true]
      · rw [State.place, hin.frames]
        exact congrArg Place.handler hpc
  obtain ⟨hign, hplace⟩ := hplace
  have hkeep : s.settled + s.debt ≤ State.settled { s.stop SIGTSTP with
      sigs := { s.sigs with pending := Function.update s.sigs.pending SIGTSTP false } } := by
    rcases stop_cases s SIGTSTP with hst | hst
    · rw [hst]
      rcases hplace with ⟨hdebt, -, -⟩ | ⟨hdebt, hpl⟩
      · have := List.count_le_count_cons (a := (SIGTSTP, Place.handler .unblocked))
          (b := (SIGTSTP, s.place)) (l := s.spared)
        simp only [State.settled]
        omega
      · simp only [State.settled, hpl, List.count_cons_self]
        omega
    · rw [hst]
      rcases hplace with ⟨hdebt, -, -⟩ | ⟨hdebt, hpl⟩
      · have := List.count_le_count_cons (a := (SIGTSTP, Place.handler .unblocked))
          (b := (SIGTSTP, s.place)) (l := s.stopped_by)
        simp only [State.settled]
        omega
      · simp only [State.settled, hpl, List.count_cons_self]
        omega
  have hst := stop_cases s SIGTSTP
  refine ⟨h.handlers, ?_, fun place hm => ?_, fun hc => absurd hc hign, ?_⟩
  · rcases hst with hst | hst
    · rw [hst]
      exact place_congr h.place rfl rfl rfl rfl rfl
    · rw [hst]
      exact place_congr h.place rfl rfl rfl rfl rfl
  · rcases hst with hst | hst
    · rw [hst] at hm
      exact h.stops place hm
    · rw [hst] at hm
      rcases List.mem_cons.mp hm with hc | hm
      · obtain rfl := (Prod.mk.inj hc).2
        rcases hplace with ⟨-, -, hpl | hpl⟩ | ⟨-, hpl⟩
        · exact .inl hpl
        · exact .inr (.inl hpl)
        · exact .inr (.inr hpl)
      · exact h.stops place hm
  · have hcaught : State.caught { s.stop SIGTSTP with
        sigs := { s.sigs with pending := Function.update s.sigs.pending SIGTSTP false } } = s.caught := by
      rcases hst with hst | hst <;> rw [hst]
    rw [hcaught]
    omega

theorem Inv.deliver {sig : ℕ} (h : Inv orig s) (hs : deliver sig s = some s') : Inv orig s' := by
  unfold HandlingSigtstp.deliver at hs
  split at hs
  · cases hs
  · -- it is ignored
    rename_i sigs hd
    obtain ⟨hpending, hmask, haction, rfl⟩ := deliver_eq_some hd
    obtain rfl := Option.some.inj hs
    by_cases htstp : sig = SIGTSTP
    · subst htstp
      rcases h.delivered hmask with ⟨hout, -⟩ | ⟨f, -, -, hdisp⟩
      · refine ⟨h.handlers, .inl ⟨hout.frames, hout.mask, hout.action, hout.establish⟩, h.stops, h.ignored, ?_⟩
        have hpaid := h.paid
        rw [State.debt, hout.frames] at hpaid
        rw [State.debt, hout.frames]
        exact hpaid
      · rw [hdisp] at haction
        cases haction
    · exact h.deliver_other htstp rfl rfl rfl rfl rfl rfl (.inl rfl) (.inl rfl)
  · -- the default action
    rename_i sigs hd
    obtain ⟨hpending, hmask, haction, rfl⟩ := deliver_eq_some hd
    by_cases htstp : sig = SIGTSTP
    · subst htstp
      rw [if_pos (by decide)] at hs
      obtain rfl := Option.some.inj hs
      exact h.deliver_default hpending hmask haction.symm
    · split at hs
      · obtain rfl := Option.some.inj hs
        rcases stop_cases s sig with hst | hst
        · rw [hst]
          exact h.deliver_other htstp rfl rfl rfl rfl rfl rfl (.inl rfl) (.inr rfl)
        · rw [hst]
          exact h.deliver_other htstp rfl rfl rfl rfl rfl rfl (.inr rfl) (.inl rfl)
      · split at hs
        · obtain rfl := Option.some.inj hs
          exact h.deliver_other htstp rfl rfl rfl rfl rfl rfl (.inl rfl) (.inl rfl)
        · obtain rfl := Option.some.inj hs
          exact h.deliver_other htstp rfl rfl rfl rfl rfl rfl (.inl rfl) (.inl rfl)
  · -- the handler
    rename_i sigs hd
    obtain ⟨hpending, hmask, haction, rfl⟩ := deliver_eq_some hd
    obtain rfl := Option.some.inj hs
    have htstp : sig = SIGTSTP := by
      by_contra hne
      rw [h.action_of_ne hne] at haction
      exact h.handlers sig _ haction.symm
    subst htstp
    rcases h.delivered hmask with ⟨hout, hdisp⟩ | ⟨f, -, -, hdisp⟩
    · rw [hdisp] at haction
      have hcaught : (s.pc = .pause ∨ s.pc = .print) ∧ orig.action SIGTSTP ≠ .SIG_IGN := by
        cases hpc : s.pc with
        | query | establish =>
          rw [hpc] at haction
          exact absurd haction.symm (h.handlers SIGTSTP _)
        | pause | print =>
          refine ⟨by simp only [reduceCtorEq, or_true, true_or], fun hign => ?_⟩
          rw [hpc, mainDisp, if_pos hign] at haction
          cases haction
      have hopen : orig.mask SIGTSTP = false := hout.mask ▸ hmask
      have hact : s.sigs.action = Function.update orig.action SIGTSTP (.handler .tstpHandler) := by
        rw [hout.action, ← haction]
      refine ⟨h.handlers, .inr ⟨⟨.save, 0, fun _ => false, s.sigs.mask, s.errno⟩, ⟨?_, ?_, hact, hcaught.1,
        hout.mask, hopen, hcaught.2, fun hc => ?_, fun _ => rfl, fun hc => absurd rfl hc⟩⟩, h.stops,
        fun hign => absurd hign hcaught.2, ?_⟩
      · exact congrArg (List.cons _) hout.frames
      · rw [block_mask]
        exact congrArg (fun mask => Function.update mask SIGTSTP true) hout.mask
      · cases hc
      · -- it is now owed a stop
        have hpaid := h.paid
        rw [State.debt, hout.frames] at hpaid
        exact Nat.succ_le_succ hpaid
    · rw [hdisp] at haction
      cases haction

theorem Inv.step {a : Act} (h : Inv orig s) (hs : step s a = some s') : Inv orig s' := by
  unfold HandlingSigtstp.step at hs
  split at hs
  · cases hs
  · cases a with
    | main =>
      simp only [Option.ite_none_left_eq_some] at hs
      exact h.mainStep hs.2
    | handler e =>
      simp only [Option.ite_none_left_eq_some] at hs
      exact h.handlerStep hs.2
    | kill sig =>
      obtain rfl := Option.some.inj hs
      exact h.kill sig
    | deliver sig =>
      simp only [Option.ite_none_left_eq_some] at hs
      exact h.deliver hs.2
    | orphan =>
      obtain rfl := Option.some.inj hs
      exact ⟨h.handlers, place_congr h.place rfl rfl rfl rfl rfl, h.stops, h.ignored, h.paid⟩

end Steps

theorem inv_of_reachable {orig : SigState ℕ Handler} {s : State}
    (h : Reachable (handlingSigtstp orig) s) : Inv orig s :=
  h.invariant (I := Inv orig) (fun _ hs => Starts.inv hs) fun _ _ _ hi _ hs => hi.step hs

/-! ## 4. What holds in every run -/

/-- **The handler leaves no trace**: whatever signals come and wherever, it never interrupts itself; when
it returns, `errno` is what it was, and outside it the mask is that at the start and the handler is in
place, unless SIGTSTP was ignored at the start. Then it is never caught and never stops the process; and
otherwise it does so behind the unblocking in the handler, or before the handler is established. -/
theorem handler_leaves_no_trace {orig : SigState ℕ Handler} {s : State}
    (h : Reachable (handlingSigtstp orig) s) :
    s.frames.length ≤ 1 ∧ (∀ f ∈ s.frames, f.pc = .ret → s.errno = f.entryErrno) ∧
      (s.frames = [] → s.sigs.mask = orig.mask ∧
        s.sigs.action = Function.update orig.action SIGTSTP (mainDisp orig s.pc)) ∧
      (orig.action SIGTSTP = .SIG_IGN → s.caught = 0 ∧ ∀ place, (SIGTSTP, place) ∉ s.stopped_by) ∧
      ∀ place, (SIGTSTP, place) ∈ s.stopped_by →
        place = .main .query ∨ place = .main .establish ∨ place = .handler .unblocked := by
  have hi := inv_of_reachable h
  refine ⟨?_, fun f hf hpc => ?_, fun hframes => ?_, hi.ignored, hi.stops⟩
  · rcases hi.place with hout | ⟨f, hin⟩
    · rw [hout.frames]
      exact Nat.zero_le 1
    · rw [hin.frames]
      exact Nat.le_refl 1
  · rcases hi.place with hout | ⟨g, hin⟩
    · rw [hout.frames] at hf
      cases hf
    · rw [hin.frames, List.mem_singleton] at hf
      subst hf
      exact hin.entryErrno (.inr hpc)
  · rcases hi.place with hout | ⟨f, hin⟩
    · exact ⟨hout.mask, hout.action⟩
    · rw [hin.frames] at hframes
      cases hframes

/-- **Who catches SIGTSTP does stop**: outside the handler the process has been stopped by SIGTSTP, from the
unblocking in the handler, as often as SIGTSTP was caught, but for the times that it was orphaned or that
SIGCONT came before. -/
theorem stops_when_caught {orig : SigState ℕ Handler} {s : State}
    (h : Reachable (handlingSigtstp orig) s) (hframes : s.frames = []) :
    s.caught ≤ s.stopped_by.count (SIGTSTP, .handler .unblocked) +
      s.spared.count (SIGTSTP, .handler .unblocked) + s.cancelled.countP Place.raised := by
  have hpaid := (inv_of_reachable h).paid
  rw [State.debt, hframes] at hpaid
  exact hpaid

/-- A shell with job control has started the program. -/
def fromTheShell : SigState ℕ Handler where
  mask _ := false
  pending _ := false
  action _ := .SIG_DFL

def shellStart : State where
  pc := .query
  frames := []
  sigs := fromTheShell
  errno := 0
  stopped := false
  killed := false
  orphaned := false
  caught := 0
  stopped_by := []
  cancelled := []
  spared := []

theorem shellStart_starts : Starts fromTheShell shellStart := ⟨rfl, rfl, rfl, rfl, rfl, rfl, rfl, rfl, nofun⟩

/-- The suspend character is typed twice, and SIGCONT comes once in between and once before the handler
has unblocked SIGTSTP. -/
def suspendedTwice : List Act :=
  [.main, .main, .kill SIGTSTP, .deliver SIGTSTP, .handler 9, .handler 9, .handler 9, .handler 9,
    .deliver SIGTSTP, .kill SIGCONT, .handler 9, .handler 9, .kill SIGTSTP, .handler 9, .handler 9,
    .deliver SIGTSTP, .handler 9, .handler 9, .handler 9, .kill SIGCONT, .handler 9, .handler 9, .handler 9,
    .handler 9, .handler 9]

theorem handler_leaves_no_trace_suspended : ∃ s : State, s.frames = [] ∧ s.pc = .print ∧ s.caught = 2 ∧
    s.sigs.mask = fromTheShell.mask ∧
      s.sigs.action = Function.update fromTheShell.action SIGTSTP (mainDisp fromTheShell .print) := by
  obtain ⟨s, hrun, hframes, hpc, hcaught⟩ : ∃ s, (handlingSigtstp fromTheShell).run shellStart suspendedTwice =
      some s ∧ s.frames = [] ∧ s.pc = .print ∧ s.caught = 2 := ⟨_, rfl, rfl, rfl, rfl⟩
  have h := System.reachable_of_run suspendedTwice (.init shellStart_starts) hrun
  obtain ⟨-, -, hout, -, -⟩ := handler_leaves_no_trace h
  obtain ⟨hmask, haction⟩ := hout hframes
  rw [hpc] at haction
  exact ⟨s, hframes, hpc, hcaught, hmask, haction⟩

theorem stops_when_caught_suspended : ∃ s : State, s.caught = 2 ∧
    s.stopped_by = [(SIGTSTP, .handler .unblocked)] ∧ s.cancelled = [.handler .unblock] ∧
      2 ≤ s.stopped_by.count (SIGTSTP, .handler .unblocked) +
        s.spared.count (SIGTSTP, .handler .unblocked) + s.cancelled.countP Place.raised := by
  obtain ⟨s, hrun, hframes, hcaught, hstopped, hcancelled⟩ :
      ∃ s, (handlingSigtstp fromTheShell).run shellStart suspendedTwice = some s ∧ s.frames = [] ∧
        s.caught = 2 ∧ s.stopped_by = [(SIGTSTP, .handler .unblocked)] ∧
        s.cancelled = [.handler .unblock] := ⟨_, rfl, rfl, rfl, rfl, rfl⟩
  have h := System.reachable_of_run suspendedTwice (.init shellStart_starts) hrun
  have hle := stops_when_caught h hframes
  rw [hcaught] at hle
  exact ⟨s, hcaught, hstopped, hcancelled, hle⟩

end Tlpi.HandlingSigtstp
