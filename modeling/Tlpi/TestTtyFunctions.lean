/-
`tty/test_tty_functions.c` with `ttySetCbreak()` and `ttySetRaw()` of `tty/tty_functions.c`: a program that
changes the settings of its terminal, and gives them back when it is stopped and when it ends.

## What is modelled

The program one call a step, in both of its modes, and signals of any kind that come at any moment, as in
`handling_SIGTSTP.c`: its handler for SIGTSTP is the one there with the settings of the terminal added
(what it does with `errno` is left out here). The other handler restores the settings and exits, so what
it has interrupted is never returned to; it can itself be interrupted, also by the one for SIGTSTP. While
the process is stopped, the user may change the settings. Every call that is checked may fail, which ends
the program (`failed`) with the settings that the terminal has at that moment: from an orphaned process
group in the background, for one, the last `tcsetattr()` fails, and the program's own settings stay.

`user` is a history variable: the settings that the user has made, the latest first; `handedBack` says that
they were made only where the handler for SIGTSTP stops the process. So is `stops`: the settings that the
terminal had when SIGTSTP stopped the process, from the moment on where `main()` has established the
handler for it (`caught`).

## The shape of the argument

Only the frames above the topmost invocation of `handler()` can still run (`live`), and of these at most
one is an invocation of `tstpHandler()`, since SIGTSTP is blocked in it where it is not the default. From its
first `tcsetattr()` to its second, and wherever the disposition is the default, the terminal has settings
of the user; and so it has behind the last `tcsetattr()` of whoever is going to exit.
-/
import Mathlib.Data.List.Basic
import Tlpi.Signals
import Tlpi.Transition

set_option autoImplicit false

namespace Tlpi.TestTtyFunctions

open Tlpi.Signals Tlpi.Transition

/-! ## 1. The settings -/

abbrev Flags := BitVec 32

abbrev IGNBRK : Flags := 0x001
abbrev BRKINT : Flags := 0x002
abbrev PARMRK : Flags := 0x008
abbrev INPCK : Flags := 0x010
abbrev ISTRIP : Flags := 0x020
abbrev INLCR : Flags := 0x040
abbrev IGNCR : Flags := 0x080
abbrev ICRNL : Flags := 0x100
abbrev IXON : Flags := 0x400
abbrev OPOST : Flags := 0x001
abbrev ISIG : Flags := 0x001
abbrev ICANON : Flags := 0x002
abbrev ECHO : Flags := 0x008
abbrev IEXTEN : Flags := 0x8000

/-- `struct termios`, as far as the program has to do with it. -/
structure Termios where
  c_iflag : Flags
  c_oflag : Flags
  c_lflag : Flags
  vmin : UInt8
  vtime : UInt8
deriving Repr, DecidableEq

/-- What `ttySetCbreak()` makes of the settings. -/
def ttySetCbreak (t : Termios) : Termios :=
  { t with
    c_lflag := (t.c_lflag &&& ~~~(ICANON ||| ECHO)) ||| ISIG
    c_iflag := t.c_iflag &&& ~~~ICRNL
    vmin := 1
    vtime := 0 }

/-- What `ttySetRaw()` makes of the settings. -/
def ttySetRaw (t : Termios) : Termios :=
  { c_lflag := t.c_lflag &&& ~~~(ICANON ||| ISIG ||| IEXTEN ||| ECHO)
    c_iflag := t.c_iflag &&&
      ~~~(BRKINT ||| ICRNL ||| IGNBRK ||| IGNCR ||| INLCR ||| INPCK ||| ISTRIP ||| IXON ||| PARMRK)
    c_oflag := t.c_oflag &&& ~~~OPOST
    vmin := 1
    vtime := 0 }

def ttySet (cbreak : Bool) (t : Termios) : Termios := if cbreak then ttySetCbreak t else ttySetRaw t

/-! ## 2. The program -/

abbrev SIGTERM : ℕ := 15

inductive Handler where
  | handler | tstpHandler
deriving Repr, DecidableEq

/-- The next call of `main()`. -/
inductive Pc where
  | getattr
  | setattr (t : Termios)
  /-- `sigaction(sig, NULL, &prev)`, and the signals that are left. -/
  | query (sig : ℕ) (todo : List ℕ)
  | establish (sig : ℕ) (todo : List ℕ)
  | establishTerm
  | loop
  /-- `tcsetattr()` behind the loop. -/
  | restore
  | exit
deriving Repr, DecidableEq

/-- The next call of `handler()`. -/
inductive HandlerPc where
  | restore | exit
deriving Repr, DecidableEq

/-- The next call of `tstpHandler()`. -/
inductive TstpPc where
  | getOurs | setUsers
  | signal | raise | unblock
  /-- `sigprocmask(SIG_UNBLOCK, ...)` has changed the mask; `SIG_SETMASK` is next. -/
  | unblocked
  | reestablish
  | getUsers | setOurs | ret
deriving Repr, DecidableEq

/-- An invocation of `tstpHandler()`: its locals, and the mask that its return restores. -/
structure Tstp where
  pc : TstpPc
  ourTermios : Termios
  prevMask : ℕ → Bool
  outer : ℕ → Bool

inductive Frame where
  | handler (pc : HandlerPc)
  | tstp (f : Tstp)

structure State where
  pc : Pc
  frames : List Frame
  sigs : SigState ℕ Handler
  tty : Termios
  userTermios : Termios
  stopped : Bool
  killed : Bool
  /-- `exit()` or `_exit()` has been called with `EXIT_SUCCESS`. -/
  ended : Bool
  /-- `systmErr()` has ended the program. -/
  failed : Bool
  caught : Bool
  stops : List Termios
  user : List Termios
  handedBack : Bool

/-- The function that is established for a signal. -/
def handlerFor (sig : ℕ) : Handler := if sig = SIGTSTP then .tstpHandler else .handler

/-- What follows a signal. -/
def Pc.next : List ℕ → Pc
  | [] => .establishTerm
  | sig :: todo => .query sig todo

/-- A signal is generated for the process, by somebody else or by itself. -/
def State.kill (s : State) (sig : ℕ) : State :=
  if sig = SIGCONT then
    { s with stopped := false, sigs := (s.sigs.discard Signals.stops).generate harmless SIGCONT }
  else if Signals.stops sig then
    { s with sigs := (s.sigs.discard fun other => other == SIGCONT).generate harmless sig }
  else { s with sigs := s.sigs.generate harmless sig }

/-- A call of `main()`; `quits` is whether the loop is left. -/
def mainStep (cbreak quits : Bool) (s : State) : State :=
  match s.pc with
  | .getattr => { s with pc := .setattr (ttySet cbreak s.tty), userTermios := s.tty }
  | .setattr t =>
    { s with pc := if cbreak then .query SIGQUIT [SIGINT, SIGTSTP] else .establishTerm, tty := t }
  | .query sig todo =>
    { s with pc := if s.sigs.action sig = .SIG_IGN then .next todo else .establish sig todo }
  | .establish sig todo =>
    { s with
      pc := .next todo
      sigs := s.sigs.sigaction harmless sig (.handler (handlerFor sig))
      caught := s.caught || sig == SIGTSTP }
  | .establishTerm =>
    { s with pc := .loop, sigs := s.sigs.sigaction harmless SIGTERM (.handler .handler) }
  | .loop => { s with pc := if quits then .restore else .loop }
  | .restore => { s with pc := .exit, tty := s.userTermios }
  | .exit => { s with ended := true }

/-- A call of `handler()`. -/
def handlerStep (pc : HandlerPc) (frames : List Frame) (s : State) : State :=
  match pc with
  | .restore => { s with frames := .handler .exit :: frames, tty := s.userTermios }
  | .exit => { s with ended := true }

/-- A call of `tstpHandler()`. -/
def tstpStep (f : Tstp) (frames : List Frame) (s : State) : Option State :=
  match f.pc with
  | .getOurs => some { s with frames := .tstp { f with pc := .setUsers, ourTermios := s.tty } :: frames }
  | .setUsers => some { s with frames := .tstp { f with pc := .signal } :: frames, tty := s.userTermios }
  | .signal =>
    some { s with
      frames := .tstp { f with pc := .raise } :: frames
      sigs := s.sigs.sigaction harmless SIGTSTP .SIG_DFL }
  | .raise => some { s.kill SIGTSTP with frames := .tstp { f with pc := .unblock } :: frames }
  | .unblock =>
    some { s with
      frames := .tstp { f with pc := .unblocked, prevMask := s.sigs.mask } :: frames
      sigs := s.sigs.unblock SIGTSTP }
  | .unblocked =>
    -- what is unblocked is delivered before the call comes back
    if s.sigs.pending SIGTSTP && !s.sigs.mask SIGTSTP then none
    else
      some { s with
        frames := .tstp { f with pc := .reestablish } :: frames
        sigs := s.sigs.setmask f.prevMask }
  | .reestablish =>
    some { s with
      frames := .tstp { f with pc := .getUsers } :: frames
      sigs := s.sigs.sigaction harmless SIGTSTP (.handler .tstpHandler) }
  | .getUsers => some { s with frames := .tstp { f with pc := .setOurs } :: frames, userTermios := s.tty }
  | .setOurs => some { s with frames := .tstp { f with pc := .ret } :: frames, tty := f.ourTermios }
  | .ret => some { s with frames := frames, sigs := s.sigs.setmask f.outer }

def programStep (cbreak quits : Bool) (s : State) : Option State :=
  match s.frames with
  | [] => some (mainStep cbreak quits s)
  | .handler pc :: frames => some (handlerStep pc frames s)
  | .tstp f :: frames => tstpStep f frames s

/-- The next call of `main()` is one that `systmErr()` follows if it fails. -/
def Pc.checked : Pc → Bool
  | .loop | .exit => false
  | _ => true

def TstpPc.checked : TstpPc → Bool
  | .raise | .ret => false
  | _ => true

/-- The same, of whoever runs. -/
def checked (s : State) : Bool :=
  match s.frames with
  | [] => s.pc.checked
  | .handler pc :: _ => pc = .restore
  | .tstp f :: _ => f.pc.checked

/-- The program is where its handler stops it. -/
def handsBack : List Frame → Bool
  | .tstp f :: _ => f.pc = .unblocked
  | _ => false

/-- The default action of a stop signal. -/
def State.stop (s : State) (sig : ℕ) : State :=
  { s with stopped := true, stops := if sig = SIGTSTP ∧ s.caught then s.tty :: s.stops else s.stops }

/-- A pending signal is delivered; most stop signals do not stop an orphaned process group. -/
def deliver (sig : ℕ) (orphaned : Bool) (s : State) : Option State :=
  match s.sigs.deliver sig with
  | none => none
  | some (.SIG_IGN, sigs) => some { s with sigs := sigs }
  | some (.SIG_DFL, sigs) =>
    if Signals.stops sig then
      some (if orphaned && sig != SIGSTOP then { s with sigs := sigs } else { s.stop sig with sigs := sigs })
    else if harmless sig then some { s with sigs := sigs }
    else some { s with sigs := sigs, killed := true }
  | some (.handler .handler, sigs) =>
    some { s with frames := .handler .restore :: s.frames, sigs := sigs.block sig }
  | some (.handler .tstpHandler, sigs) =>
    some { s with
      frames := .tstp ⟨.getOurs, s.tty, s.sigs.mask, s.sigs.mask⟩ :: s.frames
      sigs := sigs.block sig }

inductive Act where
  | program (quits : Bool)
  /-- The next call of the program fails. -/
  | fail
  /-- Somebody sends a signal, from the terminal for one. -/
  | kill (sig : ℕ)
  | deliver (sig : ℕ) (orphaned : Bool)
  /-- The user changes the settings. -/
  | user (t : Termios)
deriving Repr, DecidableEq

def step (cbreak : Bool) (s : State) (a : Act) : Option State :=
  if s.killed || s.ended || s.failed then none
  else
    match a with
    | .program quits => if s.stopped then none else programStep cbreak quits s
    | .fail => if s.stopped || !checked s then none else some { s with failed := true }
    | .kill sig => some (s.kill sig)
    | .deliver sig orphaned => if s.stopped && sig != SIGKILL then none else deliver sig orphaned s
    | .user t =>
      if s.stopped then
        some { s with tty := t, user := t :: s.user, handedBack := s.handedBack && handsBack s.frames }
      else none

/-- After `exec()`: any mask, anything pending, and no handler; the settings are the user's. -/
structure Starts (orig : Termios) (s : State) : Prop where
  pc : s.pc = .getattr
  frames : s.frames = []
  handlers : ∀ sig f, s.sigs.action sig ≠ .handler f
  tty : s.tty = orig
  stopped : s.stopped = false
  killed : s.killed = false
  ended : s.ended = false
  failed : s.failed = false
  caught : s.caught = false
  stops : s.stops = []
  user : s.user = [orig]
  handedBack : s.handedBack = true

/-- The invocations of `tstpHandler()` that will go on: `handler()` returns to none below it. -/
def live : List Frame → List Tstp
  | .tstp f :: frames => f :: live frames
  | _ => []

/-- Somebody who is going to exit has restored the settings. -/
def settled (pc : Pc) : List Frame → Bool
  | [] => pc = .exit
  | .handler pc' :: _ => pc' = .exit
  | .tstp _ :: frames => settled pc frames

/-- Behind `ttySetCbreak()` or `ttySetRaw()`. -/
def Pc.set : Pc → Bool
  | .getattr | .setattr _ => false
  | _ => true

@[simp] theorem set_next (todo : List ℕ) : (Pc.next todo).set = true := by cases todo <;> rfl

theorem next_ne_exit (todo : List ℕ) : Pc.next todo ≠ .exit := by cases todo <;> nofun

/-- Between the two `tcsetattr()` of `tstpHandler()`. -/
def TstpPc.usersTurn : TstpPc → Bool
  | .signal | .raise | .unblock | .unblocked | .reestablish | .getUsers | .setOurs => true
  | _ => false

/-- The disposition of SIGTSTP in `tstpHandler()`. -/
def TstpPc.disposition : TstpPc → Disposition Handler
  | .raise | .unblock | .unblocked | .reestablish => .SIG_DFL
  | _ => .handler .tstpHandler

structure Inside (s : State) (f : Tstp) : Prop where
  mask : f.pc ≠ .unblocked → s.sigs.mask SIGTSTP = true
  prevMask : f.pc = .unblocked → f.prevMask SIGTSTP = true
  action : s.sigs.action SIGTSTP = f.pc.disposition
  tty : f.pc.usersTurn = true → s.tty ∈ s.user
  ours : settled s.pc s.frames = true → f.pc ≠ .getOurs → f.ourTermios ∈ s.user

structure Inv (s : State) : Prop where
  live : live s.frames = [] ∨ ∃ f, live s.frames = [f] ∧ Inside s f
  early : s.pc.set = false → s.frames = [] ∧ (∀ sig f, s.sigs.action sig ≠ .handler f) ∧ s.tty ∈ s.user
  handlers : ∀ sig f, s.sigs.action sig = .handler f → f = handlerFor sig
  userTermios : s.pc ≠ .getattr → s.userTermios ∈ s.user
  settled : settled s.pc s.frames = true → s.tty ∈ s.user
  default : s.caught = true → s.sigs.action SIGTSTP = .SIG_DFL → s.tty ∈ s.user
  caught : s.caught = true → s.pc.set = true
  ended : s.ended = true → s.tty ∈ s.user
  stops : ∀ t ∈ s.stops, t ∈ s.user

theorem Starts.inv {orig : Termios} {s : State} (h : Starts orig s) : Inv s where
  live := by
    rw [h.frames]
    exact .inl rfl
  early := fun _ => ⟨h.frames, h.handlers, by rw [h.tty, h.user]; exact List.mem_singleton_self _⟩
  handlers := fun sig f hc => absurd hc (h.handlers sig f)
  userTermios := fun hpc => absurd h.pc hpc
  settled := fun hc => by
    rw [h.frames, TestTtyFunctions.settled, h.pc] at hc
    cases hc
  default := fun hc => by
    rw [h.caught] at hc
    cases hc
  caught := fun hc => by
    rw [h.caught] at hc
    cases hc
  ended := fun hc => by
    rw [h.ended] at hc
    cases hc
  stops := fun t ht => by
    rw [h.stops] at ht
    cases ht

section Steps

variable {s s' : State}

/-- What the user has set stays so, and everything else that is of interest is as it was. -/
theorem Inv.same (h : Inv s) (hpc : s'.pc = s.pc) (hframes : s'.frames = s.frames)
    (hmask : s'.sigs.mask = s.sigs.mask) (haction : s'.sigs.action = s.sigs.action)
    (htty : s'.tty = s.tty ∨ s'.tty ∈ s'.user) (husers : s'.userTermios = s.userTermios)
    (hcaught : s'.caught = s.caught) (hended : s'.ended = s.ended) (huser : ∀ t ∈ s.user, t ∈ s'.user)
    (hstops : ∀ t ∈ s'.stops, t ∈ s'.user) : Inv s' := by
  -- the settings change only to some that the user makes
  have htty' : s.tty ∈ s.user → s'.tty ∈ s'.user := fun ht => by
    rcases htty with heq | hmem
    · rw [heq]
      exact huser _ ht
    · exact hmem
  refine ⟨?_, fun hc => ?_, fun sig f hc => h.handlers sig f (haction ▸ hc), fun hc => ?_, fun hc => ?_,
    fun hc hdfl => ?_, fun hc => ?_, fun hc => ?_, hstops⟩
  · rw [hframes]
    refine h.live.imp id fun ⟨f, hlive, hin⟩ =>
      ⟨f, hlive, ?_, hin.prevMask, ?_, fun hc => htty' (hin.tty hc), ?_⟩
    · rw [hmask]
      exact hin.mask
    · rw [haction]
      exact hin.action
    · rw [hpc, hframes]
      exact fun hc hne => huser _ (hin.ours hc hne)
  · rw [hpc] at hc
    obtain ⟨hnil, hno, ht⟩ := h.early hc
    exact ⟨hframes.trans hnil, fun sig f => haction ▸ hno sig f, htty' ht⟩
  · rw [hpc] at hc
    rw [husers]
    exact huser _ (h.userTermios hc)
  · rw [hpc, hframes] at hc
    exact htty' (h.settled hc)
  · rw [hcaught] at hc
    rw [haction] at hdfl
    exact htty' (h.default hc hdfl)
  · rw [hcaught] at hc
    rw [hpc]
    exact h.caught hc
  · rw [hended] at hc
    exact htty' (h.ended hc)

theorem kill_same (s : State) (sig : ℕ) : ∃ sigs stopped,
    s.kill sig = { s with sigs := sigs, stopped := stopped } ∧ sigs.mask = s.sigs.mask ∧
      sigs.action = s.sigs.action := by
  unfold State.kill
  split
  · exact ⟨_, _, rfl, generate_mask .., generate_action ..⟩
  · split
    · exact ⟨_, _, rfl, generate_mask .., generate_action ..⟩
    · exact ⟨_, _, rfl, generate_mask .., generate_action ..⟩

theorem Inv.kill (h : Inv s) (sig : ℕ) : Inv (s.kill sig) := by
  obtain ⟨sigs, stopped, heq, hmask, haction⟩ := kill_same s sig
  rw [heq]
  exact h.same rfl rfl hmask haction (.inl rfl) rfl rfl rfl (fun _ ht => ht) h.stops

theorem Inv.user (h : Inv s) (t : Termios) (handedBack : Bool) :
    Inv { s with tty := t, user := t :: s.user, handedBack := handedBack } :=
  h.same rfl rfl rfl rfl (.inr List.mem_cons_self) rfl rfl rfl (fun _ ht => List.mem_cons_of_mem _ ht)
    fun _ ht => List.mem_cons_of_mem _ (h.stops _ ht)

/-- Behind `main()`'s first calls. -/
theorem Inv.set_of_frames (h : Inv s) (hframes : s.frames ≠ []) : s.pc.set = true := by
  by_contra hno
  exact hframes (h.early (Bool.not_eq_true _ ▸ hno)).1

theorem Inv.users_mem (h : Inv s) (hset : s.pc.set = true) : s.userTermios ∈ s.user :=
  h.userTermios fun hc => by
    rw [hc] at hset
    cases hset

/-- A handler is invoked. -/
theorem Inv.set_of_action (h : Inv s) {sig : ℕ} {f : Handler} (haction : s.sigs.action sig = .handler f) :
    s.pc.set = true := by
  by_contra hno
  exact (h.early (Bool.not_eq_true _ ▸ hno)).2.1 sig f haction

/-- Only `handler()` is on top from now on. -/
theorem Inv.handler (h : Inv s) (hset : s.pc.set = true) {pc : HandlerPc} {frames : List Frame}
    {sigs : SigState ℕ Handler} {tty : Termios} (haction : sigs.action = s.sigs.action)
    (htty : tty = s.tty ∨ tty ∈ s.user) (hsettled : pc = .exit → tty ∈ s.user) :
    Inv { s with frames := .handler pc :: frames, sigs := sigs, tty := tty } := by
  have htty' : s.tty ∈ s.user → tty ∈ s.user := fun ht => by
    rcases htty with rfl | hmem
    · exact ht
    · exact hmem
  refine ⟨.inl rfl, fun hc => ?_, fun sig f hc => h.handlers sig f (haction ▸ hc), h.userTermios,
    fun hc => ?_, fun hc hdfl => htty' (h.default hc (haction ▸ hdfl)), h.caught,
    fun hc => htty' (h.ended hc), h.stops⟩
  · rw [hset] at hc
    cases hc
  · exact hsettled (of_decide_eq_true hc)

theorem Inv.deliver (h : Inv s) {sig : ℕ} {orphaned : Bool} (hs : deliver sig orphaned s = some s') :
    Inv s' := by
  unfold TestTtyFunctions.deliver at hs
  split at hs
  · cases hs
  · rename_i sigs hdeliver
    obtain ⟨-, -, -, rfl⟩ := deliver_eq_some hdeliver
    obtain rfl := Option.some.inj hs
    exact h.same rfl rfl rfl rfl (.inl rfl) rfl rfl rfl (fun _ ht => ht) h.stops
  · rename_i sigs hdeliver
    obtain ⟨-, -, hdfl, rfl⟩ := deliver_eq_some hdeliver
    split at hs
    · split at hs
      · obtain rfl := Option.some.inj hs
        exact h.same rfl rfl rfl rfl (.inl rfl) rfl rfl rfl (fun _ ht => ht) h.stops
      · obtain rfl := Option.some.inj hs
        refine h.same rfl rfl rfl rfl (.inl rfl) rfl rfl rfl (fun _ ht => ht) fun t ht => ?_
        simp only [State.stop] at ht
        split at ht
        · rename_i hcaught
          -- stopped by SIGTSTP, so its disposition is the default
          obtain ⟨rfl, hcaught⟩ := hcaught
          rcases List.mem_cons.mp ht with rfl | ht
          · exact h.default hcaught hdfl.symm
          · exact h.stops t ht
        · exact h.stops t ht
    · split at hs
      · obtain rfl := Option.some.inj hs
        exact h.same rfl rfl rfl rfl (.inl rfl) rfl rfl rfl (fun _ ht => ht) h.stops
      · obtain rfl := Option.some.inj hs
        exact h.same rfl rfl rfl rfl (.inl rfl) rfl rfl rfl (fun _ ht => ht) h.stops
  · rename_i sigs hdeliver
    obtain ⟨-, -, haction, rfl⟩ := deliver_eq_some hdeliver
    obtain rfl := Option.some.inj hs
    exact h.handler (h.set_of_action haction.symm) rfl (.inl rfl) nofun
  · rename_i sigs hdeliver
    obtain ⟨-, hmask, haction, rfl⟩ := deliver_eq_some hdeliver
    obtain rfl := Option.some.inj hs
    have hset := h.set_of_action haction.symm
    obtain rfl : sig = SIGTSTP := by
      by_contra hne
      have := h.handlers sig _ haction.symm
      rw [handlerFor, if_neg hne] at this
      cases this
    -- no invocation of `tstpHandler()` is below: there the signal is blocked, or not caught
    have hlive : TestTtyFunctions.live s.frames = [] := by
      rcases h.live with hnil | ⟨f, -, hin⟩
      · exact hnil
      · have haction' := hin.action
        rw [← haction] at haction'
        by_cases hpc : f.pc = .unblocked
        · rw [hpc] at haction'
          cases haction'
        · rw [hin.mask hpc] at hmask
          cases hmask
    refine ⟨.inr ⟨_, congrArg (List.cons _) hlive, ?_⟩, fun hc => ?_, h.handlers, h.userTermios, h.settled,
      h.default, h.caught, h.ended, h.stops⟩
    · exact ⟨fun _ => by simp only [block_mask, Function.update_self], nofun, haction.symm, nofun,
        fun _ hne => absurd rfl hne⟩
    · exact absurd (hset.symm.trans hc) nofun

/-- A call of `main()` behind its first two. -/
theorem Inv.main (h : Inv s) (hframes : s'.frames = []) (hset : s'.pc.set = true)
    (hhandlers : ∀ sig f, s'.sigs.action sig = .handler f → f = handlerFor sig)
    (husers : s'.userTermios ∈ s.user) (hsettled : s'.pc = .exit → s'.tty ∈ s.user)
    (hdefault : s'.caught = true → s'.sigs.action SIGTSTP = .SIG_DFL → s'.tty ∈ s.user)
    (hended : s'.ended = true → s'.tty ∈ s.user) (huser : s'.user = s.user) (hstops : s'.stops = s.stops) :
    Inv s' := by
  refine ⟨.inl (by rw [hframes]; rfl), fun hc => ?_, hhandlers, fun _ => huser ▸ husers, fun hc => ?_, ?_,
    fun _ => hset, huser ▸ hended, ?_⟩
  · rw [hset] at hc
    cases hc
  · rw [hframes] at hc
    rw [huser]
    exact hsettled (of_decide_eq_true hc)
  · rw [huser]
    exact hdefault
  · rw [hstops, huser]
    exact h.stops

/-- A handler is established. -/
theorem handlers_update {act : Disposition Handler} {sig : ℕ}
    (h : ∀ sig f, s.sigs.action sig = .handler f → f = handlerFor sig)
    (hact : ∀ f, act = .handler f → f = handlerFor sig) (sig' : ℕ) (f : Handler)
    (hf : (s.sigs.sigaction harmless sig act).action sig' = .handler f) : f = handlerFor sig' := by
  rw [sigaction_action] at hf
  rcases eq_or_ne sig' sig with rfl | hne
  · rw [Function.update_self] at hf
    exact hact f hf
  · rw [Function.update_of_ne hne] at hf
    exact h sig' f hf

theorem Inv.mainStep (h : Inv s) (hframes : s.frames = []) (hended : s.ended = false) (cbreak quits : Bool) :
    Inv (mainStep cbreak quits s) := by
  have hno : ∀ {P : Prop}, s.ended = true → P := fun hc => by
    rw [hended] at hc
    cases hc
  have husers : s.pc.set = true → s.userTermios ∈ s.user := h.users_mem
  cases hpc : s.pc with
  | getattr =>
    obtain ⟨-, hhandlers, htty⟩ := h.early (by rw [hpc]; rfl)
    -- no handler is established yet
    have hcaught : ∀ {P : Prop}, s.caught = true → P := fun hc => by
      have := h.caught hc
      rw [hpc] at this
      cases this
    simp only [TestTtyFunctions.mainStep, hpc]
    refine ⟨h.live.imp id fun ⟨f, hlive, _⟩ => ?_, fun _ => ⟨hframes, hhandlers, htty⟩, h.handlers,
      fun _ => htty, fun _ => htty, fun hc => hcaught hc, fun hc => hcaught hc, fun _ => htty, h.stops⟩
    rw [hframes] at hlive
    cases hlive
  | setattr t =>
    obtain ⟨-, hhandlers, htty⟩ := h.early (by rw [hpc]; rfl)
    simp only [TestTtyFunctions.mainStep, hpc]
    have hnext : (if cbreak then Pc.query SIGQUIT [SIGINT, SIGTSTP] else .establishTerm).set = true ∧
        (if cbreak then Pc.query SIGQUIT [SIGINT, SIGTSTP] else .establishTerm) ≠ .exit := by
      cases cbreak <;> exact ⟨rfl, nofun⟩
    refine Inv.main h hframes hnext.1 h.handlers (h.userTermios (by rw [hpc]; nofun))
      (fun hc => absurd hc hnext.2) (fun hc => ?_) hno rfl rfl
    have := h.caught hc
    rw [hpc] at this
    cases this
  | query sig todo =>
    have hset : s.pc.set = true := by rw [hpc]; rfl
    simp only [TestTtyFunctions.mainStep, hpc]
    refine Inv.main h hframes ?_ h.handlers (husers hset) (fun hc => ?_) h.default hno rfl rfl
    · simp only
      split
      · exact set_next todo
      · rfl
    · simp only at hc
      split at hc
      · exact absurd hc (next_ne_exit todo)
      · cases hc
  | establish sig todo =>
    have hset : s.pc.set = true := by rw [hpc]; rfl
    simp only [TestTtyFunctions.mainStep, hpc]
    refine Inv.main h hframes (set_next todo) (handlers_update h.handlers fun f hf => ?_) (husers hset)
      (fun hc => absurd hc (next_ne_exit todo)) (fun hc hdfl => ?_) hno rfl rfl
    · exact (Disposition.handler.inj hf).symm
    · -- the disposition of SIGTSTP is the default only if it is another signal's turn
      simp only [sigaction_action] at hdfl hc
      rcases eq_or_ne sig SIGTSTP with rfl | hne
      · rw [Function.update_self] at hdfl
        cases hdfl
      · rw [Function.update_of_ne hne.symm] at hdfl
        rw [beq_false_of_ne hne, Bool.or_false] at hc
        exact h.default hc hdfl
  | establishTerm =>
    have hset : s.pc.set = true := by rw [hpc]; rfl
    simp only [TestTtyFunctions.mainStep, hpc]
    refine Inv.main h hframes rfl (handlers_update h.handlers fun f hf => ?_) (husers hset) nofun
      (fun hc hdfl => ?_) hno rfl rfl
    · exact (Disposition.handler.inj hf).symm
    · simp only [sigaction_action] at hdfl
      rw [Function.update_of_ne (by decide)] at hdfl
      exact h.default hc hdfl
  | loop =>
    have hset : s.pc.set = true := by rw [hpc]; rfl
    simp only [TestTtyFunctions.mainStep, hpc]
    refine Inv.main h hframes ?_ h.handlers (husers hset) (fun hc => ?_) h.default hno rfl rfl
    · cases quits <;> rfl
    · cases quits <;> cases hc
  | restore =>
    have hset : s.pc.set = true := by rw [hpc]; rfl
    simp only [TestTtyFunctions.mainStep, hpc]
    exact Inv.main h hframes rfl h.handlers (husers hset) (fun _ => husers hset) (fun _ _ => husers hset)
      (fun _ => husers hset) rfl rfl
  | exit =>
    have hset : s.pc.set = true := by rw [hpc]; rfl
    have htty := h.settled (by rw [hframes, hpc]; rfl)
    simp only [TestTtyFunctions.mainStep, hpc]
    exact Inv.main h hframes rfl h.handlers (husers hset) (fun _ => htty) (fun _ _ => htty)
      (fun _ => htty) rfl rfl

theorem Inv.handlerStep (h : Inv s) {pc : HandlerPc} {frames : List Frame}
    (hframes : s.frames = .handler pc :: frames) : Inv (handlerStep pc frames s) := by
  have hset := h.set_of_frames (by rw [hframes]; nofun)
  have husers := h.users_mem hset
  cases pc with
  | restore => exact h.handler hset rfl (.inr husers) fun _ => husers
  | exit =>
    have htty := h.settled (by rw [hframes]; rfl)
    exact ⟨.inl (by rw [TestTtyFunctions.handlerStep, hframes]; rfl), h.early, h.handlers, h.userTermios,
      h.settled, h.default, h.caught, fun _ => htty, h.stops⟩

/-- Where `tstpHandler()` runs. -/
theorem Inv.inside (h : Inv s) {f : Tstp} {frames : List Frame} (hframes : s.frames = .tstp f :: frames) :
    TestTtyFunctions.live frames = [] ∧ Inside s f ∧ s.pc.set = true := by
  have hset := h.set_of_frames (by rw [hframes]; nofun)
  rcases h.live with hnil | ⟨f', hlive, hin⟩
  · rw [hframes] at hnil
    cases hnil
  · rw [hframes] at hlive
    obtain ⟨rfl, hrest⟩ := List.cons.inj hlive
    exact ⟨hrest, hin, hset⟩

/-- `tstpHandler()` goes on. -/
theorem Inv.tstp (h : Inv s) {f f' : Tstp} {frames : List Frame} (hframes : s.frames = .tstp f :: frames)
    (hframes' : s'.frames = .tstp f' :: frames) (hended : s'.ended = false) (hpc : s'.pc = s.pc)
    (huser : s'.user = s.user) (hstops : s'.stops = s.stops)
    (hhandlers : ∀ sig f, s'.sigs.action sig = .handler f → f = handlerFor sig)
    (husers : s'.userTermios ∈ s.user)
    (hsettled : TestTtyFunctions.settled s.pc s.frames = true → s'.tty ∈ s.user)
    (hdefault : s'.sigs.action SIGTSTP = .SIG_DFL → s'.tty ∈ s.user) (hin : Inside s' f') : Inv s' := by
  obtain ⟨hrest, -, hset⟩ := h.inside hframes
  refine ⟨.inr ⟨f', ?_, hin⟩, fun hc => ?_, hhandlers, fun _ => huser ▸ husers, fun hc => ?_,
    fun _ hdfl => ?_, fun _ => hpc ▸ hset, fun hc => ?_, ?_⟩
  · rw [hframes']
    exact congrArg (List.cons f') hrest
  · rw [hpc, hset] at hc
    cases hc
  · rw [hpc, hframes'] at hc
    rw [huser]
    exact hsettled (by rw [hframes]; exact hc)
  · rw [huser]
    exact hdefault hdfl
  · rw [hended] at hc
    cases hc
  · rw [hstops, huser]
    exact h.stops

theorem Inv.tstpStep (h : Inv s) (hended : s.ended = false) {f : Tstp} {frames : List Frame}
    (hframes : s.frames = .tstp f :: frames) (hs : tstpStep f frames s = some s') : Inv s' := by
  obtain ⟨hrest, hin, hset⟩ := h.inside hframes
  have husers := h.users_mem hset
  obtain ⟨pc, ours, prevMask, outer⟩ := f
  cases pc with
  | getOurs =>
    obtain rfl := Option.some.inj hs
    refine h.tstp hframes rfl hended rfl rfl rfl h.handlers husers h.settled (fun hdfl => ?_)
      ⟨fun _ => hin.mask nofun, nofun, hin.action, nofun, fun hc _ => h.settled (by rw [hframes]; exact hc)⟩
    exact absurd (hin.action.symm.trans hdfl) nofun
  | setUsers =>
    obtain rfl := Option.some.inj hs
    exact h.tstp hframes rfl hended rfl rfl rfl h.handlers husers (fun _ => husers) (fun _ => husers)
      ⟨fun _ => hin.mask nofun, nofun, hin.action, fun _ => husers,
        fun hc _ => hin.ours (by rw [hframes]; exact hc) nofun⟩
  | signal =>
    obtain rfl := Option.some.inj hs
    have htty := hin.tty rfl
    exact h.tstp hframes rfl hended rfl rfl rfl (handlers_update h.handlers nofun) husers (fun _ => htty)
      (fun _ => htty) ⟨fun _ => hin.mask nofun, nofun,
        by simp only [sigaction_action, Function.update_self, TstpPc.disposition], fun _ => htty,
        fun hc _ => hin.ours (by rw [hframes]; exact hc) nofun⟩
  | raise =>
    obtain rfl := Option.some.inj hs
    obtain ⟨sigs, stopped, heq, hmask, haction⟩ := kill_same s SIGTSTP
    have htty := hin.tty rfl
    rw [heq]
    refine h.tstp hframes rfl hended rfl rfl rfl (fun sig f hc => h.handlers sig f (haction ▸ hc)) husers
      (fun _ => htty) (fun _ => htty) ⟨fun _ => ?_, nofun, haction ▸ hin.action, fun _ => htty,
        fun hc _ => hin.ours (by rw [hframes]; exact hc) nofun⟩
    simp only [hmask]
    exact hin.mask nofun
  | unblock =>
    obtain rfl := Option.some.inj hs
    have htty := hin.tty rfl
    exact h.tstp hframes rfl hended rfl rfl rfl h.handlers husers (fun _ => htty) (fun _ => htty)
      ⟨fun hne => absurd rfl hne, fun _ => hin.mask nofun, hin.action, fun _ => htty,
        fun hc _ => hin.ours (by rw [hframes]; exact hc) nofun⟩
  | unblocked =>
    obtain ⟨-, hs⟩ := Option.ite_none_left_eq_some.mp hs
    obtain rfl := Option.some.inj hs
    have htty := hin.tty rfl
    exact h.tstp hframes rfl hended rfl rfl rfl h.handlers husers (fun _ => htty) (fun _ => htty)
      ⟨fun _ => hin.prevMask rfl, nofun, hin.action, fun _ => htty,
        fun hc _ => hin.ours (by rw [hframes]; exact hc) nofun⟩
  | reestablish =>
    obtain rfl := Option.some.inj hs
    have htty := hin.tty rfl
    refine h.tstp hframes rfl hended rfl rfl rfl (handlers_update h.handlers fun f hf => ?_) husers
      (fun _ => htty) (fun _ => htty) ⟨fun _ => hin.mask nofun, nofun,
        by simp only [sigaction_action, Function.update_self, TstpPc.disposition], fun _ => htty,
        fun hc _ => hin.ours (by rw [hframes]; exact hc) nofun⟩
    exact (Disposition.handler.inj hf).symm
  | getUsers =>
    obtain rfl := Option.some.inj hs
    have htty := hin.tty rfl
    exact h.tstp hframes rfl hended rfl rfl rfl h.handlers htty (fun _ => htty) (fun _ => htty)
      ⟨fun _ => hin.mask nofun, nofun, hin.action, fun _ => htty,
        fun hc _ => hin.ours (by rw [hframes]; exact hc) nofun⟩
  | setOurs =>
    obtain rfl := Option.some.inj hs
    -- its own settings, unless somebody below has restored the user's by then
    refine h.tstp hframes rfl hended rfl rfl rfl h.handlers husers (fun hc => hin.ours hc nofun)
      (fun hdfl => ?_) ⟨fun _ => hin.mask nofun, nofun, hin.action, nofun,
        fun hc _ => hin.ours (by rw [hframes]; exact hc) nofun⟩
    exact absurd (hin.action.symm.trans hdfl) nofun
  | ret =>
    obtain rfl := Option.some.inj hs
    refine ⟨.inl hrest, fun hc => absurd (hset.symm.trans hc) nofun, h.handlers, h.userTermios,
      fun hc => h.settled (by rw [hframes]; exact hc), h.default, h.caught, h.ended, h.stops⟩

theorem Inv.step {cbreak : Bool} {a : Act} (h : Inv s) (hs : step cbreak s a = some s') : Inv s' := by
  obtain ⟨hrunning, hs⟩ := Option.ite_none_left_eq_some.mp hs
  simp only [Bool.or_eq_true, not_or, Bool.not_eq_true] at hrunning
  obtain ⟨⟨-, hended⟩, -⟩ := hrunning
  cases a with
  | program quits =>
    obtain ⟨-, hs⟩ := Option.ite_none_left_eq_some.mp hs
    unfold programStep at hs
    split at hs
    · rename_i hframes
      obtain rfl := Option.some.inj hs
      exact h.mainStep hframes hended cbreak quits
    · rename_i hframes
      obtain rfl := Option.some.inj hs
      exact h.handlerStep hframes
    · rename_i hframes
      exact h.tstpStep hended hframes hs
  | fail =>
    obtain ⟨-, hs⟩ := Option.ite_none_left_eq_some.mp hs
    obtain rfl := Option.some.inj hs
    exact h.same rfl rfl rfl rfl (.inl rfl) rfl rfl rfl (fun _ => id) h.stops
  | kill sig =>
    obtain rfl := Option.some.inj hs
    exact h.kill sig
  | deliver sig orphaned => exact h.deliver (Option.ite_none_left_eq_some.mp hs).2
  | user t =>
    obtain ⟨-, hs⟩ := Option.ite_none_right_eq_some.mp hs
    obtain rfl := Option.some.inj hs
    exact h.user t _

end Steps

/-! ## 4. The program's own settings -/

/-- `main()` is between setting the terminal and restoring it. -/
def Pc.works : Pc → Bool
  | .query _ _ | .establish _ _ | .establishTerm | .loop | .restore => true
  | _ => false

/-- Whose settings the terminal and the variables have in `tstpHandler()`. -/
def Owns (own tty users : Termios) (user : List Termios) : TstpPc → Termios → Prop
  | .getOurs, _ | .ret, _ => tty = own ∧ user.head? = some users
  | .setUsers, ours | .setOurs, ours => ours = own ∧ user.head? = some users
  | _, ours => ours = own ∧ user.head? = some tty

structure Own (cbreak : Bool) (orig : Termios) (s : State) : Prop where
  getattr : s.pc = .getattr → s.tty = orig ∧ s.user.head? = some orig
  setattr : ∀ t, s.pc = .setattr t →
    t = ttySet cbreak orig ∧ s.userTermios = orig ∧ s.user.head? = some orig
  main : s.pc.works = true → s.frames = [] →
    s.tty = ttySet cbreak orig ∧ s.user.head? = some s.userTermios
  tstp : s.pc.works = true → ∀ f, s.frames = [.tstp f] →
    Owns (ttySet cbreak orig) s.tty s.userTermios s.user f.pc f.ourTermios

section Steps

variable {cbreak : Bool} {orig : Termios} {s s' : State}

theorem Starts.own (h : Starts orig s) : Own cbreak orig s where
  getattr := fun _ => ⟨h.tty, by rw [h.user]; rfl⟩
  setattr := fun t hc => by
    rw [h.pc] at hc
    cases hc
  main := fun hc => by
    rw [h.pc] at hc
    cases hc
  tstp := fun hc => by
    rw [h.pc] at hc
    cases hc

/-- Behind the first two calls, and with a frame. -/
theorem own_of_frames (hset : s.pc.set = true) (hnil : s.frames ≠ [])
    (htstp : ∀ f, s.frames = [.tstp f] → s.pc.works = true →
      Owns (ttySet cbreak orig) s.tty s.userTermios s.user f.pc f.ourTermios) : Own cbreak orig s where
  getattr := fun hc => by
    rw [hc] at hset
    cases hset
  setattr := fun t hc => by
    rw [hc] at hset
    cases hset
  main := fun _ hc => absurd hc hnil
  tstp := fun hc f hframes => htstp f hframes hc

theorem Own.kill (h : Own cbreak orig s) (sig : ℕ) : Own cbreak orig (s.kill sig) := by
  obtain ⟨sigs, stopped, heq, -, -⟩ := kill_same s sig
  rw [heq]
  exact ⟨h.getattr, h.setattr, h.main, h.tstp⟩

theorem Own.user (h : Own cbreak orig s) (hi : Inv s) (hback : handsBack s.frames = true) (t : Termios)
    (handedBack : Bool) :
    Own cbreak orig { s with tty := t, user := t :: s.user, handedBack := handedBack } := by
  have hnil : s.frames ≠ [] := fun hc => by
    rw [hc] at hback
    cases hback
  refine own_of_frames (hi.set_of_frames hnil) hnil fun f hframes hworks => ?_
  have howns := h.tstp hworks f hframes
  rw [show s.frames = [.tstp f] from hframes] at hback
  have hpc : f.pc = .unblocked := of_decide_eq_true hback
  rw [hpc] at howns ⊢
  exact ⟨howns.1, rfl⟩

theorem Own.deliver (h : Own cbreak orig s) (hi : Inv s) {sig : ℕ} {orphaned : Bool}
    (hs : deliver sig orphaned s = some s') : Own cbreak orig s' := by
  unfold TestTtyFunctions.deliver at hs
  split at hs
  · cases hs
  · obtain rfl := Option.some.inj hs
    exact ⟨h.getattr, h.setattr, h.main, h.tstp⟩
  · split at hs
    · split at hs
      · obtain rfl := Option.some.inj hs
        exact ⟨h.getattr, h.setattr, h.main, h.tstp⟩
      · obtain rfl := Option.some.inj hs
        exact ⟨h.getattr, h.setattr, h.main, h.tstp⟩
    · split at hs
      · obtain rfl := Option.some.inj hs
        exact ⟨h.getattr, h.setattr, h.main, h.tstp⟩
      · obtain rfl := Option.some.inj hs
        exact ⟨h.getattr, h.setattr, h.main, h.tstp⟩
  · rename_i hdeliver
    obtain ⟨-, -, haction, -⟩ := deliver_eq_some hdeliver
    obtain rfl := Option.some.inj hs
    exact own_of_frames (hi.set_of_action haction.symm) nofun nofun
  · rename_i hdeliver
    obtain ⟨-, -, haction, -⟩ := deliver_eq_some hdeliver
    obtain rfl := Option.some.inj hs
    refine own_of_frames (hi.set_of_action haction.symm) nofun fun f hframes hworks => ?_
    obtain ⟨hf, hnil⟩ := List.cons.inj hframes
    obtain rfl := Frame.tstp.inj hf
    exact h.main hworks hnil

theorem Own.mainStep (h : Own cbreak orig s) (hframes : s.frames = []) (quits : Bool) :
    Own cbreak orig (mainStep cbreak quits s) := by
  -- where `main()` goes on with the terminal as it is
  have hgoes : ∀ {s' : State}, s'.frames = s.frames → s'.pc.set = true →
      (s'.pc.works = true → s'.tty = ttySet cbreak orig ∧ s'.user.head? = some s'.userTermios) →
      Own cbreak orig s' := fun {s'} hframes' hset hmain => by
    refine ⟨fun hc => ?_, fun t hc => ?_, fun hc _ => hmain hc, fun _ f hc => ?_⟩
    · rw [hc] at hset
      cases hset
    · rw [hc] at hset
      cases hset
    · rw [hframes', hframes] at hc
      cases hc
  cases hpc : s.pc with
  | getattr =>
    obtain ⟨htty, huser⟩ := h.getattr hpc
    simp only [TestTtyFunctions.mainStep, hpc]
    refine ⟨nofun, fun t ht => ?_, nofun, nofun⟩
    rw [← Pc.setattr.inj ht, htty]
    exact ⟨rfl, rfl, huser⟩
  | setattr t =>
    obtain ⟨rfl, husers, huser⟩ := h.setattr t hpc
    simp only [TestTtyFunctions.mainStep, hpc]
    refine hgoes rfl ?_ fun _ => ⟨rfl, huser.trans (congrArg some husers.symm)⟩
    cases cbreak <;> rfl
  | query sig todo =>
    have hmain := h.main (by rw [hpc]; rfl) hframes
    simp only [TestTtyFunctions.mainStep, hpc]
    refine hgoes rfl ?_ fun _ => hmain
    simp only
    split
    · exact set_next todo
    · rfl
  | establish sig todo =>
    have hmain := h.main (by rw [hpc]; rfl) hframes
    simp only [TestTtyFunctions.mainStep, hpc]
    exact hgoes rfl (set_next todo) fun _ => hmain
  | establishTerm =>
    have hmain := h.main (by rw [hpc]; rfl) hframes
    simp only [TestTtyFunctions.mainStep, hpc]
    exact hgoes rfl rfl fun _ => hmain
  | loop =>
    have hmain := h.main (by rw [hpc]; rfl) hframes
    simp only [TestTtyFunctions.mainStep, hpc]
    refine hgoes rfl ?_ fun _ => hmain
    cases quits <;> rfl
  | restore =>
    simp only [TestTtyFunctions.mainStep, hpc]
    exact hgoes rfl rfl nofun
  | exit =>
    simp only [TestTtyFunctions.mainStep, hpc]
    exact hgoes rfl rfl nofun

theorem Own.tstpStep (h : Own cbreak orig s) (hi : Inv s) {f : Tstp} {frames : List Frame}
    (hframes : s.frames = .tstp f :: frames) (hs : tstpStep f frames s = some s') : Own cbreak orig s' := by
  obtain ⟨hrest, -, hset⟩ := hi.inside hframes
  have howns : frames = [] → s.pc.works = true →
      Owns (ttySet cbreak orig) s.tty s.userTermios s.user f.pc f.ourTermios := fun hnil hworks =>
    h.tstp hworks f (by rw [hframes, hnil])
  -- the books matter only while nothing but `main()` is below
  have hgoes : ∀ {s' : State} {f' : Tstp}, s'.frames = .tstp f' :: frames → s'.pc = s.pc →
      (frames = [] → s.pc.works = true →
        Owns (ttySet cbreak orig) s'.tty s'.userTermios s'.user f'.pc f'.ourTermios) →
      Own cbreak orig s' := fun {s' f'} hframes' hpc hown => by
    refine own_of_frames (hpc ▸ hset) (by rw [hframes']; nofun) fun f'' hf'' hworks => ?_
    obtain ⟨hf, hnil⟩ := List.cons.inj (hframes'.symm.trans hf'')
    obtain rfl := Frame.tstp.inj hf
    exact hown hnil (hpc ▸ hworks)
  obtain ⟨pc, ours, prevMask, outer⟩ := f
  cases pc with
  | getOurs | setUsers | signal | unblock | reestablish | getUsers | setOurs =>
    obtain rfl := Option.some.inj hs
    exact hgoes rfl rfl howns
  | raise =>
    obtain rfl := Option.some.inj hs
    obtain ⟨sigs, stopped, heq, -, -⟩ := kill_same s SIGTSTP
    rw [heq]
    exact hgoes rfl rfl howns
  | unblocked =>
    obtain ⟨-, hs⟩ := Option.ite_none_left_eq_some.mp hs
    obtain rfl := Option.some.inj hs
    exact hgoes rfl rfl howns
  | ret =>
    obtain rfl := Option.some.inj hs
    refine ⟨fun hc => ?_, fun t hc => ?_, fun hworks hnil => howns hnil hworks, fun _ f hf => ?_⟩
    · rw [show s.pc = .getattr from hc] at hset
      cases hset
    · rw [show s.pc = .setattr t from hc] at hset
      cases hset
    · rw [show frames = [.tstp f] from hf] at hrest
      cases hrest

theorem handedBack_kill (s : State) (sig : ℕ) : (s.kill sig).handedBack = s.handedBack := by
  obtain ⟨sigs, stopped, heq, -, -⟩ := kill_same s sig
  rw [heq]

theorem handedBack_tstpStep {f : Tstp} {frames : List Frame} (hs : tstpStep f frames s = some s') :
    s'.handedBack = s.handedBack := by
  obtain ⟨pc, ours, prevMask, outer⟩ := f
  cases pc with
  | unblocked =>
    obtain ⟨-, hs⟩ := Option.ite_none_left_eq_some.mp hs
    rw [← Option.some.inj hs]
  | raise =>
    rw [← Option.some.inj hs]
    exact handedBack_kill s SIGTSTP
  | getOurs | setUsers | signal | unblock | reestablish | getUsers | setOurs | ret =>
    rw [← Option.some.inj hs]

theorem handedBack_deliver {sig : ℕ} {orphaned : Bool} (hs : deliver sig orphaned s = some s') :
    s'.handedBack = s.handedBack := by
  unfold TestTtyFunctions.deliver at hs
  split at hs
  · cases hs
  · rw [← Option.some.inj hs]
  · split at hs
    · rw [← Option.some.inj hs]
      split <;> rfl
    · split at hs <;> rw [← Option.some.inj hs]
  · rw [← Option.some.inj hs]
  · rw [← Option.some.inj hs]

theorem Own.step {a : Act} (h : s.handedBack = true → Own cbreak orig s) (hi : Inv s)
    (hs : step cbreak s a = some s') (hback : s'.handedBack = true) : Own cbreak orig s' := by
  obtain ⟨-, hs⟩ := Option.ite_none_left_eq_some.mp hs
  cases a with
  | program quits =>
    obtain ⟨-, hs⟩ := Option.ite_none_left_eq_some.mp hs
    unfold programStep at hs
    split at hs
    · rename_i hframes
      obtain rfl := Option.some.inj hs
      have hsame : (TestTtyFunctions.mainStep cbreak quits s).handedBack = s.handedBack := by
        unfold TestTtyFunctions.mainStep
        split <;> rfl
      exact (h (hsame.symm.trans hback)).mainStep hframes quits
    · rename_i pc frames hframes
      obtain rfl := Option.some.inj hs
      have hset := hi.set_of_frames (by rw [hframes]; nofun)
      cases pc with
      | restore => exact own_of_frames hset nofun nofun
      | exit =>
        refine own_of_frames hset (by rw [TestTtyFunctions.handlerStep, hframes]; nofun) fun f hf => ?_
        have hf' : s.frames = [.tstp f] := hf
        rw [hframes] at hf'
        cases hf'
    · rename_i hframes
      exact (h ((handedBack_tstpStep hs).symm.trans hback)).tstpStep hi hframes hs
  | fail =>
    obtain ⟨-, hs⟩ := Option.ite_none_left_eq_some.mp hs
    obtain rfl := Option.some.inj hs
    obtain ⟨hgetattr, hsetattr, hmain, htstp⟩ := h hback
    exact ⟨hgetattr, hsetattr, hmain, htstp⟩
  | kill sig =>
    obtain rfl := Option.some.inj hs
    exact (h ((handedBack_kill s sig).symm.trans hback)).kill sig
  | deliver sig orphaned =>
    obtain ⟨-, hs⟩ := Option.ite_none_left_eq_some.mp hs
    exact (h ((handedBack_deliver hs).symm.trans hback)).deliver hi hs
  | user t =>
    obtain ⟨-, hs⟩ := Option.ite_none_right_eq_some.mp hs
    obtain rfl := Option.some.inj hs
    obtain ⟨hback, htop⟩ := Bool.and_eq_true_iff.mp hback
    exact (h hback).user hi htop t _

end Steps

/-- Settings of a terminal in canonical mode. -/
def cooked : Termios where
  c_iflag := 0x500
  c_oflag := 0x5
  c_lflag := 0x8a3b
  vmin := 1
  vtime := 0

def shellStart : State where
  pc := .getattr
  frames := []
  sigs := { mask := fun _ => false, pending := fun _ => false, action := fun _ => .SIG_DFL }
  tty := cooked
  userTermios := cooked
  stopped := false
  killed := false
  ended := false
  failed := false
  caught := false
  stops := []
  user := [cooked]
  handedBack := true

end Tlpi.TestTtyFunctions
