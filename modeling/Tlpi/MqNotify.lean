/-
`pmsg/mq_notify_sigwaitinfo.c`, `mq_notify_via_signal.c`, `mq_notify_siginfo.c`, `mq_notify_thread.c` and
`mq_notify_via_thread.c`: the siblings of `mq_notify_sig.c`, which take the notification in other ways.

## What is modelled

Each program one call a step, and the senders. The programs are one system with four kinds of `main()`:
one that accepts the blocked signal with `sigwaitinfo()`, one that looks every five seconds whether the
handler has set `gotSig` (two programs; what the handler of the second prints is left out), and two that
only set the notification up, the second of which also drains the queue. With `SIGEV_THREAD` each
notification creates a thread, so any number of them may be receiving at once: `pcs 0` is `main()`, and
`pcs i` is the thread that was created for the `i`-th notification.

Signals may also come from elsewhere (`kill`), and any call may fail (`fails`), which ends the program, as
does a `mq_notify()` that finds a registration. What is left out are other processes that receive from
the queue or register for its notifications.

`backlog` is a history variable: the queue as it was at the first registration of `main()`. So are `sent`,
which starts with what is on the queue by then, and `received`.

## The shape of the argument

There is one *token*: the registration, the signal that it has turned into, `gotSig`, or the thread that
is going to register again. No step makes a second one or loses it, so no `mq_notify()` finds a
registration, and at most one thread has not registered again. As they all register first and receive
then, somebody is still receiving as long as there are messages and a registration at once. Where
`main()` does not drain what it finds, that fails for the first registration only, and then for good.
-/
import Mathlib.Algebra.BigOperators.Intervals
import Mathlib.Logic.Function.Basic
import Tlpi.MqNotifySig
import Tlpi.Parties

set_option autoImplicit false

namespace Tlpi.MqNotify

open Tlpi.Parties Tlpi.Transition
open Tlpi.MqNotifySig (Msg insertMsg Ordered ofPrio ofPrio_append ofPrio_insertMsg ordered_insertMsg
  insertMsg_perm)

/-! ## 1. The programs -/

inductive Program where
  | mq_notify_sigwaitinfo | mq_notify_via_signal | mq_notify_siginfo
  | mq_notify_thread | mq_notify_via_thread
deriving Repr, DecidableEq

namespace Program

/-- `SIGEV_THREAD`. -/
def threads : Program → Bool
  | .mq_notify_thread | .mq_notify_via_thread => true
  | _ => false

/-- The loop that looks at `gotSig`. -/
def polls : Program → Bool
  | .mq_notify_via_signal | .mq_notify_siginfo => true
  | _ => false

/-- `main()` drains the queue after its first registration. -/
def drains : Program → Bool
  | .mq_notify_sigwaitinfo | .mq_notify_thread => false
  | _ => true

/-- SIGRTMIN is queued, SIGUSR1 is not. -/
def post (prog : Program) (pending : ℕ) : ℕ :=
  if prog = .mq_notify_sigwaitinfo then pending + 1 else 1

end Program

/-- The place of a thread; a thread that has not been created is `unborn`. -/
inductive Pc where
  | unborn
  /-- The first `mq_notify()` of `main()`. -/
  | setup
  /-- `if (gotSig)`, and `gotSig = 0` behind it. -/
  | test | clear
  | notify | receive | sleep
  /-- `sigwaitinfo()`, or `pause()`. -/
  | wait
  | ended
deriving Repr, DecidableEq

structure State where
  pcs : ℕ → Pc
  /-- How many threads the notifications have created. -/
  created : ℕ
  gotSig : Bool
  pending : ℕ
  registered : Bool
  queue : List Msg
  failed : Bool
  backlog : List Msg
  sent : List Msg
  received : List Msg

def State.goto (s : State) (i : ℕ) (pc : Pc) : State := { s with pcs := Function.update s.pcs i pc }

/-- `systmErr()`. -/
def State.exit (s : State) : State := { s with failed := true, registered := false }

/-- `mq_notify()`, for which the program has no second registration. -/
def State.mqNotify (s : State) (i : ℕ) (next : Pc) : State :=
  if s.registered then s.exit else { s.goto i next with registered := true }

/-- `mq_send()`: a message on an empty queue uses up the registration. -/
def mqSend (prog : Program) (s : State) (m : Msg) : State :=
  let t := { s with queue := insertMsg m s.queue, sent := s.sent ++ [m] }
  if s.queue.isEmpty && s.registered then
    if prog.threads then
      { t.goto (s.created + 1) .notify with registered := false, created := s.created + 1 }
    else { t with registered := false, pending := prog.post s.pending }
  else t

/-- Where a thread goes when `mq_receive()` has failed with EAGAIN. -/
def Program.rest (prog : Program) (i : ℕ) : Pc :=
  if prog.polls then .sleep else if prog.threads && i != 0 then .ended else .wait

/-- The next call of a thread. -/
def threadStep (prog : Program) (i : ℕ) (s : State) : Option State :=
  match s.pcs i with
  | .setup => some { s.mqNotify i (if prog.drains then .receive else .wait) with backlog := s.queue }
  | .test => some (s.goto i (if s.gotSig then .clear else .sleep))
  | .clear => some { s.goto i .notify with gotSig := false }
  | .notify => some (s.mqNotify i .receive)
  | .receive =>
    match s.queue with
    | [] => some (s.goto i (prog.rest i))
    | m :: q => some { s with queue := q, received := s.received ++ [m] }
  | .sleep => some (s.goto i .test)
  | .wait =>
    -- only `sigwaitinfo()` comes back
    if !prog.threads && decide (0 < s.pending) then
      some { s.goto i .notify with pending := s.pending - 1 }
    else none
  | .unborn | .ended => none

/-- The places of the calls that end the program when they fail. -/
def Pc.fails : Pc → Bool
  | .setup | .notify | .receive | .wait => true
  | _ => false

inductive Act where
  /-- Some process sends. -/
  | send (m : Msg)
  | thread (i : ℕ)
  | fails (i : ℕ)
  /-- The handler runs. -/
  | deliver
  /-- A signal from elsewhere. -/
  | kill
deriving Repr, DecidableEq

def step (prog : Program) (maxmsg : ℕ) (s : State) : Act → Option State
  | .send m => if s.queue.length < maxmsg then some (mqSend prog s m) else none
  | .thread i => if s.failed then none else threadStep prog i s
  | .fails i => if !s.failed && (s.pcs i).fails then some s.exit else none
  | .deliver =>
    if prog.polls && decide (0 < s.pending) && !s.failed then
      some { s with pending := s.pending - 1, gotSig := true }
    else none
  | .kill => if prog.threads then none else some { s with pending := prog.post s.pending }

/-- Any messages may be there. -/
structure Starts (prog : Program) (s : State) : Prop where
  main : s.pcs 0 = if prog.polls then .test else .setup
  threads : ∀ i, 0 < i → s.pcs i = .unborn
  created : s.created = 0
  gotSig : s.gotSig = prog.polls
  pending : s.pending = 0
  registered : s.registered = false
  ordered : Ordered s.queue
  failed : s.failed = false
  backlog : s.backlog = []
  sent : s.sent = s.queue
  received : s.received = []

def mqNotify (prog : Program) (maxmsg : ℕ) : System State Act where
  init := Starts prog
  step := step prog maxmsg

/-- The program on a queue that holds messages. -/
def start (prog : Program) (queue : List Msg) : State where
  pcs i := if i = 0 then if prog.polls then .test else .setup else .unborn
  created := 0
  gotSig := prog.polls
  pending := 0
  registered := false
  queue := queue
  failed := false
  backlog := []
  sent := queue
  received := []

theorem start_starts (prog : Program) {queue : List Msg} (h : Ordered queue) :
    Starts prog (start prog queue) :=
  ⟨rfl, fun _ hi => if_neg (by omega), rfl, rfl, rfl, rfl, h, rfl, rfl, rfl, rfl⟩

/-- No call fails, and no signal comes from elsewhere. -/
def NoFault (_ : State) : Act → Prop
  | .fails _ | .kill => False
  | _ => True

instance (s : State) (a : Act) : Decidable (NoFault s a) := by
  cases a <;> unfold NoFault <;> infer_instance

/-! ## 2. The messages -/

/-- What has been sent was received or is queued, and of one priority in the order it was sent. -/
structure Books (s : State) : Prop where
  ordered : Ordered s.queue
  account : s.sent.Perm (s.received ++ s.queue)
  fifo : ∀ k, ofPrio k s.sent = ofPrio k s.received ++ ofPrio k s.queue

theorem Starts.books {prog : Program} {s : State} (h : Starts prog s) : Books s :=
  ⟨h.ordered, by rw [h.sent, h.received, List.nil_append],
    fun k => by rw [h.sent, h.received]; rfl⟩

/-- The history and the queue are what counts. -/
theorem Books.congr {s t : State} (h : Books s) (hqueue : t.queue = s.queue) (hsent : t.sent = s.sent)
    (hreceived : t.received = s.received) : Books t := by
  constructor
  · rw [hqueue]
    exact h.ordered
  · rw [hqueue, hsent, hreceived]
    exact h.account
  · rw [hqueue, hsent, hreceived]
    exact h.fifo

theorem Books.insert {s t : State} {m : Msg} (h : Books s) (hqueue : t.queue = insertMsg m s.queue)
    (hsent : t.sent = s.sent ++ [m]) (hreceived : t.received = s.received) : Books t := by
  constructor
  · rw [hqueue]
    exact ordered_insertMsg m h.ordered
  · have hpush := (insertMsg_perm m s.queue).append_left s.received
    rw [← List.append_assoc] at hpush
    rw [hqueue, hsent, hreceived]
    exact (h.account.append_right [m]).trans hpush.symm
  · intro k
    rw [hqueue, hsent, hreceived, ofPrio_append, h.fifo k, ofPrio_insertMsg k m h.ordered,
      List.append_assoc]

theorem Books.take {s t : State} {m : Msg} (h : Books s) (hqueue : s.queue = m :: t.queue)
    (hsent : t.sent = s.sent) (hreceived : t.received = s.received ++ [m]) : Books t := by
  have hord := h.ordered
  rw [hqueue, Ordered, List.pairwise_cons] at hord
  refine ⟨hord.2, ?_, fun k => ?_⟩
  · rw [hsent, hreceived, List.append_assoc, List.singleton_append, ← hqueue]
    exact h.account
  · have hk := h.fifo k
    rw [hqueue, ← List.singleton_append, ofPrio_append] at hk
    rw [hsent, hreceived, ofPrio_append, List.append_assoc]
    exact hk

theorem mqSend_books {prog : Program} {s : State} (h : Books s) (m : Msg) : Books (mqSend prog s m) := by
  unfold mqSend
  split
  · split
    · exact h.insert rfl rfl rfl
    · exact h.insert rfl rfl rfl
  · exact h.insert rfl rfl rfl

theorem mqNotify_books {s : State} (h : Books s) (i : ℕ) (next : Pc) : Books (s.mqNotify i next) := by
  unfold State.mqNotify
  split
  · exact h.congr rfl rfl rfl
  · exact h.congr rfl rfl rfl

theorem threadStep_books {prog : Program} {i : ℕ} {s s' : State} (h : Books s)
    (hs : threadStep prog i s = some s') : Books s' := by
  unfold threadStep at hs
  split at hs
  · obtain rfl := Option.some.inj hs
    exact (mqNotify_books h i _).congr rfl rfl rfl
  · obtain rfl := Option.some.inj hs
    exact h.congr rfl rfl rfl
  · obtain rfl := Option.some.inj hs
    exact h.congr rfl rfl rfl
  · obtain rfl := Option.some.inj hs
    exact mqNotify_books h i _
  · split at hs
    · obtain rfl := Option.some.inj hs
      exact h.congr rfl rfl rfl
    · rename_i hqueue
      obtain rfl := Option.some.inj hs
      exact h.take hqueue rfl rfl
  · obtain rfl := Option.some.inj hs
    exact h.congr rfl rfl rfl
  · rw [Option.ite_none_right_eq_some] at hs
    obtain rfl := Option.some.inj hs.2
    exact h.congr rfl rfl rfl
  · cases hs
  · cases hs

theorem step_books {prog : Program} {maxmsg : ℕ} {s s' : State} {a : Act} (h : Books s)
    (hs : step prog maxmsg s a = some s') : Books s' := by
  cases a with
  | send m =>
    simp only [step, Option.ite_none_right_eq_some, Option.some.injEq] at hs
    rw [← hs.2]
    exact mqSend_books h m
  | thread i =>
    simp only [step, Option.ite_none_left_eq_some] at hs
    exact threadStep_books h hs.2
  | fails i =>
    simp only [step, Option.ite_none_right_eq_some, Option.some.injEq] at hs
    rw [← hs.2]
    exact h.congr rfl rfl rfl
  | deliver =>
    simp only [step, Option.ite_none_right_eq_some, Option.some.injEq] at hs
    rw [← hs.2]
    exact h.congr rfl rfl rfl
  | kill =>
    simp only [step, Option.ite_none_left_eq_some, Option.some.injEq] at hs
    rw [← hs.2]
    exact h.congr rfl rfl rfl

/-! ## 3. The token -/

inductive Place where
  | kernel | signal | flag
  | thread (i : ℕ)
deriving Repr, DecidableEq

/-- Going to register. -/
def Pc.registers : Pc → Bool
  | .setup | .clear | .notify => true
  | _ => false

/-- Where the token is. With `gotSig` it is no longer there when the thread has seen the flag. -/
def Has (s : State) : Place → Prop
  | .kernel => s.registered = true
  | .signal => 0 < s.pending
  | .flag => s.gotSig = true ∧ s.pcs 0 ≠ .clear
  | .thread i => (s.pcs i).registers = true

/-- What `main()` may be at. -/
def Program.mainAt (prog : Program) : Pc → Bool
  | .setup | .wait => !prog.polls
  | .test | .clear | .sleep => prog.polls
  | .notify => !prog.threads
  | .receive => prog.drains || !prog.threads
  | .unborn | .ended => false

/-- What a thread of a notification may be at. -/
def Pc.worker : Pc → Bool
  | .notify | .receive | .ended => true
  | _ => false

/-- `main()` has registered without looking at what was there. -/
def Deaf (prog : Program) (s : State) : Prop := prog.drains = false ∧ s.backlog ≠ []

structure Inv (prog : Program) (s : State) : Prop where
  ok : s.failed = false
  token : ∃! place, Has s place
  single : s.pending ≤ 1
  main : prog.mainAt (s.pcs 0) = true
  workers : ∀ i, 0 < i → i ≤ s.created → (s.pcs i).worker = true
  unborn : ∀ i, s.created < i → s.pcs i = .unborn
  created : 0 < s.created → prog.threads = true
  flag : s.gotSig = true → prog.polls = true
  signal : 0 < s.pending → prog.threads = false
  fresh : s.pcs 0 = .setup → s.created = 0 ∧ s.received = [] ∧ s.backlog = []
  /-- Who is registered while there are messages has somebody that receives them. -/
  awake : s.registered = true → s.queue ≠ [] → (∃ i, s.pcs i = .receive) ∨ Deaf prog s
  deaf : Deaf prog s → s.pcs 0 = .wait ∧ s.created = 0 ∧ s.registered = true ∧ s.received = [] ∧
    s.queue ≠ []

theorem Starts.inv {prog : Program} {s : State} (h : Starts prog s) : Inv prog s where
  ok := h.failed
  token := by
    have hmain := h.main
    have hgot := h.gotSig
    have hpending := h.pending
    have hreg := h.registered
    cases hp : prog.polls
    · rw [hp] at hmain hgot
      simp only [Bool.false_eq_true, if_false] at hmain
      refine ⟨.thread 0, by simp only [Has, hmain, Pc.registers], fun place hplace => ?_⟩
      cases place with
      | kernel => rw [Has, hreg] at hplace; cases hplace
      | signal => rw [Has, hpending] at hplace; omega
      | flag => rw [Has, hgot] at hplace; cases hplace.1
      | thread i =>
        rcases Nat.eq_zero_or_pos i with rfl | hi
        · rfl
        · rw [Has, h.threads i hi] at hplace
          cases hplace
    · rw [hp] at hmain hgot
      rw [if_pos rfl] at hmain
      refine ⟨.flag, ⟨hgot, by rw [hmain]; nofun⟩, fun place hplace => ?_⟩
      cases place with
      | kernel => rw [Has, hreg] at hplace; cases hplace
      | signal => rw [Has, hpending] at hplace; omega
      | flag => rfl
      | thread i =>
        rcases Nat.eq_zero_or_pos i with rfl | hi
        · rw [Has, hmain] at hplace
          cases hplace
        · rw [Has, h.threads i hi] at hplace
          cases hplace
  single := by rw [h.pending]; omega
  main := by
    rw [h.main]
    cases prog <;> rfl
  workers := fun i hi hle => by rw [h.created] at hle; omega
  unborn := fun i hi => h.threads i (by omega)
  created := fun hpos => by rw [h.created] at hpos; omega
  flag := fun hgot => by rw [← h.gotSig, hgot]
  signal := fun hpos => by rw [h.pending] at hpos; omega
  fresh := fun _ => ⟨h.created, h.received, h.backlog⟩
  awake := fun hreg => by rw [h.registered] at hreg; cases hreg
  deaf := fun hdeaf => absurd h.backlog hdeaf.2

section Steps

variable {prog : Program} {s s' : State}

/-- The token is in one place only. -/
theorem Inv.elsewhere (h : Inv prog s) {p q : Place} (hp : Has s p) (hne : q ≠ p) : ¬Has s q :=
  fun hq => hne (h.token.unique hq hp)

theorem Inv.not_registered (h : Inv prog s) {i : ℕ} (hi : (s.pcs i).registers = true) :
    s.registered = false :=
  Bool.not_eq_true _ ▸ h.elsewhere (p := .thread i) (q := .kernel) hi nofun

/-- Only `main()` is ever at a place that is not one of the other threads'. -/
theorem Inv.eq_main (h : Inv prog s) {i : ℕ} (hborn : s.pcs i ≠ .unborn)
    (hworker : (s.pcs i).worker = false) : i = 0 := by
  by_contra hi
  rcases Nat.lt_or_ge s.created i with hlt | hle
  · exact hborn (h.unborn i hlt)
  · have := h.workers i (by omega) hle
    rw [hworker] at this
    cases this

/-- Without having looked at the queue, `main()` is the only thread, and it is not woken. -/
theorem Inv.deaf_idle (h : Inv prog s) (hdeaf : Deaf prog s) (i : ℕ) :
    threadStep prog i s = none ∧ s.pending = 0 := by
  obtain ⟨hmain, hcreated, hreg, -, -⟩ := h.deaf hdeaf
  have hpending : s.pending = 0 := by
    have hno := h.elsewhere (p := .kernel) (q := .signal) hreg nofun
    simp only [Has] at hno
    omega
  refine ⟨?_, hpending⟩
  rcases Nat.eq_zero_or_pos i with rfl | hi
  · simp only [threadStep, hmain, hpending, lt_irrefl, decide_false, Bool.and_false, Bool.false_eq_true,
      if_false]
  · simp only [threadStep, h.unborn i (by omega)]

theorem State.goto_self (s : State) (i : ℕ) (pc : Pc) : (s.goto i pc).pcs i = pc :=
  Function.update_self ..

theorem State.goto_of_ne (s : State) {i j : ℕ} (pc : Pc) (hj : j ≠ i) : (s.goto i pc).pcs j = s.pcs j :=
  Function.update_of_ne hj ..

theorem Inv.main_goto (h : Inv prog s) (i : ℕ) {pc : Pc} (hmain : i = 0 → prog.mainAt pc = true) :
    prog.mainAt ((s.goto i pc).pcs 0) = true := by
  rcases eq_or_ne i 0 with rfl | hi
  · rw [State.goto_self]
    exact hmain rfl
  · rw [State.goto_of_ne _ _ hi.symm]
    exact h.main

theorem Inv.workers_goto (h : Inv prog s) (i : ℕ) {pc : Pc} (hworker : 0 < i → pc.worker = true) :
    ∀ j, 0 < j → j ≤ s.created → ((s.goto i pc).pcs j).worker = true := by
  intro j hj hle
  rcases eq_or_ne j i with rfl | hne
  · rw [State.goto_self]
    exact hworker hj
  · rw [State.goto_of_ne _ _ hne]
    exact h.workers j hj hle

theorem Inv.unborn_goto (h : Inv prog s) (i : ℕ) {pc : Pc} (hborn : s.pcs i ≠ .unborn) :
    ∀ j, s.created < j → (s.goto i pc).pcs j = .unborn := by
  intro j hj
  have hne : j ≠ i := fun hc => hborn (hc ▸ h.unborn j hj)
  rw [State.goto_of_ne _ _ hne]
  exact h.unborn j hj

/-- A thread goes on from where it does not hold the token. -/
theorem Inv.goto (h : Inv prog s) {i : ℕ} {pc : Pc} (hdeaf : ¬Deaf prog s)
    (hfrom : (s.pcs i).registers = false) (hto : pc.registers = false) (hborn : s.pcs i ≠ .unborn)
    (hmain : i = 0 → prog.mainAt pc = true) (hworker : 0 < i → pc.worker = true)
    (hqueue : s.pcs i = .receive → s.queue = []) : Inv prog (s.goto i pc) := by
  have hclear : ∀ {x : Pc}, x.registers = false → x ≠ .clear := fun hx hc => by rw [hc] at hx; cases hx
  refine ⟨h.ok, ?_, h.single, h.main_goto i hmain, h.workers_goto i hworker, h.unborn_goto i hborn,
    h.created, h.flag, h.signal, ?_, ?_, fun hd => absurd hd hdeaf⟩
  · refine token_stays h.token fun place => ?_
    cases place with
    | kernel => rfl
    | signal => rfl
    | flag =>
      simp only [Has, State.goto]
      rcases eq_or_ne i 0 with rfl | hi
      · rw [Function.update_self]
        exact and_congr_right fun _ => ⟨fun _ => hclear hfrom, fun _ => hclear hto⟩
      · rw [Function.update_of_ne (Ne.symm hi)]
    | thread j =>
      simp only [Has, State.goto]
      rcases eq_or_ne j i with rfl | hj
      · rw [Function.update_self, hfrom, hto]
      · rw [Function.update_of_ne hj]
  · intro hsetup
    simp only [State.goto] at hsetup
    rcases eq_or_ne i 0 with rfl | hi
    · rw [Function.update_self] at hsetup
      rw [hsetup] at hto
      cases hto
    · rw [Function.update_of_ne (Ne.symm hi)] at hsetup
      exact h.fresh hsetup
  · intro hreg hne
    rcases h.awake hreg hne with ⟨j, hj⟩ | hd
    · refine .inl ⟨j, ?_⟩
      simp only [State.goto]
      rw [Function.update_of_ne]
      · exact hj
      · rintro rfl
        exact hne (hqueue hj)
    · exact absurd hd hdeaf

/-- The registration of a thread that holds the token. -/
theorem Inv.mqNotify (h : Inv prog s) {i : ℕ} (next : Pc) (hfrom : (s.pcs i).registers = true)
    (hclear : s.pcs i ≠ .clear) (hto : next.registers = false) (hmain : i = 0 → prog.mainAt next = true)
    (hworker : 0 < i → next.worker = true) (backlog : List Msg)
    (hawake : s.queue ≠ [] → next = .receive ∨ prog.drains = false ∧ backlog ≠ [])
    (hdeaf : prog.drains = false → backlog ≠ [] → next = .wait ∧ i = 0 ∧ s.created = 0 ∧
      s.received = [] ∧ s.queue ≠ []) :
    Inv prog { s.mqNotify i next with backlog := backlog } := by
  have hreg := h.not_registered hfrom
  have hborn : s.pcs i ≠ .unborn := fun hc => by rw [hc] at hfrom; cases hfrom
  simp only [State.mqNotify, hreg, Bool.false_eq_true, if_false]
  refine ⟨h.ok, ?_, h.single, h.main_goto i hmain, h.workers_goto i hworker, h.unborn_goto i hborn,
    h.created, h.flag, h.signal, ?_, ?_, ?_⟩
  · refine @token_moves _ _ _ (.thread i) .kernel h.token hfrom rfl fun place hne hplace => ?_
    cases place with
    | kernel => exact absurd rfl hne
    | signal => exact ⟨nofun, hplace⟩
    | flag =>
      refine ⟨nofun, hplace.1, fun hc => ?_⟩
      have hseen := hplace.2
      simp only [State.goto] at hseen
      rw [Function.update_of_ne] at hseen
      · exact hseen hc
      · rintro rfl
        exact hclear hc
    | thread j =>
      simp only [Has, State.goto] at hplace
      rcases eq_or_ne j i with rfl | hj
      · rw [Function.update_self, hto] at hplace
        cases hplace
      · rw [Function.update_of_ne hj] at hplace
        exact ⟨fun hc => hj (Place.thread.inj hc), hplace⟩
  · -- whoever is at the first registration of `main()` is the one that holds the token
    intro hsetup
    simp only [State.goto] at hsetup
    rcases eq_or_ne i 0 with rfl | hi
    · rw [Function.update_self] at hsetup
      rw [hsetup] at hto
      cases hto
    · rw [Function.update_of_ne (Ne.symm hi)] at hsetup
      have hzero : Has s (.thread 0) := by simp only [Has, hsetup, Pc.registers]
      exact absurd hzero (h.elsewhere (p := .thread i) hfrom fun hc => hi (Place.thread.inj hc).symm)
  · intro _ hne
    rcases hawake hne with rfl | hd
    · refine .inl ⟨i, ?_⟩
      simp only [State.goto, Function.update_self]
    · exact .inr hd
  · rintro ⟨hdrains, hbacklog⟩
    obtain ⟨rfl, rfl, hcreated, hreceived, hqueue⟩ := hdeaf hdrains hbacklog
    refine ⟨?_, hcreated, rfl, hreceived, hqueue⟩
    simp only [State.goto, Function.update_self]

/-- `main()` comes to hold the token: it accepts the signal, or sees that `gotSig` is set. -/
theorem Inv.wakes (h : Inv prog s) (place : Place) (hplace : Has s place)
    (hwake : s.pcs 0 = .wait ∧ place = .signal ∨ s.pcs 0 = .test ∧ place = .flag) {pc : Pc} {pending : ℕ}
    (hpc : pc = if place = .flag then .clear else .notify)
    (hpending : pending = if place = .flag then s.pending else 0) (hmain : prog.mainAt pc = true) :
    Inv prog { s.goto 0 pc with pending := pending } := by
  have hto : pc.registers = true := by rw [hpc]; split <;> rfl
  have hkernel : place ≠ .kernel := by
    rintro rfl
    rcases hwake with ⟨-, hc⟩ | ⟨-, hc⟩ <;> cases hc
  have hreg : s.registered = false := Bool.not_eq_true _ ▸ h.elsewhere hplace hkernel.symm
  have hborn : s.pcs 0 ≠ .unborn := fun hc => by
    rcases hwake with ⟨hw, -⟩ | ⟨hw, -⟩ <;> rw [hw] at hc <;> cases hc
  refine ⟨h.ok, ?_, ?_, h.main_goto 0 fun _ => hmain, h.workers_goto 0 fun hlt => absurd hlt (lt_irrefl 0),
    h.unborn_goto 0 hborn, h.created, h.flag, fun hpos => ?_, ?_, ?_, ?_⟩
  · refine @token_moves _ _ _ place (.thread 0) h.token hplace ?_ fun other hne hother => ?_
    · simp only [Has, State.goto, Function.update_self, hto]
    · cases other with
      | kernel => exact ⟨hkernel.symm, hother⟩
      | signal =>
        simp only [Has, hpending] at hother
        split at hother
        · rename_i hflag
          rw [hflag]
          exact ⟨nofun, hother⟩
        · exact absurd hother (lt_irrefl 0)
      | flag =>
        simp only [Has, State.goto, Function.update_self, hpc] at hother
        split at hother
        · exact absurd rfl hother.2
        · rename_i hflag
          refine ⟨fun hc => hflag hc.symm, hother.1, fun hc => ?_⟩
          rcases hwake with ⟨hw, -⟩ | ⟨hw, -⟩ <;> rw [hw] at hc <;> cases hc
      | thread j =>
        have hj : j ≠ 0 := fun hc => hne (by rw [hc])
        simp only [Has, State.goto] at hother
        rw [Function.update_of_ne hj] at hother
        refine ⟨fun hc => ?_, hother⟩
        rw [← hc] at hplace
        rcases hwake with ⟨-, hw⟩ | ⟨-, hw⟩ <;> rw [← hc] at hw <;> cases hw
  · simp only
    rw [hpending]
    split
    · exact h.single
    · omega
  · simp only at hpos
    rw [hpending] at hpos
    split at hpos
    · exact h.signal hpos
    · exact absurd hpos (lt_irrefl 0)
  · intro hsetup
    simp only [State.goto, Function.update_self] at hsetup
    rw [hpc] at hsetup
    split at hsetup <;> cases hsetup
  · intro hc
    rw [show s.registered = true from hc] at hreg
    cases hreg
  · intro hdeaf
    have hc := (h.deaf hdeaf).2.2.1
    rw [hreg] at hc
    cases hc

theorem Inv.threadStep (h : Inv prog s) {i : ℕ} (hs : threadStep prog i s = some s') : Inv prog s' := by
  have hdeaf : ¬Deaf prog s := fun hd => by rw [(h.deaf_idle hd i).1] at hs; cases hs
  have hmain := h.main
  cases hpc : s.pcs i with
  | unborn | ended => simp only [MqNotify.threadStep, hpc, reduceCtorEq] at hs
  | setup =>
    obtain rfl := h.eq_main (by rw [hpc]; nofun) (by rw [hpc]; rfl)
    obtain ⟨hcreated, hreceived, -⟩ := h.fresh hpc
    simp only [MqNotify.threadStep, hpc, Option.some.injEq] at hs
    rw [← hs]
    rw [hpc] at hmain
    refine h.mqNotify _ (by rw [hpc]; rfl) (by rw [hpc]; nofun) (by split <;> rfl) (fun _ => ?_)
      (fun hlt => absurd hlt (lt_irrefl 0)) s.queue (fun hne => ?_) fun hdrains hne => ?_
    · split
      · rename_i hdrains
        simp only [Program.mainAt, hdrains, Bool.true_or]
      · exact hmain
    · rcases Bool.eq_false_or_eq_true prog.drains with hdrains | hdrains
      · rw [if_pos hdrains]
        exact .inl rfl
      · exact .inr ⟨hdrains, hne⟩
    · rw [hdrains]
      exact ⟨rfl, rfl, hcreated, hreceived, hne⟩
  | test =>
    obtain rfl := h.eq_main (by rw [hpc]; nofun) (by rw [hpc]; rfl)
    rw [hpc] at hmain
    simp only [MqNotify.threadStep, hpc, Option.some.injEq] at hs
    rw [← hs]
    split
    · rename_i hgot
      exact h.wakes .flag ⟨hgot, by rw [hpc]; nofun⟩ (.inr ⟨hpc, rfl⟩) (if_pos rfl).symm
        (if_pos rfl).symm hmain
    · exact h.goto hdeaf (by rw [hpc]; rfl) rfl (by rw [hpc]; nofun) (fun _ => hmain)
        (fun hlt => absurd hlt (lt_irrefl 0)) fun hc => by rw [hpc] at hc; cases hc
  | sleep =>
    obtain rfl := h.eq_main (by rw [hpc]; nofun) (by rw [hpc]; rfl)
    rw [hpc] at hmain
    simp only [MqNotify.threadStep, hpc, Option.some.injEq] at hs
    rw [← hs]
    exact h.goto hdeaf (by rw [hpc]; rfl) rfl (by rw [hpc]; nofun) (fun _ => hmain)
      (fun hlt => absurd hlt (lt_irrefl 0)) fun hc => by rw [hpc] at hc; cases hc
  | clear =>
    obtain rfl := h.eq_main (by rw [hpc]; nofun) (by rw [hpc]; rfl)
    rw [hpc] at hmain
    simp only [MqNotify.threadStep, hpc, Option.some.injEq] at hs
    rw [← hs]
    have hreg := h.not_registered (i := 0) (by rw [hpc]; rfl)
    have hnotify : prog.mainAt .notify = true := by cases prog <;> first | rfl | cases hmain
    refine ⟨h.ok, ?_, h.single, h.main_goto 0 fun _ => hnotify,
      h.workers_goto 0 fun hlt => absurd hlt (lt_irrefl 0), h.unborn_goto 0 (by rw [hpc]; nofun), h.created,
      nofun, h.signal, ?_, ?_, fun hd => absurd hd hdeaf⟩
    · -- the flag is cleared, but the token is no longer there
      refine token_stays h.token fun place => ?_
      cases place with
      | kernel => rfl
      | signal => rfl
      | flag => exact ⟨fun hc => absurd hc.1 nofun, fun hc => absurd hpc hc.2⟩
      | thread j =>
        simp only [Has, State.goto]
        rcases eq_or_ne j 0 with rfl | hj
        · rw [Function.update_self, hpc]
          rfl
        · rw [Function.update_of_ne hj]
    · intro hsetup
      simp only [State.goto, Function.update_self] at hsetup
      cases hsetup
    · intro hc
      rw [show s.registered = true from hc] at hreg
      cases hreg
  | notify =>
    simp only [MqNotify.threadStep, hpc, Option.some.injEq] at hs
    have hi := h.mqNotify .receive (by rw [hpc]; rfl) (by rw [hpc]; nofun) rfl (fun hi => by
      rw [hi] at hpc
      rw [hpc] at hmain
      simp only [Program.mainAt] at hmain ⊢
      rw [hmain, Bool.or_true]) (fun _ => rfl) s.backlog (fun _ => .inl rfl) fun hdrains hne =>
        absurd ⟨hdrains, hne⟩ hdeaf
    rw [← hs]
    unfold State.mqNotify at hi ⊢
    rw [h.not_registered (i := i) (by rw [hpc]; rfl)] at hi ⊢
    exact hi
  | receive =>
    simp only [MqNotify.threadStep, hpc] at hs
    split at hs
    · rename_i hqueue
      obtain rfl := Option.some.inj hs
      refine h.goto hdeaf (by rw [hpc]; rfl) ?_ (by rw [hpc]; nofun) (fun hi => ?_) (fun hi => ?_)
        fun _ => hqueue
      · rw [Program.rest]
        split
        · rfl
        · split <;> rfl
      · rw [hi, Program.rest]
        cases hpolls : prog.polls
        · simp [Program.mainAt, hpolls]
        · simp [Program.mainAt, hpolls]
      · have hthreads := h.created (by
          by_contra hno
          rw [h.unborn i (by omega)] at hpc
          cases hpc)
        have hpolls : prog.polls = false := by
          cases prog <;> first | rfl | cases hthreads
        have hne : i ≠ 0 := by omega
        simp [Program.rest, hpolls, hthreads, hne, Pc.worker]
    · obtain rfl := Option.some.inj hs
      exact { h with
        fresh := fun hsetup => by
          refine absurd (h.fresh hsetup) fun hc => ?_
          have hi : i = 0 := by
            by_contra hi
            rw [h.unborn i (by omega)] at hpc
            cases hpc
          rw [hi, hsetup] at hpc
          cases hpc
        awake := fun _ _ => .inl ⟨i, hpc⟩
        deaf := fun hd => absurd hd hdeaf }
  | wait =>
    obtain rfl := h.eq_main (by rw [hpc]; nofun) (by rw [hpc]; rfl)
    rw [hpc] at hmain
    simp only [MqNotify.threadStep, hpc, Option.ite_none_right_eq_some, Bool.and_eq_true,
      Bool.not_eq_true', decide_eq_true_eq] at hs
    obtain ⟨⟨hthreads, hpos⟩, hs⟩ := hs
    obtain rfl := Option.some.inj hs
    refine h.wakes .signal hpos (.inl ⟨hpc, rfl⟩) rfl ?_ ?_
    · have := h.single
      simp only [reduceCtorEq, if_false]
      omega
    · simp only [Program.mainAt, hthreads, Bool.not_false]

theorem Inv.mqSend (h : Inv prog s) (m : Msg) : Inv prog (mqSend prog s m) := by
  have hinsert : insertMsg m s.queue ≠ [] := fun hc => by
    have := (insertMsg_perm m s.queue).length_eq
    rw [hc, List.length_append] at this
    cases this
  simp only [MqNotify.mqSend]
  split
  · rename_i hnotify
    obtain ⟨hempty, hreg⟩ := Bool.and_eq_true_iff.mp hnotify
    rw [List.isEmpty_iff] at hempty
    have hdeaf : ¬Deaf prog s := fun hd => (h.deaf hd).2.2.2.2 hempty
    have hpending : s.pending = 0 := by
      have hno := h.elsewhere (p := .kernel) (q := .signal) hreg nofun
      simp only [Has] at hno
      omega
    split
    · -- the thread that is created holds the token
      rename_i hthreads
      have hborn : s.pcs 0 ≠ .unborn := fun hc => by
        have := h.main
        rw [hc] at this
        cases this
      refine ⟨h.ok, ?_, h.single, ?_, ?_, ?_, fun _ => hthreads, h.flag, h.signal, ?_, nofun,
        fun hd => absurd hd hdeaf⟩
      · refine @token_moves _ _ _ .kernel (.thread (s.created + 1)) h.token hreg ?_ fun place hne hplace => ?_
        · simp only [Has, State.goto, Function.update_self, Pc.registers]
        · cases place with
          | kernel => cases hplace
          | signal => exact ⟨nofun, hplace⟩
          | flag =>
            have hseen := hplace.2
            simp only [State.goto] at hseen
            rw [Function.update_of_ne (by omega)] at hseen
            exact ⟨nofun, hplace.1, hseen⟩
          | thread j =>
            have hj : j ≠ s.created + 1 := fun hc => hne (by rw [hc])
            simp only [Has, State.goto] at hplace
            rw [Function.update_of_ne hj] at hplace
            exact ⟨nofun, hplace⟩
      · simp only [State.goto]
        rw [Function.update_of_ne (by omega)]
        exact h.main
      · intro j hj hle
        simp only [State.goto] at hle ⊢
        rcases eq_or_ne j (s.created + 1) with rfl | hne
        · rw [Function.update_self]
          rfl
        · rw [Function.update_of_ne hne]
          exact h.workers j hj (by omega)
      · intro j hj
        simp only [State.goto] at hj ⊢
        rw [Function.update_of_ne (by omega)]
        exact h.unborn j (by omega)
      · intro hsetup
        simp only [State.goto] at hsetup
        rw [Function.update_of_ne (by omega)] at hsetup
        have hno := h.not_registered (i := 0) (by rw [hsetup]; rfl)
        rw [hreg] at hno
        cases hno
    · rename_i hthreads
      have hpost : prog.post s.pending = 1 := by rw [Program.post, hpending]; split <;> rfl
      rw [hpost]
      refine ⟨h.ok, ?_, le_refl 1, h.main, h.workers, h.unborn, h.created, h.flag,
        fun _ => Bool.not_eq_true _ ▸ hthreads, h.fresh, nofun, fun hd => absurd hd hdeaf⟩
      refine @token_moves _ _ _ .kernel .signal h.token hreg Nat.one_pos fun place hne hplace => ?_
      cases place with
      | kernel => cases hplace
      | signal => exact absurd rfl hne
      | flag => exact ⟨nofun, hplace⟩
      | thread j => exact ⟨nofun, hplace⟩
  · rename_i hnotify
    refine ⟨h.ok, h.token, h.single, h.main, h.workers, h.unborn, h.created, h.flag, h.signal, h.fresh,
      fun hreg _ => ?_, fun hd => ?_⟩
    · -- the queue was not empty before
      refine h.awake hreg fun hempty => hnotify ?_
      rw [hempty, show s.registered = true from hreg]
      rfl
    · obtain ⟨hmain, hcreated, hreg, hreceived, -⟩ := h.deaf hd
      exact ⟨hmain, hcreated, hreg, hreceived, hinsert⟩

theorem Inv.deliver (h : Inv prog s) (hpolls : prog.polls = true) (hpos : 0 < s.pending) :
    Inv prog { s with pending := s.pending - 1, gotSig := true } := by
  have hsingle := h.single
  have hdeaf : ¬Deaf prog s := fun hd => by
    have := (h.deaf_idle hd 0).2
    omega
  have hclear : s.pcs 0 ≠ .clear := fun hc =>
    h.elsewhere (p := .signal) (q := .thread 0) hpos nofun (by simp only [Has, hc, Pc.registers])
  refine ⟨h.ok, ?_, by simp only; omega, h.main, h.workers, h.unborn, h.created, fun _ => hpolls,
    fun hc => h.signal (by simp only at hc; omega), h.fresh, h.awake, fun hd => absurd hd hdeaf⟩
  refine @token_moves _ _ _ .signal .flag h.token hpos ⟨rfl, hclear⟩ fun place hne hplace => ?_
  cases place with
  | kernel => exact ⟨nofun, hplace⟩
  | signal =>
    simp only [Has] at hplace
    omega
  | flag => exact absurd rfl hne
  | thread j => exact ⟨nofun, hplace⟩

theorem Inv.step {maxmsg : ℕ} {a : Act} (h : Inv prog s) (hC : NoFault s a)
    (hs : step prog maxmsg s a = some s') : Inv prog s' := by
  cases a with
  | send m =>
    simp only [MqNotify.step, Option.ite_none_right_eq_some, Option.some.injEq] at hs
    rw [← hs.2]
    exact h.mqSend m
  | thread i =>
    simp only [MqNotify.step, Option.ite_none_left_eq_some] at hs
    exact h.threadStep hs.2
  | deliver =>
    simp only [MqNotify.step, Option.ite_none_right_eq_some, Option.some.injEq, Bool.and_eq_true,
      decide_eq_true_eq] at hs
    rw [← hs.2]
    exact h.deliver hs.1.1.1 hs.1.1.2
  | fails i => exact hC.elim
  | kill => exact hC.elim

end Steps

theorem inv_of_reaches {prog : Program} {maxmsg : ℕ} {s : State}
    (h : Reaches (mqNotify prog maxmsg) NoFault s) : Inv prog s :=
  h.invariant (I := Inv prog) (fun _ hs => Starts.inv hs) fun _ _ _ hi hC hs => hi.step hC hs

/-- **One notification, and one that takes it**: as long as no call fails and no signal comes from
elsewhere, there is one registration, or one signal or flag or thread that leads to the next, and never
two; so no `mq_notify()` finds a registration. And who is registered while messages are queued has a
thread that is receiving them, if `main()` has drained what was there or there was nothing. -/
theorem one_token {prog : Program} {maxmsg : ℕ} {s : State}
    (h : Reaches (mqNotify prog maxmsg) NoFault s) :
    s.failed = false ∧ (∃! place, Has s place) ∧ s.pending ≤ 1 ∧
      (s.registered = true → s.queue ≠ [] → prog.drains = true ∨ s.backlog = [] →
        ∃ i, s.pcs i = .receive) := by
  have hi := inv_of_reaches h
  refine ⟨hi.ok, hi.token, hi.single, fun hreg hqueue hall => ?_⟩
  rcases hi.awake hreg hqueue with hreceive | ⟨hdrains, hbacklog⟩
  · exact hreceive
  · rcases hall with hall | hall
    · rw [hdrains] at hall
      cases hall
    · exact absurd hall hbacklog

/-- A message comes while `main()` drains what was there, and the thread for it has not registered yet. -/
def secondThread : List Act := [.thread 0, .thread 0, .send ⟨0, [2]⟩, .send ⟨5, [3]⟩]

theorem one_token_second : ∃ s : State, s.received = [⟨0, [1]⟩] ∧ s.pcs 1 = .notify ∧
    s.failed = false ∧ ∃! place, Has s place := by
  obtain ⟨s, hrun, hreceived, hpc⟩ : ∃ s, (mqNotify .mq_notify_via_thread 10).runWith NoFault
      (start .mq_notify_via_thread [⟨0, [1]⟩]) secondThread = some s ∧
        s.received = [⟨0, [1]⟩] ∧ s.pcs 1 = .notify := ⟨_, rfl, rfl, rfl⟩
  have h := System.reaches_of_runWith secondThread
    (.init (start_starts .mq_notify_via_thread (List.pairwise_singleton _ _))) hrun
  obtain ⟨hok, htoken, -⟩ := one_token h
  exact ⟨s, hreceived, hpc, hok, htoken⟩

/-! ## 4. Everything is received -/

/-- What the program does by itself, apart from looking in vain at `gotSig`. -/
def Quiet (s : State) : Act → Prop
  | .thread i => ¬(s.pcs i = .test ∧ s.gotSig = false)
  | .deliver => True
  | .send _ | .fails _ | .kill => False

instance (s : State) (a : Act) : Decidable (Quiet s a) := by
  cases a <;> unfold Quiet <;> infer_instance

/-- How many steps a thread takes before it rests. -/
def Pc.rank : Pc → ℕ
  | .clear => 4
  | .setup | .notify => 3
  | .receive => 2
  | .sleep => 1
  | .unborn | .test | .wait | .ended => 0

/-- What `gotSig` gives rise to, once it is seen. -/
def flagRank (gotSig : Bool) : Pc → ℕ
  | .clear => 0
  | .test => if gotSig then 5 else 0
  | _ => if gotSig then 6 else 0

def State.budget (s : State) : ℕ :=
  ∑ i ∈ Finset.range (s.created + 1), (s.pcs i).rank + flagRank s.gotSig (s.pcs 0) + 7 * s.pending +
    s.queue.length

theorem flagRank_le (gotSig : Bool) (pc : Pc) : flagRank gotSig pc ≤ 6 := by
  cases gotSig <;> cases pc <;> decide

theorem Inv.budget_le {prog : Program} {s : State} (h : Inv prog s) :
    s.budget ≤ s.queue.length + 3 * s.created + 17 := by
  have hworkers : ∑ i ∈ Finset.range s.created, (s.pcs (i + 1)).rank ≤ ∑ _i ∈ Finset.range s.created, 3 := by
    refine Finset.sum_le_sum fun i hi => ?_
    have hworker := h.workers (i + 1) (by omega) (by have := Finset.mem_range.mp hi; omega)
    cases hpc : s.pcs (i + 1) <;> rw [hpc] at hworker <;> first | decide | cases hworker
  have hmain : (s.pcs 0).rank ≤ 4 := by cases s.pcs 0 <;> decide
  have hflag := flagRank_le s.gotSig (s.pcs 0)
  have hsingle := h.single
  rw [Finset.sum_const_nat fun _ _ => rfl, Finset.card_range] at hworkers
  rw [State.budget, Finset.sum_range_succ']
  omega

section Budget

variable {prog : Program} {s s' : State}

theorem Inv.mem_range (h : Inv prog s) {i : ℕ} (hi : s.pcs i ≠ .unborn) :
    i ∈ Finset.range (s.created + 1) := by
  rw [Finset.mem_range]
  by_contra hle
  exact hi (h.unborn i (by omega))

/-- A thread goes to a place of a lower rank, which does not change what the flag is worth. -/
theorem Inv.goto_budget (h : Inv prog s) {i : ℕ} (pc : Pc) (hborn : s.pcs i ≠ .unborn)
    (hrank : pc.rank < (s.pcs i).rank)
    (hflag : i = 0 → flagRank s.gotSig pc ≤ flagRank s.gotSig (s.pcs 0)) :
    (s.goto i pc).budget < s.budget := by
  have hsum := sum_update_mem Pc.rank s.pcs pc (h.mem_range hborn)
  have hle : flagRank s.gotSig (Function.update s.pcs i pc 0) ≤ flagRank s.gotSig (s.pcs 0) := by
    rcases eq_or_ne i 0 with rfl | hi
    · rw [Function.update_self]
      exact hflag rfl
    · rw [Function.update_of_ne (Ne.symm hi)]
  simp only [State.budget, State.goto]
  omega

theorem threadStep_budget (h : Inv prog s) {i : ℕ} (hquiet : Quiet s (.thread i))
    (hs : threadStep prog i s = some s') : s'.budget < s.budget := by
  cases hpc : s.pcs i with
  | unborn | ended => simp only [threadStep, hpc, reduceCtorEq] at hs
  | setup =>
    simp only [threadStep, hpc, Option.some.injEq] at hs
    rw [← hs, State.mqNotify, h.not_registered (by rw [hpc]; rfl)]
    refine h.goto_budget (i := i) (if prog.drains then .receive else .wait) (by rw [hpc]; nofun)
      ?_ fun hi => ?_
    · rw [hpc]
      split <;> decide
    · rw [hi] at hpc
      rw [hpc]
      split <;> cases s.gotSig <;> decide
  | test =>
    obtain rfl := h.eq_main (by rw [hpc]; nofun) (by rw [hpc]; rfl)
    have hgot : s.gotSig = true := by
      by_contra hno
      exact hquiet ⟨hpc, Bool.not_eq_true _ ▸ hno⟩
    simp only [threadStep, hpc, hgot, if_true, Option.some.injEq] at hs
    rw [← hs]
    have hsum := sum_update_mem Pc.rank s.pcs .clear (h.mem_range (i := 0) (by rw [hpc]; nofun))
    rw [hpc] at hsum
    simp only [State.budget, State.goto, Function.update_self, hpc, hgot, flagRank, if_true, Pc.rank] at hsum ⊢
    omega
  | clear =>
    obtain rfl := h.eq_main (by rw [hpc]; nofun) (by rw [hpc]; rfl)
    simp only [threadStep, hpc, Option.some.injEq] at hs
    rw [← hs]
    have hsum := sum_update_mem Pc.rank s.pcs .notify (h.mem_range (i := 0) (by rw [hpc]; nofun))
    rw [hpc] at hsum
    simp only [State.budget, State.goto, Function.update_self, hpc, flagRank, Bool.false_eq_true, if_false,
      Pc.rank] at hsum ⊢
    omega
  | notify =>
    simp only [threadStep, hpc, Option.some.injEq] at hs
    rw [← hs, State.mqNotify, h.not_registered (by rw [hpc]; rfl)]
    refine h.goto_budget (i := i) .receive (by rw [hpc]; nofun) (by rw [hpc]; decide) fun hi => ?_
    rw [hi] at hpc
    rw [hpc]
    cases s.gotSig <;> decide
  | receive =>
    simp only [threadStep, hpc] at hs
    split at hs
    · obtain rfl := Option.some.inj hs
      refine h.goto_budget _ (by rw [hpc]; nofun) ?_ fun hi => ?_
      · rw [hpc, Program.rest]
        split
        · decide
        · split <;> decide
      · rw [hi] at hpc
        rw [hpc, Program.rest]
        split
        · cases s.gotSig <;> decide
        · split <;> cases s.gotSig <;> decide
    · rename_i m q hqueue
      obtain rfl := Option.some.inj hs
      have hlength := congrArg List.length hqueue
      rw [List.length_cons] at hlength
      simp only [State.budget]
      omega
  | sleep =>
    simp only [threadStep, hpc, Option.some.injEq] at hs
    rw [← hs]
    refine h.goto_budget _ (by rw [hpc]; nofun) (by rw [hpc]; decide) fun hi => ?_
    rw [hi] at hpc
    rw [hpc]
    cases s.gotSig <;> decide
  | wait =>
    obtain rfl := h.eq_main (by rw [hpc]; nofun) (by rw [hpc]; rfl)
    simp only [threadStep, hpc, Option.ite_none_right_eq_some, Bool.and_eq_true, decide_eq_true_eq] at hs
    obtain ⟨⟨-, hpos⟩, hs⟩ := hs
    obtain rfl := Option.some.inj hs
    have hsum := sum_update_mem Pc.rank s.pcs .notify (h.mem_range (i := 0) (by rw [hpc]; nofun))
    rw [hpc] at hsum
    have hflag : flagRank s.gotSig .notify = flagRank s.gotSig .wait := by cases s.gotSig <;> rfl
    simp only [State.budget, State.goto, Function.update_self, hpc, hflag, Pc.rank] at hsum ⊢
    omega

theorem budget_step {maxmsg : ℕ} {a : Act} (h : Inv prog s) (hC : Quiet s a)
    (hs : step prog maxmsg s a = some s') : Inv prog s' ∧ s'.budget < s.budget := by
  cases a with
  | send m => exact hC.elim
  | fails i => exact hC.elim
  | kill => exact hC.elim
  | thread i =>
    refine ⟨h.step (a := .thread i) trivial hs, ?_⟩
    simp only [step, Option.ite_none_left_eq_some] at hs
    exact threadStep_budget h hC hs.2
  | deliver =>
    refine ⟨h.step (a := .deliver) trivial hs, ?_⟩
    simp only [step, Option.ite_none_right_eq_some, Option.some.injEq, Bool.and_eq_true,
      decide_eq_true_eq] at hs
    obtain ⟨⟨⟨-, hpos⟩, -⟩, rfl⟩ := hs
    have hflag := flagRank_le true (s.pcs 0)
    simp only [State.budget]
    omega

/-- Where the program does nothing more by itself, it is registered, and nobody is receiving. -/
theorem Inv.at_rest {maxmsg : ℕ} (h : Inv prog s)
    (hrest : ∀ a, Quiet s a → MqNotify.step prog maxmsg s a = none) :
    s.registered = true ∧ ∀ i, s.pcs i ≠ .receive := by
  have hthread : ∀ i, s.pcs i ≠ .test → MqNotify.threadStep prog i s = none := fun i hi => by
    have hstep := hrest (.thread i) fun hc => hi hc.1
    simpa only [MqNotify.step, h.ok, Bool.false_eq_true, if_false] using hstep
  have hnotify : ∀ i, (s.pcs i).registers = false := fun i => by
    cases hpc : s.pcs i with
    | setup | clear | notify =>
      have := hthread i (by rw [hpc]; nofun)
      simp only [MqNotify.threadStep, hpc, reduceCtorEq] at this
    | _ => rfl
  have hreceive : ∀ i, s.pcs i ≠ .receive := fun i hpc => by
    have := hthread i (by rw [hpc]; nofun)
    simp only [MqNotify.threadStep, hpc] at this
    split at this <;> cases this
  refine ⟨?_, hreceive⟩
  obtain ⟨place, hplace, -⟩ := h.token
  cases place with
  | kernel => exact hplace
  | signal =>
    -- the handler could run, or `sigwaitinfo()` return
    exfalso
    simp only [Has] at hplace
    have hthreads := h.signal hplace
    cases hpolls : prog.polls
    · have hmain := h.main
      cases hpc : s.pcs 0 with
      | wait =>
        have := hthread 0 (by rw [hpc]; nofun)
        simp only [MqNotify.threadStep, hpc, hthreads, hplace, decide_true, Bool.not_false, Bool.and_self, if_true,
          reduceCtorEq] at this
      | receive => exact hreceive 0 hpc
      | test | clear | sleep =>
        rw [hpc] at hmain
        simp only [Program.mainAt, hpolls, Bool.false_eq_true] at hmain
      | setup | notify =>
        have := hnotify 0
        rw [hpc] at this
        cases this
      | unborn | ended =>
        rw [hpc] at hmain
        cases hmain
    · have hstep := hrest .deliver trivial
      simp only [MqNotify.step, hpolls, hplace, h.ok, decide_true, Bool.not_false, Bool.and_self, if_true,
        reduceCtorEq] at hstep
  | flag =>
    exfalso
    obtain ⟨hgot, -⟩ := hplace
    have hpolls := h.flag hgot
    have hmain := h.main
    cases hpc : s.pcs 0 with
    | test =>
      have hstep := hrest (.thread 0) fun hc => by rw [hgot] at hc; cases hc.2
      simp only [MqNotify.step, h.ok, Bool.false_eq_true, if_false, MqNotify.threadStep, hpc, reduceCtorEq] at hstep
    | sleep =>
      have := hthread 0 (by rw [hpc]; nofun)
      simp only [MqNotify.threadStep, hpc, reduceCtorEq] at this
    | receive => exact hreceive 0 hpc
    | wait =>
      rw [hpc] at hmain
      simp only [Program.mainAt, hpolls, Bool.not_true, Bool.false_eq_true] at hmain
    | setup | notify | clear =>
      have := hnotify 0
      rw [hpc] at this
      cases this
    | unborn | ended =>
      rw [hpc] at hmain
      cases hmain
  | thread i =>
    simp only [Has] at hplace
    rw [hnotify i] at hplace
    cases hplace

end Budget

/-- **Nothing is left on the queue**: as long as no call fails and no signal comes from elsewhere, the
program comes to rest from wherever it is, and then it is registered and has received all that was sent,
each message once and those of one priority in the order they were sent; except that, if `main()` does not
drain what is there at its first registration and something is, it never receives anything. -/
theorem received_all {prog : Program} {maxmsg : ℕ} {s s' : State}
    (h : Reaches (mqNotify prog maxmsg) NoFault s) (as : List Act)
    (hrun : (mqNotify prog maxmsg).runWith Quiet s as = some s') :
    as.length ≤ s.queue.length + 3 * s.created + 17 ∧
      ((∀ a, Quiet s' a → step prog maxmsg s' a = none) → s'.registered = true ∧
        if prog.drains = true ∨ s'.backlog = [] then
          s'.queue = [] ∧ s'.received.Perm s'.sent ∧ ∀ k, ofPrio k s'.received = ofPrio k s'.sent
        else s'.received = [] ∧ s'.queue.Perm s'.sent) := by
  have hbooks : Books s := h.invariant (I := Books) (fun _ hs => Starts.books hs)
    fun _ _ _ hi _ hs => step_books hi hs
  obtain ⟨⟨hi', hbooks'⟩, hle⟩ := System.runWith_measure (S := mqNotify prog maxmsg)
    (I := fun s => Inv prog s ∧ Books s) (m := State.budget)
    (fun s a s' hi hC hs => ⟨⟨(budget_step hi.1 hC hs).1, step_books hi.2 hs⟩, (budget_step hi.1 hC hs).2⟩)
    as ⟨inv_of_reaches h, hbooks⟩ hrun
  have hbudget := (inv_of_reaches h).budget_le
  refine ⟨by omega, fun hrest => ?_⟩
  obtain ⟨hreg, hreceive⟩ := hi'.at_rest hrest
  refine ⟨hreg, ?_⟩
  have haccount := hbooks'.account
  split
  · rename_i hall
    have hqueue : s'.queue = [] := by
      by_contra hne
      rcases hi'.awake hreg hne with ⟨i, hi⟩ | ⟨hdrains, hbacklog⟩
      · exact hreceive i hi
      · rcases hall with hall | hall
        · rw [hdrains] at hall
          cases hall
        · exact hbacklog hall
    rw [hqueue, List.append_nil] at haccount
    refine ⟨hqueue, haccount.symm, fun k => ?_⟩
    have hk := hbooks'.fifo k
    rw [hqueue] at hk
    exact (hk.trans (List.append_nil _)).symm
  · rename_i hall
    rw [not_or, Bool.not_eq_true] at hall
    have hreceived := (hi'.deaf hall).2.2.2.1
    rw [hreceived, List.nil_append] at haccount
    exact ⟨hreceived, haccount.symm⟩

/-- Both threads receive at once, the more urgent message first. -/
theorem received_all_second : ∃ s s' : State,
    (mqNotify .mq_notify_via_thread 10).runWith Quiet s
      [.thread 0, .thread 1, .thread 1, .thread 0, .thread 1] = some s' ∧
    s'.received = [⟨0, [1]⟩, ⟨5, [3]⟩, ⟨0, [2]⟩] ∧ s'.queue = [] ∧ s'.registered = true ∧
      s'.received.Perm s'.sent := by
  obtain ⟨s, hrun, s', hrun', hreceived, hmain, hworker, hunborn⟩ :
      ∃ s, (mqNotify .mq_notify_via_thread 10).runWith NoFault
        (start .mq_notify_via_thread [⟨0, [1]⟩]) secondThread = some s ∧
      ∃ s', (mqNotify .mq_notify_via_thread 10).runWith Quiet s
        [.thread 0, .thread 1, .thread 1, .thread 0, .thread 1] = some s' ∧
        s'.received = [⟨0, [1]⟩, ⟨5, [3]⟩, ⟨0, [2]⟩] ∧ s'.pcs 0 = .wait ∧ s'.pcs 1 = .ended ∧
        ∀ i, s'.pcs (i + 2) = .unborn := ⟨_, rfl, _, rfl, rfl, rfl, rfl, fun _ => rfl⟩
  have h := System.reaches_of_runWith secondThread
    (.init (start_starts .mq_notify_via_thread (List.pairwise_singleton _ _))) hrun
  obtain ⟨-, hrest⟩ := received_all h _ hrun'
  obtain ⟨hreg, hall⟩ := hrest fun a ha => by
    cases a with
    | send m => exact ha.elim
    | fails i => exact ha.elim
    | kill => exact ha.elim
    | deliver => rfl
    | thread i =>
      have hpc : threadStep .mq_notify_via_thread i s' = none := by
        rcases i with _ | _ | i
        · rw [threadStep, hmain]
          rfl
        · rw [threadStep, hworker]
        · rw [threadStep, hunborn i]
      rw [step, hpc, ite_self]
  rw [if_pos (.inl rfl)] at hall
  exact ⟨s, s', hrun', hreceived, hall.1, hreg, hall.2.1⟩

end Tlpi.MqNotify
