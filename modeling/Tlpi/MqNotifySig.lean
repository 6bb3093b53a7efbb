/-
`pmsg/mq_notify_sig.c`: draining a POSIX message queue on notification by a signal.

## What is modelled

The program from the moment its first `mq_notify()` has succeeded on an empty queue, one
system call a step, and senders that send whenever they like (as long as the queue has
room). `NOTIFY_SIG` is blocked except inside `sigsuspend()`: a notification makes it
*pending*, once however often it is generated, and `sigsuspend()` returns as soon as it
is. A notification is generated by a message that arrives on an empty queue while a
registration is active, and uses the registration up. A second registration while one is
active fails with `EBUSY`, and the program terminates.

`sent` and `received` are history variables.

## The shape of the argument

A wake-up is lost if the program suspends itself with neither a pending signal nor an
active registration on an empty queue. Re-registering *before* draining is what rules it
out: throughout the drain loop one of the two is there (`Inv.armed`), and the loop is only
left on an empty queue. The signal being blocked is what makes it safe to be notified in
the middle: the notification is still pending at the next `sigsuspend()`.
-/
import Mathlib.Data.List.Perm.Basic
import Mathlib.Data.List.TakeWhile
import Tlpi.Transition

set_option autoImplicit false

namespace Tlpi.MqNotifySig

open Tlpi.Transition

/-! ## The queue -/

structure Msg where
  prio : ℕ
  body : List UInt8
deriving Repr, DecidableEq

/-- A message queue delivers the highest priority first, and of one priority the oldest:
a new message goes behind all that are at least as urgent. -/
def insertMsg (m : Msg) (q : List Msg) : List Msg :=
  q.takeWhile (fun x => decide (m.prio ≤ x.prio)) ++
    m :: q.dropWhile (fun x => decide (m.prio ≤ x.prio))

/-- In the order of delivery. -/
def Ordered (q : List Msg) : Prop := q.Pairwise fun a b => b.prio ≤ a.prio

/-- The messages of one priority. -/
def ofPrio (k : ℕ) (q : List Msg) : List Msg := q.filter fun x => decide (x.prio = k)

/-- In an ordered queue nothing behind the new message is as urgent. -/
theorem mem_dropWhile_lt {m : Msg} : ∀ {q : List Msg}, Ordered q →
    ∀ x ∈ q.dropWhile (fun x => decide (m.prio ≤ x.prio)), x.prio < m.prio := by
  intro q
  induction q with
  | nil => intro _ x hx; exact nomatch hx
  | cons a q ih =>
    intro hq x hx
    rw [Ordered, List.pairwise_cons] at hq
    by_cases ha : m.prio ≤ a.prio
    · rw [List.dropWhile_cons_of_pos (by rw [decide_eq_true_eq]; exact ha)] at hx
      exact ih hq.2 x hx
    · rw [List.dropWhile_cons_of_neg (by rw [decide_eq_true_eq]; exact ha)] at hx
      rcases List.mem_cons.mp hx with rfl | hx
      · omega
      · have := hq.1 x hx
        omega

theorem ordered_insertMsg (m : Msg) {q : List Msg} (hq : Ordered q) : Ordered (insertMsg m q) := by
  have hlt := mem_dropWhile_lt (m := m) hq
  have hge : ∀ x ∈ q.takeWhile (fun x => decide (m.prio ≤ x.prio)), m.prio ≤ x.prio := by
    intro x hx
    have := List.mem_takeWhile_imp hx
    rwa [decide_eq_true_eq] at this
  rw [Ordered, insertMsg, List.pairwise_append, List.pairwise_cons]
  refine ⟨hq.sublist (List.takeWhile_sublist _), ⟨fun x hx => (hlt x hx).le,
    hq.sublist (List.dropWhile_sublist _)⟩, ?_⟩
  intro a ha b hb
  have hma := hge a ha
  rcases List.mem_cons.mp hb with rfl | hb
  · exact hma
  · have := hlt b hb
    omega

theorem insertMsg_perm (m : Msg) (q : List Msg) : (insertMsg m q).Perm (q ++ [m]) := by
  have hmiddle : (insertMsg m q).Perm (m :: (q.takeWhile (fun x => decide (m.prio ≤ x.prio)) ++
      q.dropWhile (fun x => decide (m.prio ≤ x.prio)))) := List.perm_middle
  rw [List.takeWhile_append_dropWhile] at hmiddle
  exact hmiddle.trans (List.perm_append_singleton m q).symm

/-- Within its priority the new message is the last. -/
theorem ofPrio_insertMsg (k : ℕ) (m : Msg) {q : List Msg} (hq : Ordered q) :
    ofPrio k (insertMsg m q) = ofPrio k q ++ ofPrio k [m] := by
  have hlt := mem_dropWhile_lt (m := m) hq
  have hsplit : ofPrio k q = ofPrio k (q.takeWhile fun x => decide (m.prio ≤ x.prio)) ++
      ofPrio k (q.dropWhile fun x => decide (m.prio ≤ x.prio)) := by
    rw [ofPrio, ofPrio, ofPrio, ← List.filter_append, List.takeWhile_append_dropWhile]
  rw [hsplit, insertMsg, ofPrio, List.filter_append, List.filter_cons]
  by_cases hk : m.prio = k
  · -- what stands behind it has another priority
    have hnone : ofPrio k (q.dropWhile fun x => decide (m.prio ≤ x.prio)) = [] := by
      rw [ofPrio, List.filter_eq_nil_iff]
      intro x hx
      have := hlt x hx
      rw [decide_eq_true_eq]
      omega
    have hone : ofPrio k [m] = [m] := by
      rw [ofPrio, List.filter_cons_of_pos (by rw [decide_eq_true_eq]; exact hk), List.filter_nil]
    rw [if_pos (by rw [decide_eq_true_eq]; exact hk), hnone, hone, List.append_nil]
    exact congrArg (fun t => _ ++ m :: t) hnone
  · have hnone : ofPrio k [m] = [] := by
      rw [ofPrio, List.filter_cons_of_neg (by rw [decide_eq_true_eq]; exact hk), List.filter_nil]
    rw [if_neg (by rw [decide_eq_true_eq]; exact hk), hnone, List.append_nil]
    rfl

/-! ## The program -/

/-- The call the program makes next; `failed` is a `mq_notify()` that found a
registration. -/
inductive Pc where
  | suspend | notify | receive | failed
deriving Repr, DecidableEq

structure State where
  pc : Pc
  queue : List Msg
  registered : Bool
  pending : Bool
  sent : List Msg
  received : List Msg
deriving Repr, DecidableEq

inductive Act where
  /-- Some process sends. -/
  | send (m : Msg)
  /-- The program makes its next call. -/
  | main
deriving Repr, DecidableEq

/-- `mq_send()`: a message on an empty queue uses up an active registration. -/
def mqSend (s : State) (m : Msg) : State :=
  let notify := s.queue.isEmpty && s.registered
  { s with
    queue := insertMsg m s.queue
    registered := s.registered && !notify
    pending := s.pending || notify
    sent := s.sent ++ [m] }

/-- One call of the loop in `main()`. -/
def mainStep (s : State) : Option State :=
  match s.pc with
  | .suspend => if s.pending then some { s with pending := false, pc := .notify } else none
  | .notify =>
    if s.registered then some { s with pc := .failed }
    else some { s with registered := true, pc := .receive }
  | .receive =>
    match s.queue with
    | [] => some { s with pc := .suspend }
    | m :: q => some { s with queue := q, received := s.received ++ [m] }
  | .failed => none

def step (maxmsg : ℕ) (s : State) : Act → Option State
  | .send m => if s.queue.length < maxmsg then some (mqSend s m) else none
  | .main => mainStep s

/-- Registered on an empty queue, about to suspend. -/
def registered : State :=
  { pc := .suspend, queue := [], registered := true, pending := false, sent := [], received := [] }

/-- The program and the senders of a queue of `maxmsg` messages. -/
def notifySig (maxmsg : ℕ) : System State Act where
  init s := s = registered
  step := step maxmsg

/-! ## The invariant -/

structure Inv (s : State) : Prop where
  /-- A notification uses the registration up. -/
  once : s.pending → s.registered = false
  /-- While draining, and on the way back to `sigsuspend()`, one of the two is there. -/
  armed : s.pc = .suspend ∨ s.pc = .receive → s.pending ∨ s.registered
  woken : s.pc = .notify → s.registered = false ∧ s.pending = false
  drained : s.pc = .suspend → s.pending = false → s.queue = []
  alive : s.pc ≠ .failed
  ordered : Ordered s.queue
  /-- Nothing is lost, nothing comes twice. -/
  account : s.sent.Perm (s.received ++ s.queue)
  /-- Of one priority, in the order they were sent. -/
  fifo : ∀ k, ofPrio k s.sent = ofPrio k s.received ++ ofPrio k s.queue

theorem inv_registered : Inv registered :=
  ⟨nofun, fun _ => Or.inr rfl, nofun, fun _ _ => rfl, nofun, List.Pairwise.nil, List.Perm.nil,
    fun _ => rfl⟩

theorem ofPrio_append (k : ℕ) (q₁ q₂ : List Msg) : ofPrio k (q₁ ++ q₂) = ofPrio k q₁ ++ ofPrio k q₂ :=
  List.filter_append ..

/-- A message arrives, at whatever point the program is. -/
theorem inv_send {s : State} (h : Inv s) (m : Msg) : Inv (mqSend s m) := by
  have haccount : (s.sent ++ [m]).Perm (s.received ++ insertMsg m s.queue) := by
    have hpush : (s.received ++ insertMsg m s.queue).Perm (s.received ++ (s.queue ++ [m])) :=
      (insertMsg_perm m s.queue).append_left _
    rw [← List.append_assoc] at hpush
    exact (h.account.append_right [m]).trans hpush.symm
  have hfifo : ∀ k, ofPrio k (s.sent ++ [m]) = ofPrio k s.received ++ ofPrio k (insertMsg m s.queue) := by
    intro k
    rw [ofPrio_append, h.fifo k, ofPrio_insertMsg k m h.ordered, List.append_assoc]
  by_cases hn : (s.queue.isEmpty && s.registered) = true
  · -- the notification: the registration becomes a pending signal
    have hstate : mqSend s m = { s with
        queue := insertMsg m s.queue, registered := false, pending := true, sent := s.sent ++ [m] } := by
      simp only [mqSend, hn, Bool.not_true, Bool.and_false, Bool.or_true]
    have hreg : s.registered = true := (Bool.and_eq_true_iff.mp hn).2
    rw [hstate]
    refine ⟨fun _ => rfl, fun _ => Or.inl rfl, fun hpc => ?_, nofun, h.alive,
      ordered_insertMsg m h.ordered, haccount, hfifo⟩
    rw [(h.woken hpc).1] at hreg
    exact nomatch hreg
  · rw [Bool.not_eq_true] at hn
    have hstate : mqSend s m = { s with queue := insertMsg m s.queue, sent := s.sent ++ [m] } := by
      simp only [mqSend, hn, Bool.not_false, Bool.and_true, Bool.or_false]
    rw [hstate]
    refine ⟨h.once, h.armed, h.woken, ?_, h.alive, ordered_insertMsg m h.ordered, haccount, hfifo⟩
    -- suspended without a signal, the queue was empty and registered: a notification was due
    intro hpc hp
    have hreg : s.registered = true := by
      rcases h.armed (Or.inl hpc) with hpend | hreg
      · rw [show s.pending = false from hp] at hpend
        exact nomatch hpend
      · exact hreg
    rw [h.drained hpc hp, hreg] at hn
    exact nomatch hn

theorem inv_main {s s' : State} (h : Inv s) (hs : mainStep s = some s') : Inv s' := by
  cases hpc : s.pc with
  | suspend =>
    simp only [mainStep, hpc] at hs
    split at hs
    · rename_i hp
      rw [Option.some.injEq] at hs
      subst hs
      exact ⟨nofun, nofun, fun _ => ⟨h.once hp, rfl⟩, nofun, nofun, h.ordered, h.account, h.fifo⟩
    · exact nomatch hs
  | notify =>
    obtain ⟨hreg, hpend⟩ := h.woken hpc
    simp only [mainStep, hpc, hreg, Bool.false_eq_true, if_false, Option.some.injEq] at hs
    subst hs
    -- `sigsuspend()` took the signal, and none can follow without a registration
    refine ⟨fun hp => ?_, fun _ => Or.inr rfl, nofun, nofun, nofun, h.ordered, h.account, h.fifo⟩
    rw [show s.pending = true from hp] at hpend
    exact nomatch hpend
  | receive =>
    simp only [mainStep, hpc] at hs
    cases hq : s.queue with
    | nil =>
      simp only [hq, Option.some.injEq] at hs
      subst hs
      exact ⟨h.once, fun _ => h.armed (Or.inr hpc), nofun, fun _ _ => rfl, nofun, List.Pairwise.nil,
        hq ▸ h.account, hq ▸ h.fifo⟩
    | cons m q =>
      simp only [hq, Option.some.injEq] at hs
      subst hs
      have hord := h.ordered
      have hacc := h.account
      rw [hq, Ordered, List.pairwise_cons] at hord
      rw [hq] at hacc
      refine ⟨h.once, fun _ => h.armed (Or.inr hpc), nofun, nofun, nofun, hord.2, ?_, ?_⟩
      · simp only [List.append_assoc, List.singleton_append]
        exact hacc
      · intro k
        have hk := h.fifo k
        rw [hq, ← List.singleton_append, ofPrio_append] at hk
        simp only [ofPrio_append, List.append_assoc]
        exact hk
  | failed => exact absurd hpc h.alive

theorem inv_of_reachable {maxmsg : ℕ} {s : State} (h : Reachable (notifySig maxmsg) s) : Inv s := by
  apply h.invariant
  · rintro s rfl
    exact inv_registered
  · intro s a s' hi _ hs
    cases a with
    | send m =>
      simp only [notifySig, step] at hs
      split at hs
      · rw [Option.some.injEq] at hs
        rw [← hs]
        exact inv_send hi m
      · exact nomatch hs
    | main => exact inv_main hi hs

/-- **No message is stranded.** In every state of every interleaving in which the program is
suspended and no signal is pending, the queue is empty and the registration is active, and
the messages sent are the messages received: each of them once, and those of one priority
in the order they were sent. What the queue holds is at all times in the order of delivery. -/
theorem no_message_stranded (maxmsg : ℕ) (s : State) (h : Reachable (notifySig maxmsg) s) :
    Ordered s.queue ∧
      (s.pc = .suspend → s.pending = false →
        s.queue = [] ∧ s.registered = true ∧ s.received.Perm s.sent ∧
          ∀ k, ofPrio k s.received = ofPrio k s.sent) := by
  have hi := inv_of_reachable h
  refine ⟨hi.ordered, fun hpc hp => ?_⟩
  have hq := hi.drained hpc hp
  have haccount := hi.account
  rw [hq, List.append_nil] at haccount
  refine ⟨hq, ?_, haccount.symm, ?_⟩
  · rcases hi.armed (Or.inl hpc) with hpend | hreg
    · rw [hp] at hpend
      exact nomatch hpend
    · exact hreg
  · intro k
    have hk := hi.fifo k
    rw [hq] at hk
    exact (hk.trans (List.append_nil _)).symm

/-- One message wakes the program, two more arrive while it drains, the more urgent one is
received first. -/
theorem no_message_stranded_three : ∃ s, Reachable (notifySig 10) s ∧
    s.received = [⟨0, [1]⟩, ⟨5, [3]⟩, ⟨0, [2]⟩] ∧ s.queue = [] ∧ s.registered = true ∧
      s.received.Perm s.sent := by
  have hrun : ((notifySig 10).run registered [.send ⟨0, [1]⟩, .main, .main, .main, .send ⟨0, [2]⟩,
      .send ⟨5, [3]⟩, .main, .main, .main, .main, .main, .main]).map
      (fun s => (s.received, s.pc, s.pending))
      = some ([⟨0, [1]⟩, ⟨5, [3]⟩, ⟨0, [2]⟩], .suspend, false) := by decide
  obtain ⟨s, hs, hobs⟩ := Option.map_eq_some_iff.mp hrun
  simp only [Prod.mk.injEq] at hobs
  have hreach : Reachable (notifySig 10) s := System.reachable_of_run _ (.init rfl) hs
  obtain ⟨hq, hreg, hperm, -⟩ := (no_message_stranded 10 s hreach).2 hobs.2.1 hobs.2.2
  exact ⟨s, hreach, hobs.1, hq, hreg, hperm⟩

end Tlpi.MqNotifySig
