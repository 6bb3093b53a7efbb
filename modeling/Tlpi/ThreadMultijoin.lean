/-
`threads/thread_multijoin.c` and `threads/ythread_multijoin.c`: a main thread that joins its
threads in the order in which they terminate.

## What is modelled

Every access to the shared variables and every `pthread` call is a step of its own, of main or
of one of the threads, in any order; the condition variable may wake main for no reason at
any time. The two programs differ in the order of the two stores that a thread makes under
the mutex, in the order of main's two decrements, and in the `free()` at the end: `Program`
holds these three, and each program is an instance of it. `numLive` is called `numAlive` in
one, and the state `TS_TERMINATED` is `TS_ZOMBIE`.

`joinCalls` is a history variable: how often `pthread_join()` has been called on each thread.

## The shape of the argument

The two counters are accounts. What is in `numUnjoined` is what the threads have paid in, one
each, less what main has drawn for the threads it has marked as joined, up to a decrement
that it still owes (`Inv.unjoined`); `numLive` is the same with a deposit of one for each
thread at the start (`Inv.live`). Everyone who is between two stores holds the mutex. Main
joins with the mutex held, so a thread that it finds terminated is past its own critical
section, and has nothing left to do that could block (`Inv.late`).
-/
import Mathlib.Algebra.Order.BigOperators.Group.Finset
import Tlpi.Pthread
import Tlpi.Transition

set_option autoImplicit false

namespace Tlpi.ThreadMultijoin

open Tlpi.Pthread Tlpi.Transition

/-! ## The programs -/

/-- What the two programs differ in. -/
structure Program where
  /-- A thread increments `numUnjoined` before it sets its state. -/
  countFirst : Bool
  /-- Main decrements `numLive` before `numUnjoined`. -/
  liveFirst : Bool
  /-- Main frees the array of threads when it has left its loop. -/
  frees : Bool
deriving Repr, DecidableEq

/-- `thread_multijoin.c` -/
def threadMultijoin : Program := { countFirst := true, liveFirst := true, frees := false }

/-- `ythread_multijoin.c` -/
def ythreadMultijoin : Program := { countFirst := false, liveFirst := false, frees := true }

inductive TState where
  | alive
  | terminated
  | joined
deriving Repr, DecidableEq

inductive ThreadPc where
  | unborn
  /-- The `sleep()`, and the call of `pthread_mutex_lock()`. -/
  | work
  /-- The first of the two stores. -/
  | first
  | second
  | unlock
  | signal
  | done
deriving Repr, DecidableEq

inductive MainPc (n : ℕ) where
  /-- The creation of thread `j`. -/
  | create (j : ℕ)
  /-- `totThreads = argc - 1; numLive = totThreads` -/
  | setLive
  /-- `while (numLive > 0)` -/
  | test
  | lock
  /-- `while (numUnjoined == 0)` -/
  | testUnjoined
  /-- In `pthread_cond_wait()`. -/
  | wait
  /-- The test of the walking loop and of the state of thread `j`. -/
  | scan (j : ℕ)
  /-- In `pthread_join()`. -/
  | join (i : Fin n)
  /-- `state = TS_JOINED` -/
  | mark (i : Fin n)
  /-- The first of the two decrements. -/
  | decFirst (i : Fin n)
  | decSecond (i : Fin n)
  | unlock
  /-- The loop has been left. -/
  | left
  | exited
deriving Repr, DecidableEq

structure State (n : ℕ) where
  monitor : Monitor (Tid n)
  main : MainPc n
  thread : Fin n → ThreadPc
  state : Fin n → TState
  numUnjoined : ℤ
  numLive : ℤ
  freed : Bool
  joinCalls : Fin n → ℕ

variable {n : ℕ}

def State.goto (s : State n) (i : Fin n) (pc : ThreadPc) : State n :=
  { s with thread := Function.update s.thread i pc }

def State.setState (s : State n) (i : Fin n) (st : TState) : State n :=
  { s with state := Function.update s.state i st }

/-- One of the two stores of a thread: the count, or its state. -/
def State.report (s : State n) (i : Fin n) (count : Bool) : State n :=
  if count then { s with numUnjoined := s.numUnjoined + 1 } else s.setState i .terminated

/-- `threadFunc()` and `thrdRoutine()`, one step. -/
def threadFunc (P : Program) (s : State n) (i : Fin n) (chosen : Option (Tid n)) : Option (State n) :=
  match s.thread i with
  | .unborn => none
  | .work => (s.monitor.lock (.thread i)).map fun m => { s with monitor := m }.goto i .first
  | .first => some ((s.report i P.countFirst).goto i .second)
  | .second => some ((s.report i !P.countFirst).goto i .unlock)
  | .unlock => (s.monitor.unlock (.thread i)).map fun m => { s with monitor := m }.goto i .signal
  -- the mutex is free again: main may be in `pthread_join()` for this thread before it signals
  | .signal => (s.monitor.signal chosen).map fun m => { s with monitor := m }.goto i .done
  | .done => none

/-- One of the two decrements of main. -/
def State.draw (s : State n) (live : Bool) : State n :=
  if live then { s with numLive := s.numLive - 1 } else { s with numUnjoined := s.numUnjoined - 1 }

/-- One step of the main thread. -/
def main (P : Program) (s : State n) : Option (State n) :=
  match s.main with
  | .create j =>
    if h : j < n then
      some ((({ s with main := .create (j + 1) }.setState ⟨j, h⟩ .alive)).goto ⟨j, h⟩ .work)
    -- the threads that exist may be running while the counts are set
    else some { s with main := .setLive }
  | .setLive => some { s with numLive := n, main := .test }
  | .test => some { s with main := if 0 < s.numLive then .lock else .left }
  | .lock => (s.monitor.lock .main).map fun m => { s with monitor := m, main := .testUnjoined }
  | .testUnjoined =>
    if s.numUnjoined = 0 then
      (s.monitor.wait .main).map fun m => { s with monitor := m, main := .wait }
    else some { s with main := .scan 0 }
  | .wait => (s.monitor.resume .main).map fun m => { s with monitor := m, main := .testUnjoined }
  | .scan j =>
    if h : j < n then
      if s.state ⟨j, h⟩ = .terminated then
        some { s with
          main := .join ⟨j, h⟩
          joinCalls := Function.update s.joinCalls ⟨j, h⟩ (s.joinCalls ⟨j, h⟩ + 1) }
      else some { s with main := .scan (j + 1) }
    else some { s with main := .unlock }
  -- `pthread_join()` blocks until the thread is done, with the mutex held
  | .join i => if s.thread i = .done then some { s with main := .mark i } else none
  | .mark i => some ({ s with main := .decFirst i }.setState i .joined)
  | .decFirst i => some ({ s with main := .decSecond i }.draw P.liveFirst)
  | .decSecond i => some ({ s with main := .scan (i + 1) }.draw !P.liveFirst)
  | .unlock => (s.monitor.unlock .main).map fun m => { s with monitor := m, main := .test }
  | .left => some { s with freed := P.frees, main := .exited }
  | .exited => none

inductive Act (n : ℕ) where
  | main
  | thread (i : Fin n) (chosen : Option (Tid n))
  /-- A spurious wake-up. -/
  | spurious (t : Tid n)
deriving Repr, DecidableEq

def step (P : Program) (s : State n) : Act n → Option (State n)
  | .main => main P s
  | .thread i chosen => threadFunc P s i chosen
  | .spurious t => (s.monitor.wake t).map fun m => { s with monitor := m }

/-- The array comes from `calloc()`, and `TS_ALIVE` is 0. -/
def State.start (n : ℕ) : State n :=
  { monitor := Monitor.new, main := .create 0, thread := fun _ => .unborn, state := fun _ => .alive,
    numUnjoined := 0, numLive := 0, freed := false, joinCalls := fun _ => 0 }

/-- The program with `n` arguments. -/
def multijoin (P : Program) (n : ℕ) : System (State n) (Act n) where
  init s := s = State.start n
  step := step P

/-! ## The invariant -/

def ThreadPc.holds : ThreadPc → Prop
  | .first | .second | .unlock => True
  | _ => False

def MainPc.holds : MainPc n → Prop
  | .testUnjoined | .scan _ | .join _ | .mark _ | .decFirst _ | .decSecond _ | .unlock => True
  | _ => False

/-- The thread has incremented `numUnjoined`. -/
def ThreadPc.counted (P : Program) : ThreadPc → Bool
  | .second => P.countFirst
  | .unlock | .signal | .done => true
  | _ => false

/-- The thread has set its state. -/
def ThreadPc.marked (P : Program) : ThreadPc → Bool
  | .second => !P.countFirst
  | .unlock | .signal | .done => true
  | _ => false

/-- Between its increment of `numUnjoined` and its `pthread_cond_signal()`. -/
def ThreadPc.Between (P : Program) (pc : ThreadPc) : Prop := pc.counted P = true ∧ pc ≠ .done

/-- What a thread has paid into `numUnjoined`. -/
def ThreadPc.paid (P : Program) (pc : ThreadPc) : ℕ := (pc.counted P).toNat

/-- What main has drawn, or owes, for a thread. -/
def TState.drawn : TState → ℕ
  | .joined => 1
  | _ => 0

/-- Main still owes the decrement of `numUnjoined`. -/
def MainPc.owesUnjoined (P : Program) : MainPc n → ℤ
  | .decFirst _ => 1
  | .decSecond _ => if P.liveFirst then 1 else 0
  | _ => 0

/-- Main still owes the decrement of `numLive`. -/
def MainPc.owesLive (P : Program) : MainPc n → ℤ
  | .decFirst _ => 1
  | .decSecond _ => if P.liveFirst then 0 else 1
  | _ => 0

/-- The number of threads created. -/
def MainPc.created : MainPc n → ℕ
  | .create j => j
  | _ => n

/-- Main has set `numLive`. -/
def MainPc.HasLive : MainPc n → Prop
  | .create _ | .setLive => False
  | _ => True

/-- What is in `numLive`, or will be when main has set it. -/
def MainPc.liveIn (numLive : ℤ) : MainPc n → ℤ
  | .create _ | .setLive => n
  | _ => numLive

/-- The thread that main is about to mark as joined. -/
def MainPc.target : MainPc n → Option (Fin n)
  | .join i | .mark i => some i
  | _ => none

/-- Main has left its loop. -/
def MainPc.Out : MainPc n → Prop
  | .left | .exited => True
  | _ => False

structure Inv (P : Program) (s : State n) : Prop where
  crew : s.monitor.Crew s.main.holds (s.main = .wait) fun i => (s.thread i).holds
  created_le : s.main.created ≤ n
  unborn_iff : ∀ i, s.thread i = .unborn ↔ s.main.created ≤ i
  alive_iff : ∀ i, s.state i = .alive ↔ (s.thread i).marked P = false
  joined_done : ∀ i, s.state i = .joined → s.thread i = .done
  unjoined : s.numUnjoined + (∑ i, (s.state i).drawn : ℕ)
    = (∑ i, (s.thread i).paid P : ℕ) + s.main.owesUnjoined P
  live : s.main.liveIn s.numLive + (∑ i, (s.state i).drawn : ℕ) = n + s.main.owesLive P
  late : ∀ i, s.main.target = some i → s.state i = .terminated
  mark_done : ∀ i, s.main = .mark i → s.thread i = .done
  calls : ∀ i, s.joinCalls i = if s.state i = .joined ∨ s.main.target = some i then 1 else 0
  left : s.main.Out → s.numLive ≤ 0
  /-- No wake-up is lost. -/
  awake : Tid.main ∈ s.monitor.waiting → 0 < s.numUnjoined → ∃ i, (s.thread i).Between P

theorem inv_start (P : Program) (n : ℕ) : Inv P (State.start n) where
  crew := Monitor.Crew.new.keep Iff.rfl nofun fun _ => Iff.rfl
  created_le := Nat.zero_le n
  unborn_iff i := iff_of_true rfl (Nat.zero_le _)
  alive_iff i := iff_of_true rfl rfl
  joined_done i h := nomatch h
  unjoined := by
    simp only [State.start, TState.drawn, ThreadPc.paid, ThreadPc.counted, MainPc.owesUnjoined,
      Bool.toNat_false, Finset.sum_const_zero]
    rfl
  live := by
    simp only [State.start, TState.drawn, MainPc.liveIn, MainPc.owesLive, Finset.sum_const_zero]
    rfl
  late i h := nomatch h
  mark_done i h := nomatch h
  calls i := by simp only [State.start, MainPc.target, reduceCtorEq, or_self, if_false]
  left := False.elim
  awake := nofun

/-! ## The threads -/

theorem goto_self (s : State n) (i : Fin n) (pc : ThreadPc) : (s.goto i pc).thread i = pc :=
  Function.update_self ..

theorem goto_of_ne (s : State n) {i j : Fin n} (pc : ThreadPc) (h : j ≠ i) :
    (s.goto i pc).thread j = s.thread j := Function.update_of_ne h ..

theorem holds_goto_of_ne {s : State n} {i : Fin n} {pc : ThreadPc} (j : Fin n) (h : j ≠ i) :
    ((s.goto i pc).thread j).holds ↔ (s.thread j).holds := update_iff_of_ne j h

/-- A thread that stays on its side of the mutex. -/
theorem holds_goto {s : State n} {i : Fin n} {pc : ThreadPc}
    (hsame : pc.holds ↔ (s.thread i).holds) (j : Fin n) :
    ((s.goto i pc).thread j).holds ↔ (s.thread j).holds := update_iff hsame j

/-- What a step of a thread has to leave in place: everything else follows. Its entry in the
array becomes `st`, and it pays `u - numUnjoined` in. -/
theorem Inv.of_goto {P : Program} {s : State n} (h : Inv P s) {i : Fin n} {pc₀ pc : ThreadPc}
    (hpc₀ : s.thread i = pc₀) {m : Monitor (Tid n)} {sts : Fin n → TState} {st : TState} {u : ℤ}
    (hsts : sts = Function.update s.state i st) (hborn : pc₀ ≠ .unborn)
    (hdone : pc₀ ≠ .done) (hpc : pc ≠ .unborn) (hst : st ≠ .joined)
    (halive : st = .alive ↔ pc.marked P = false) (htarget : s.main.target ≠ some i ∨ st = s.state i)
    (hpaid : u + pc₀.paid P = s.numUnjoined + pc.paid P)
    (hcrew : m.Crew s.main.holds (s.main = .wait) fun j => ((s.goto i pc).thread j).holds)
    (hawake : Tid.main ∈ m.waiting → 0 < u → ∃ j, (Function.update s.thread i pc j).Between P) :
    Inv P ({ s with monitor := m, state := sts, numUnjoined := u }.goto i pc) := by
  subst hsts hpc₀
  have hnot : s.state i ≠ .joined := fun hj => hdone (h.joined_done i hj)
  -- no thread is drawn for that was not before
  have hdrawn : ∑ j, (Function.update s.state i st j).drawn = ∑ j, (s.state j).drawn := by
    have hsum := sum_update (fun _ st => TState.drawn st) s.state i st
    have h0 : ∀ st : TState, st ≠ .joined → st.drawn = 0 := by
      intro st hne
      cases st with
      | joined => exact absurd rfl hne
      | _ => rfl
    rw [h0 _ hnot, h0 _ hst] at hsum
    exact hsum
  have hpaidAll := sum_update (fun _ pc => ThreadPc.paid P pc) s.thread i pc
  refine ⟨hcrew, h.created_le, fun j => ?_, fun j => ?_, fun j hj => ?_, ?_, ?_, fun j hj => ?_,
    fun j hj => ?_, fun j => ?_, h.left, hawake⟩
  · refine Iff.trans ?_ (h.unborn_iff j)
    by_cases hji : j = i
    · subst hji
      exact iff_of_false (by rw [goto_self]; exact hpc) hborn
    · rw [goto_of_ne _ pc hji]
  · by_cases hji : j = i
    · subst hji
      rw [goto_self]
      simp only [State.goto, Function.update_self]
      exact halive
    · rw [goto_of_ne _ pc hji]
      simp only [State.goto, Function.update_of_ne hji]
      exact h.alive_iff j
  · by_cases hji : j = i
    · subst hji
      simp only [State.goto, Function.update_self] at hj
      exact absurd hj hst
    · rw [goto_of_ne _ pc hji]
      simp only [State.goto, Function.update_of_ne hji] at hj
      exact h.joined_done j hj
  · have := h.unjoined
    simp only [State.goto, hdrawn]
    omega
  · have := h.live
    simp only [State.goto, hdrawn]
    exact this
  · have hlate := h.late j hj
    by_cases hji : j = i
    · subst hji
      simp only [State.goto, Function.update_self]
      rw [htarget.resolve_left fun hne => hne hj]
      exact hlate
    · simp only [State.goto, Function.update_of_ne hji]
      exact hlate
  · have hd := h.mark_done j hj
    have hji : j ≠ i := fun he => hdone (he ▸ hd)
    rw [goto_of_ne _ pc hji]
    exact hd
  · have hcalls := h.calls j
    by_cases hji : j = i
    · subst hji
      simp only [State.goto, Function.update_self, hst, false_or]
      simp only [hnot, false_or] at hcalls
      exact hcalls
    · simp only [State.goto, Function.update_of_ne hji]
      exact hcalls

theorem ThreadPc.holds_ne {pc : ThreadPc} (h : pc.holds) : pc ≠ .unborn ∧ pc ≠ .done := by
  refine ⟨?_, ?_⟩
  · rintro rfl
    exact h
  · rintro rfl
    exact h

/-- A step of a thread that leaves its entry in the array alone. -/
theorem Inv.thread_goes_on {P : Program} {s : State n} (h : Inv P s) {i : Fin n} {pc₀ pc : ThreadPc}
    (hpc₀ : s.thread i = pc₀) {m : Monitor (Tid n)} {u : ℤ} (hborn : pc₀ ≠ .unborn)
    (hdone : pc₀ ≠ .done) (hpc : pc ≠ .unborn) (hmarked : pc.marked P = pc₀.marked P)
    (hpaid : u + pc₀.paid P = s.numUnjoined + pc.paid P)
    (hcrew : m.Crew s.main.holds (s.main = .wait) fun j => ((s.goto i pc).thread j).holds)
    (hawake : Tid.main ∈ m.waiting → 0 < u → ∃ j, (Function.update s.thread i pc j).Between P) :
    Inv P ({ s with monitor := m, numUnjoined := u }.goto i pc) := by
  have hnot : s.state i ≠ .joined := fun hj => hdone (hpc₀ ▸ h.joined_done i hj)
  have halive : s.state i = .alive ↔ pc.marked P = false := by
    rw [h.alive_iff i, hpc₀, hmarked]
  exact h.of_goto hpc₀ (Function.update_eq_self i s.state).symm hborn hdone hpc hnot halive
    (Or.inr rfl) hpaid hcrew hawake

/-- The store of the count, by the holder of the mutex. -/
theorem Inv.report_count {P : Program} {s : State n} (h : Inv P s) {i : Fin n} {pc₀ pc : ThreadPc}
    (hpc₀ : s.thread i = pc₀) (hholds : pc₀.holds) (hpc : pc.holds)
    (hbefore : pc₀.counted P = false) (hafter : pc.counted P = true)
    (hmarked : pc.marked P = pc₀.marked P) : Inv P ((s.report i true).goto i pc) := by
  refine h.thread_goes_on hpc₀ (ThreadPc.holds_ne hholds).1 (ThreadPc.holds_ne hholds).2
    (ThreadPc.holds_ne hpc).1 hmarked ?_ ?_ ?_
  · simp only [ThreadPc.paid, hbefore, hafter, Bool.toNat_true, Bool.toNat_false]
    omega
  · exact h.crew.keep Iff.rfl id (holds_goto (iff_of_true hpc (hpc₀ ▸ hholds)))
  · exact fun _ _ => exists_update_self ⟨hafter, (ThreadPc.holds_ne hpc).2⟩

/-- The store of the state, by the holder of the mutex. -/
theorem Inv.report_state {P : Program} {s : State n} (h : Inv P s) {i : Fin n} {pc₀ pc : ThreadPc}
    (hpc₀ : s.thread i = pc₀) (hholds : pc₀.holds) (hpc : pc.holds) (hmarked : pc.marked P = true)
    (hcounted : pc.counted P = pc₀.counted P) : Inv P ((s.report i false).goto i pc) := by
  subst hpc₀
  refine h.of_goto rfl rfl (ThreadPc.holds_ne hholds).1
    (ThreadPc.holds_ne hholds).2 (ThreadPc.holds_ne hpc).1 nofun ?_ (Or.inl fun ht => ?_) ?_ ?_
    fun hw hu => exists_update (fun hb => ⟨hcounted.trans hb.1, (ThreadPc.holds_ne hpc).2⟩) (h.awake hw hu)
  · rw [hmarked]
    exact iff_of_false nofun nofun
  · -- main has a target only while it holds the mutex itself
    have hmain : s.main.holds := by
      cases hm : s.main with
      | join j => trivial
      | mark j => trivial
      | _ => rw [hm] at ht; exact nomatch ht
    exact h.crew.main_alone hmain i hholds
  · simp only [ThreadPc.paid, hcounted]
  · exact h.crew.keep Iff.rfl id (holds_goto (iff_of_true hpc hholds))

theorem Inv.threadFunc {P : Program} {s s' : State n} (h : Inv P s) {i : Fin n}
    {chosen : Option (Tid n)} (hs : threadFunc P s i chosen = some s') : Inv P s' := by
  unfold ThreadMultijoin.threadFunc at hs
  cases hpc : s.thread i with
  | unborn => simp only [hpc, reduceCtorEq] at hs
  | work =>
    simp only [hpc, Option.map_eq_some_iff] at hs
    obtain ⟨m, hm, rfl⟩ := hs
    have hself : ((s.goto i .first).thread i).holds := by rw [goto_self]; trivial
    obtain ⟨hwait, hcrew⟩ := h.crew.thread_lock hm hself holds_goto_of_ne
    refine h.thread_goes_on hpc nofun nofun nofun rfl rfl hcrew fun hw hu => ?_
    rw [hwait] at hw
    exact exists_update (fun hb => absurd hb.1 (by rw [hpc]; exact Bool.false_ne_true)) (h.awake hw hu)
  | first =>
    simp only [hpc, Option.some.injEq] at hs
    subst hs
    cases hP : P.countFirst with
    | true => exact h.report_count hpc trivial trivial rfl hP (congrArg not hP)
    | false => exact h.report_state hpc trivial trivial (congrArg not hP) hP
  | second =>
    -- the other store
    simp only [hpc, Option.some.injEq] at hs
    subst hs
    cases hP : P.countFirst with
    | true => exact h.report_state hpc trivial trivial rfl hP.symm
    | false => exact h.report_count hpc trivial trivial hP rfl (congrArg not hP).symm
  | unlock =>
    simp only [hpc, Option.map_eq_some_iff] at hs
    obtain ⟨m, hm, rfl⟩ := hs
    have hself : ¬((s.goto i .signal).thread i).holds := by rw [goto_self]; exact id
    obtain ⟨-, hcrew⟩ := h.crew.thread_unlock hm hself holds_goto_of_ne
    exact h.thread_goes_on hpc nofun nofun nofun rfl rfl hcrew fun _ _ => exists_update_self ⟨rfl, nofun⟩
  | signal =>
    simp only [hpc, Option.map_eq_some_iff] at hs
    obtain ⟨m, hm, rfl⟩ := hs
    -- main may have something to join, but it does not sleep
    obtain ⟨hwake, hcrew⟩ := h.crew.signal hm
    have hholds : ThreadPc.done.holds ↔ (s.thread i).holds := by
      rw [hpc]
      exact Iff.rfl
    exact h.thread_goes_on hpc nofun nofun nofun rfl rfl
      (hcrew.keep Iff.rfl id (holds_goto hholds)) fun hw => absurd hw hwake
  | done => simp only [hpc, reduceCtorEq] at hs

/-! ## The main thread -/

/-- What a step of main that leaves the array alone has to leave in place. -/
theorem Inv.of_main {P : Program} {s : State n} (h : Inv P s) {pc₀ pc : MainPc n}
    (hpc₀ : s.main = pc₀) {m : Monitor (Tid n)} {u l : ℤ} {f : Bool} {c : Fin n → ℕ}
    (hcreated : pc.created = pc₀.created)
    (hcrew : m.Crew pc.holds (pc = .wait) fun i => (s.thread i).holds)
    (hu : u + pc₀.owesUnjoined P = s.numUnjoined + pc.owesUnjoined P)
    (hl : pc.liveIn l + pc₀.owesLive P = pc₀.liveIn s.numLive + pc.owesLive P)
    (hlate : ∀ i, pc.target = some i → s.state i = .terminated)
    (hmark : ∀ i, pc = .mark i → s.thread i = .done)
    (hcalls : ∀ i, c i = if s.state i = .joined ∨ pc.target = some i then 1 else 0)
    (hleft : pc.Out → l ≤ 0)
    (hawake : Tid.main ∈ m.waiting → 0 < u → ∃ i, (s.thread i).Between P) :
    Inv P { s with
      monitor := m, main := pc, numUnjoined := u, numLive := l, freed := f, joinCalls := c } := by
  subst hpc₀
  have hunjoined := h.unjoined
  have hlive := h.live
  refine ⟨hcrew, ?_, fun i => ?_, h.alive_iff, h.joined_done, ?_, ?_, hlate, hmark, hcalls, hleft,
    hawake⟩
  · simp only [hcreated]
    exact h.created_le
  · rw [h.unborn_iff i, ← hcreated]
  · simp only
    omega
  · simp only
    omega

/-- A step of main that makes no call on the monitor. -/
theorem Inv.crew_keep {P : Program} {s : State n} (h : Inv P s) {pc₀ pc : MainPc n}
    (hpc₀ : s.main = pc₀) (hwait : pc₀ ≠ .wait) (hholds : pc.holds ↔ pc₀.holds) :
    s.monitor.Crew pc.holds (pc = .wait) fun i => (s.thread i).holds := by
  subst hpc₀
  exact h.crew.keep hholds (absurd · hwait) fun _ => Iff.rfl

theorem Inv.not_waiting {P : Program} {s : State n} (h : Inv P s) {pc₀ : MainPc n}
    (hpc₀ : s.main = pc₀) (hwait : pc₀ ≠ .wait) : Tid.main ∉ s.monitor.waiting :=
  h.crew.main_not_waiting (hpc₀ ▸ hwait)

/-- While the target is the same, so are the calls of `pthread_join()`. -/
theorem Inv.calls_of_target {P : Program} {s : State n} (h : Inv P s) {pc₀ pc : MainPc n}
    (hpc₀ : s.main = pc₀) (htarget : pc.target = pc₀.target) (i : Fin n) :
    s.joinCalls i = if s.state i = .joined ∨ pc.target = some i then 1 else 0 := by
  rw [htarget, ← hpc₀]
  exact h.calls i

/-- A step of main that only goes on, without a target before or after. -/
theorem Inv.of_goto_main {P : Program} {s : State n} (h : Inv P s) {pc₀ pc : MainPc n}
    (hpc₀ : s.main = pc₀) {m : Monitor (Tid n)} {u l : ℤ} {f : Bool}
    (hcreated : pc.created = pc₀.created)
    (hcrew : m.Crew pc.holds (pc = .wait) fun i => (s.thread i).holds)
    (hu : u + pc₀.owesUnjoined P = s.numUnjoined + pc.owesUnjoined P)
    (hl : pc.liveIn l + pc₀.owesLive P = pc₀.liveIn s.numLive + pc.owesLive P)
    (htarget : pc₀.target = none ∧ pc.target = none) (hleft : pc.Out → l ≤ 0)
    (hawake : Tid.main ∈ m.waiting → 0 < u → ∃ i, (s.thread i).Between P) :
    Inv P { s with monitor := m, main := pc, numUnjoined := u, numLive := l, freed := f } := by
  refine h.of_main hpc₀ hcreated hcrew hu hl (fun i hi => ?_) (fun i hi => ?_)
    (h.calls_of_target hpc₀ (htarget.2.trans htarget.1.symm)) hleft hawake
  · rw [htarget.2] at hi
    exact nomatch hi
  · rw [hi] at htarget
    exact nomatch htarget.2

/-- The same without a call on the monitor. -/
theorem Inv.goes_on {P : Program} {s : State n} (h : Inv P s) {pc₀ pc : MainPc n}
    (hpc₀ : s.main = pc₀) {l : ℤ} {f : Bool} (hcreated : pc.created = pc₀.created)
    (hwait : pc₀ ≠ .wait) (hholds : pc.holds ↔ pc₀.holds)
    (hu : pc.owesUnjoined P = pc₀.owesUnjoined P)
    (hl : pc.liveIn l + pc₀.owesLive P = pc₀.liveIn s.numLive + pc.owesLive P)
    (htarget : pc₀.target = none ∧ pc.target = none) (hleft : pc.Out → l ≤ 0) :
    Inv P { s with main := pc, numLive := l, freed := f } :=
  h.of_goto_main hpc₀ hcreated (h.crew_keep hpc₀ hwait hholds) (by rw [hu]) hl htarget hleft h.awake

/-- One of the two decrements, by main with the mutex held. -/
theorem Inv.draw {P : Program} {s : State n} (h : Inv P s) {pc₀ pc : MainPc n} {live : Bool}
    (hpc₀ : s.main = pc₀) (hcreated : pc.created = pc₀.created) (hwait : pc₀ ≠ .wait)
    (hholds : pc.holds ↔ pc₀.holds) (htarget : pc₀.target = none ∧ pc.target = none)
    (hin : ∀ l, pc₀.liveIn l = l ∧ pc.liveIn l = l) (hout : ¬pc.Out)
    (hu : pc₀.owesUnjoined P = pc.owesUnjoined P + if live then 0 else 1)
    (hl : pc₀.owesLive P = pc.owesLive P + if live then 1 else 0) :
    Inv P ({ s with main := pc }.draw live) := by
  have hcrew := h.crew_keep hpc₀ hwait hholds
  have hnot := h.not_waiting hpc₀ hwait
  unfold State.draw
  cases live with
  | true =>
    simp only [if_true] at hu hl
    refine h.of_goto_main hpc₀ hcreated hcrew ?_ ?_ htarget (absurd · hout) fun hw => absurd hw hnot
    · simp only
      omega
    · rw [(hin _).1, (hin _).2, hl]
      simp only
      omega
  | false =>
    simp only [Bool.false_eq_true, if_false] at hu hl
    refine h.of_goto_main hpc₀ hcreated hcrew ?_ ?_ htarget (absurd · hout) fun hw => absurd hw hnot
    · rw [hu]
      simp only
      omega
    · rw [(hin _).1, (hin _).2, hl, Int.add_zero]

theorem Inv.create {P : Program} {s : State n} (h : Inv P s) {j : ℕ} (hpc : s.main = .create j)
    (hj : j < n) :
    Inv P (({ s with main := .create (j + 1) }.setState ⟨j, hj⟩ .alive).goto ⟨j, hj⟩ .work) := by
  have hnot := h.not_waiting hpc nofun
  have hunborn : s.thread ⟨j, hj⟩ = .unborn := (h.unborn_iff _).mpr (by rw [hpc]; exact le_rfl)
  have halive : s.state ⟨j, hj⟩ = .alive := (h.alive_iff _).mpr (by rw [hunborn]; rfl)
  -- `calloc()` has already made the state what it is set to
  have hstate : Function.update s.state ⟨j, hj⟩ .alive = s.state := by
    rw [← halive, Function.update_eq_self]
  have hpaid := sum_update (fun _ pc => ThreadPc.paid P pc) s.thread ⟨j, hj⟩ .work
  rw [hunborn] at hpaid
  have hgoto : ∀ i, (Function.update s.thread ⟨j, hj⟩ .work i = .unborn ↔ j + 1 ≤ (i : ℕ)) ∧
      (s.state i = .alive ↔ (Function.update s.thread ⟨j, hj⟩ .work i).marked P = false) ∧
      (s.state i = .joined → Function.update s.thread ⟨j, hj⟩ .work i = .done) := by
    intro i
    by_cases hi : i = ⟨j, hj⟩
    · subst hi
      rw [Function.update_self, halive]
      exact ⟨iff_of_false nofun (by simp), iff_of_true rfl rfl, nofun⟩
    · have hne : (i : ℕ) ≠ j := fun he => hi (Fin.ext he)
      rw [Function.update_of_ne hi, h.unborn_iff i, hpc]
      exact ⟨by simp only [MainPc.created]; omega, h.alive_iff i, h.joined_done i⟩
  have hunjoined := h.unjoined
  have hlive := h.live
  have hcalls := h.calls
  rw [hpc] at hunjoined hlive
  simp only [hpc] at hcalls
  have hsame : ThreadPc.work.holds ↔ (s.thread ⟨j, hj⟩).holds := by
    rw [hunborn]
    exact Iff.rfl
  constructor
  · have hcrew : s.monitor.Crew (MainPc.create (n := n) (j + 1)).holds
        (MainPc.create (n := n) (j + 1) = .wait) fun i => (s.thread i).holds :=
      h.crew_keep hpc nofun Iff.rfl
    exact hcrew.keep Iff.rfl id (holds_goto hsame)
  · exact hj
  · exact fun i => (hgoto i).1
  · intro i
    simp only [State.goto, State.setState, hstate]
    exact (hgoto i).2.1
  · intro i
    simp only [State.goto, State.setState, hstate]
    exact (hgoto i).2.2
  · simp only [State.goto, State.setState, hstate]
    exact hunjoined.trans (congrArg (fun k : ℕ => (k : ℤ) + 0) hpaid.symm)
  · simp only [State.goto, State.setState, hstate]
    exact hlive
  · exact fun i hi => nomatch hi
  · exact fun i hi => nomatch hi
  · intro i
    simp only [State.goto, State.setState, hstate]
    exact hcalls i
  · exact False.elim
  · exact fun hw => absurd hw hnot

/-- Main marks a thread that it has joined. -/
theorem Inv.mark {P : Program} {s : State n} (h : Inv P s) {i : Fin n} (hpc : s.main = .mark i) :
    Inv P ({ s with main := .decFirst i }.setState i .joined) := by
  have hnot := h.not_waiting hpc nofun
  have hterm : s.state i = .terminated := h.late i (by rw [hpc]; rfl)
  have hdone := h.mark_done i hpc
  -- one more thread is drawn, and main owes both counters one for it
  have hdrawn := sum_update (fun _ st => TState.drawn st) s.state i .joined
  rw [hterm] at hdrawn
  simp only [TState.drawn, Nat.add_zero] at hdrawn
  have hunjoined := h.unjoined
  have hlive := h.live
  simp only [hpc, MainPc.owesUnjoined, MainPc.owesLive, MainPc.liveIn, TState.drawn] at hunjoined hlive
  constructor
  · exact h.crew_keep hpc nofun Iff.rfl
  · exact le_rfl
  · intro j
    refine Iff.trans (h.unborn_iff j) ?_
    rw [hpc]
    exact Iff.rfl
  · intro j
    by_cases hj : j = i
    · subst hj
      simp only [State.setState, Function.update_self, hdone]
      exact iff_of_false nofun nofun
    · simp only [State.setState, Function.update_of_ne hj]
      exact h.alive_iff j
  · intro j
    by_cases hj : j = i
    · subst hj
      exact fun _ => hdone
    · simp only [State.setState, Function.update_of_ne hj]
      exact h.joined_done j
  · simp only [State.setState, MainPc.owesUnjoined, TState.drawn]
    omega
  · simp only [State.setState, MainPc.owesLive, MainPc.liveIn, TState.drawn]
    omega
  · exact fun j hj => nomatch hj
  · exact fun j hj => nomatch hj
  · intro j
    have hcalls := h.calls j
    simp only [hpc, MainPc.target, Option.some.injEq] at hcalls
    by_cases hj : j = i
    · subst hj
      simpa [State.setState] using hcalls
    · simpa [State.setState, MainPc.target, Function.update_of_ne hj, Ne.symm hj] using hcalls
  · exact False.elim
  · exact fun hw => absurd hw hnot

/-- Main calls `pthread_join()` on a thread that it finds terminated. -/
theorem Inv.call_join {P : Program} {s : State n} (h : Inv P s) {j : ℕ} (hpc : s.main = .scan j)
    (hj : j < n) (hterm : s.state ⟨j, hj⟩ = .terminated) :
    Inv P { s with
      main := .join ⟨j, hj⟩
      joinCalls := Function.update s.joinCalls ⟨j, hj⟩ (s.joinCalls ⟨j, hj⟩ + 1) } := by
  refine h.of_main hpc rfl (h.crew_keep hpc nofun Iff.rfl) rfl rfl (fun i hi => ?_)
    (fun i hi => nomatch hi) (fun i => ?_) False.elim h.awake
  · rw [← Option.some.inj hi]
    exact hterm
  · have hcalls := h.calls i
    simp only [hpc, MainPc.target, reduceCtorEq, or_false] at hcalls
    by_cases hi : i = ⟨j, hj⟩
    · subst hi
      simp only [hterm, reduceCtorEq, if_false] at hcalls
      simp [hcalls, MainPc.target]
    · simp [Function.update_of_ne hi, hcalls, MainPc.target, Ne.symm hi]

theorem Inv.main {P : Program} {s s' : State n} (h : Inv P s) (hs : main P s = some s') :
    Inv P s' := by
  unfold ThreadMultijoin.main at hs
  cases hpc : s.main with
  | create j =>
    simp only [hpc] at hs
    split at hs
    · rename_i hj
      rw [Option.some.injEq] at hs
      exact hs ▸ h.create hpc hj
    · rw [Option.some.injEq] at hs
      subst hs
      have hlast : j = n := by
        have := h.created_le
        rw [hpc] at this
        simp only [MainPc.created] at this
        omega
      exact h.goes_on hpc hlast.symm nofun Iff.rfl rfl rfl ⟨rfl, rfl⟩ False.elim
  | setLive =>
    simp only [hpc, Option.some.injEq] at hs
    subst hs
    exact h.goes_on hpc rfl nofun Iff.rfl rfl rfl ⟨rfl, rfl⟩ False.elim
  | test =>
    simp only [hpc, Option.some.injEq] at hs
    subst hs
    by_cases hpos : 0 < s.numLive
    · rw [if_pos hpos]
      exact h.goes_on hpc rfl nofun Iff.rfl rfl rfl ⟨rfl, rfl⟩ False.elim
    · rw [if_neg hpos]
      exact h.goes_on hpc rfl nofun Iff.rfl rfl rfl ⟨rfl, rfl⟩ fun _ => Int.not_lt.mp hpos
  | lock =>
    simp only [hpc, Option.map_eq_some_iff] at hs
    obtain ⟨m, hm, rfl⟩ := hs
    obtain ⟨hsame, hcrew⟩ :=
      h.crew.main_lock hm (show (MainPc.testUnjoined (n := n)).holds from trivial)
        fun hw => nomatch hpc.symm.trans hw
    exact h.of_goto_main hpc rfl hcrew rfl rfl ⟨rfl, rfl⟩ False.elim (by rw [hsame]; exact h.awake)
  | testUnjoined =>
    simp only [hpc] at hs
    by_cases hzero : s.numUnjoined = 0
    · rw [if_pos hzero, Option.map_eq_some_iff] at hs
      obtain ⟨m, hm, rfl⟩ := hs
      have hcrew := h.crew.main_wait hm (show ¬(MainPc.wait (n := n)).holds from id)
        (Eq.refl (MainPc.wait (n := n)))
      refine h.of_goto_main hpc rfl hcrew rfl rfl ⟨rfl, rfl⟩ False.elim fun _ hu => ?_
      -- main goes to sleep with nothing to join
      omega
    · rw [if_neg hzero, Option.some.injEq] at hs
      subst hs
      exact h.goes_on hpc rfl nofun Iff.rfl rfl rfl ⟨rfl, rfl⟩ False.elim
  | wait =>
    simp only [hpc, Option.map_eq_some_iff] at hs
    obtain ⟨m, hm, rfl⟩ := hs
    obtain ⟨hnot, hcrew⟩ :=
      h.crew.main_resume hm (show (MainPc.testUnjoined (n := n)).holds from trivial)
    exact h.of_goto_main hpc rfl hcrew rfl rfl ⟨rfl, rfl⟩ False.elim fun hw => absurd hw hnot
  | scan j =>
    simp only [hpc] at hs
    split at hs
    · rename_i hj
      split at hs
      · rename_i hterm
        rw [Option.some.injEq] at hs
        exact hs ▸ h.call_join hpc hj hterm
      · rw [Option.some.injEq] at hs
        subst hs
        exact h.goes_on hpc rfl nofun Iff.rfl rfl rfl ⟨rfl, rfl⟩ False.elim
    · rw [Option.some.injEq] at hs
      subst hs
      exact h.goes_on hpc rfl nofun Iff.rfl rfl rfl ⟨rfl, rfl⟩ False.elim
  | join i =>
    simp only [hpc] at hs
    split at hs
    · rename_i hdone
      rw [Option.some.injEq] at hs
      subst hs
      have hlate := h.late
      rw [hpc] at hlate
      -- the target stays the target until it is marked
      refine h.of_main hpc rfl (h.crew_keep hpc nofun Iff.rfl) rfl rfl hlate (fun k hk => ?_)
        (h.calls_of_target hpc rfl) False.elim h.awake
      rw [← MainPc.mark.inj hk]
      exact hdone
    · exact nomatch hs
  | mark i =>
    simp only [hpc, Option.some.injEq] at hs
    exact hs ▸ h.mark hpc
  | decFirst i =>
    simp only [hpc, Option.some.injEq] at hs
    subst hs
    refine h.draw hpc rfl nofun Iff.rfl ⟨rfl, rfl⟩ (fun _ => ⟨rfl, rfl⟩) id ?_ ?_
    · cases hP : P.liveFirst <;> simp [MainPc.owesUnjoined, hP]
    · cases hP : P.liveFirst <;> simp [MainPc.owesLive, hP]
  | decSecond i =>
    simp only [hpc, Option.some.injEq] at hs
    subst hs
    refine h.draw hpc rfl nofun Iff.rfl ⟨rfl, rfl⟩ (fun _ => ⟨rfl, rfl⟩) id ?_ ?_
    · cases hP : P.liveFirst <;> simp [MainPc.owesUnjoined, hP]
    · cases hP : P.liveFirst <;> simp [MainPc.owesLive, hP]
  | unlock =>
    simp only [hpc, Option.map_eq_some_iff] at hs
    obtain ⟨m, hm, rfl⟩ := hs
    obtain ⟨hsame, hcrew⟩ :=
      h.crew.main_unlock hm (show ¬(MainPc.test (n := n)).holds from id)
        fun hw => nomatch hpc.symm.trans hw
    exact h.of_goto_main hpc rfl hcrew rfl rfl ⟨rfl, rfl⟩ False.elim (by rw [hsame]; exact h.awake)
  | left =>
    simp only [hpc, Option.some.injEq] at hs
    subst hs
    exact h.goes_on hpc rfl nofun Iff.rfl rfl rfl ⟨rfl, rfl⟩ fun _ => h.left (by rw [hpc]; trivial)
  | exited => simp only [hpc, reduceCtorEq] at hs

theorem inv_of_reachable {P : Program} {s : State n} (hs : Reachable (multijoin P n) s) :
    Inv P s := by
  refine hs.invariant (fun s h => ?_) fun s a s' h _ hstep => ?_
  · rw [show s = State.start n from h]
    exact inv_start P n
  · cases a with
    | main => exact h.main hstep
    | thread i chosen => exact h.threadFunc hstep
    | spurious t =>
      simp only [multijoin, step, Option.map_eq_some_iff] at hstep
      obtain ⟨m, hm, rfl⟩ := hstep
      obtain ⟨hsub, hcrew⟩ := h.crew.wake hm
      exact { h with crew := hcrew, awake := fun hw => h.awake (hsub _ hw) }

/-! ## What holds in every run -/

/-- Past its critical section: what is left to do is a signal and the return. -/
def ThreadPc.Past : ThreadPc → Prop
  | .signal | .done => True
  | _ => False

/-- A thread that main is about to join is past its critical section. -/
theorem Inv.past {P : Program} {s : State n} (h : Inv P s) {i : Fin n} (hpc : s.main = .join i) :
    (s.thread i).Past := by
  have hterm := h.late i (by rw [hpc]; rfl)
  -- its state says so, and only a thread that holds the mutex could be in between
  have hmarked : (s.thread i).marked P ≠ false := fun hm => by
    rw [(h.alive_iff i).mpr hm] at hterm
    exact nomatch hterm
  have hnot := h.crew.main_alone (by rw [hpc]; trivial) i
  cases ht : s.thread i with
  | unborn => rw [ht] at hmarked; exact absurd rfl hmarked
  | work => rw [ht] at hmarked; exact absurd rfl hmarked
  | first => rw [ht] at hmarked; exact absurd rfl hmarked
  | second => rw [ht] at hnot; exact absurd trivial hnot
  | unlock => rw [ht] at hnot; exact absurd trivial hnot
  | signal => trivial
  | done => trivial

/-- With nobody in the middle of anything, the states tell what has been paid and drawn. -/
theorem Inv.accounts {P : Program} {s : State n} (h : Inv P s) (hfree : s.monitor.owner = none) :
    s.numUnjoined = (Finset.univ.filter fun i => s.state i = .terminated).card ∧
      (s.main.HasLive → s.numLive = (Finset.univ.filter fun i => s.state i ≠ .joined).card) := by
  obtain ⟨hmain, hthreads⟩ := h.crew.free hfree
  -- the main thread owes something only at its two decrements, where it holds the mutex
  have howes : s.main.owesUnjoined P = 0 ∧ s.main.owesLive P = 0 := by
    cases hm : s.main with
    | decFirst i => rw [hm] at hmain; exact absurd trivial hmain
    | decSecond i => rw [hm] at hmain; exact absurd trivial hmain
    | _ => exact ⟨rfl, rfl⟩
  have hunjoined := h.unjoined
  have hlive := h.live
  rw [howes.1] at hunjoined
  rw [howes.2] at hlive
  constructor
  · -- a thread outside its critical section has paid exactly if its state is set
    have hpaid : ∀ i, (s.thread i).paid P
        = (s.state i).drawn + if s.state i = .terminated then 1 else 0 := by
      intro i
      have hcount : (s.thread i).counted P = (s.thread i).marked P := by
        have hnot := hthreads i
        cases ht : s.thread i with
        | second => rw [ht] at hnot; exact absurd trivial hnot
        | _ => rfl
      have hstate := h.alive_iff i
      rw [ThreadPc.paid, hcount]
      cases hst : s.state i with
      | alive => rw [hstate.mp hst]; rfl
      | terminated =>
        rw [hst] at hstate
        rw [Bool.eq_true_of_not_eq_false fun hf => nomatch hstate.mpr hf]
        rfl
      | joined =>
        rw [hst] at hstate
        rw [Bool.eq_true_of_not_eq_false fun hf => nomatch hstate.mpr hf]
        rfl
    simp only [hpaid, Finset.sum_add_distrib, ← Finset.card_filter] at hunjoined
    omega
  · intro hhas
    have hin : s.main.liveIn s.numLive = s.numLive := by
      cases hm : s.main with
      | create j => rw [hm] at hhas; exact hhas.elim
      | setLive => rw [hm] at hhas; exact hhas.elim
      | _ => rfl
    have hdrawn : ∑ i, (s.state i).drawn = (Finset.univ.filter fun i => s.state i = .joined).card := by
      rw [Finset.card_filter]
      refine Finset.sum_congr rfl fun i _ => ?_
      cases s.state i with
      | joined => rfl
      | _ => rfl
    -- the threads that are not joined are all but those that are
    have hall := Finset.card_filter_add_card_filter_not (s := (Finset.univ : Finset (Fin n)))
      fun i => s.state i = .joined
    rw [Finset.card_univ, Fintype.card_fin] at hall
    rw [hin, hdrawn] at hlive
    simp only [ne_eq]
    omega

/-- Out of the loop, main has drawn for every thread. -/
theorem Inv.all_joined {P : Program} {s : State n} (h : Inv P s) (hout : s.main.Out) (i : Fin n) :
    s.state i = .joined := by
  have hleft := h.left hout
  have hlive := h.live
  have hmain : s.main.liveIn s.numLive = s.numLive ∧ s.main.owesLive P = 0 := by
    cases hm : s.main with
    | left => exact ⟨rfl, rfl⟩
    | exited => exact ⟨rfl, rfl⟩
    | _ => rw [hm] at hout; exact hout.elim
  rw [hmain.1, hmain.2] at hlive
  by_contra hne
  -- one thread short of `n`
  have hlt : ∑ i, (s.state i).drawn < ∑ _i : Fin n, 1 := by
    refine Finset.sum_lt_sum (fun j _ => ?_) ⟨i, Finset.mem_univ i, ?_⟩
    · cases s.state j <;> decide
    · cases hst : s.state i with
      | joined => exact absurd hst hne
      | _ => decide
  rw [Finset.sum_const, Finset.card_univ, Fintype.card_fin, Nat.nsmul_eq_mul, Nat.mul_one] at hlt
  omega

/-- What a program promises in a state. -/
structure Sound (P : Program) (s : State n) : Prop where
  unjoined : s.monitor.owner = none →
    s.numUnjoined = (Finset.univ.filter fun i => s.state i = .terminated).card
  live : s.monitor.owner = none → s.main.HasLive →
    s.numLive = (Finset.univ.filter fun i => s.state i ≠ .joined).card
  join_once : ∀ i, s.joinCalls i ≤ 1
  /-- Joining with the mutex held is safe: the thread needs no mutex any more, and its next
  step is its last and is not blocked. -/
  join_past : ∀ i, s.main = .join i → (s.thread i).Past ∧
    (s.thread i ≠ .done → ∃ chosen s', step P s (.thread i chosen) = some s' ∧ s'.thread i = .done)
  /-- No wake-up is lost. -/
  awake : Tid.main ∈ s.monitor.waiting → 0 < s.numUnjoined → ∃ i, (s.thread i).Between P
  left : s.main.Out → ∀ i, s.state i = .joined ∧ s.joinCalls i = 1 ∧ s.thread i = .done

theorem Inv.sound {P : Program} {s : State n} (h : Inv P s) : Sound P s where
  unjoined hfree := (h.accounts hfree).1
  live hfree := (h.accounts hfree).2
  join_once i := by
    rw [h.calls i]
    split <;> omega
  join_past i hpc := by
    have hpast := h.past hpc
    refine ⟨hpast, fun hne => ?_⟩
    have hsignal : s.thread i = .signal := by
      cases ht : s.thread i with
      | signal => rfl
      | done => exact absurd ht hne
      | _ => rw [ht] at hpast; exact hpast.elim
    obtain ⟨chosen, m, hm⟩ := s.monitor.exists_signal
    refine ⟨chosen, { s with monitor := m }.goto i .done, ?_, goto_self _ _ _⟩
    simp only [step, ThreadMultijoin.threadFunc, hsignal, hm, Option.map_some]
  awake := h.awake
  left hout i := by
    have hjoined := h.all_joined hout i
    refine ⟨hjoined, ?_, h.joined_done i hjoined⟩
    rw [h.calls i, if_pos (Or.inl hjoined)]

/-- **Every thread is joined, once and in time**, by both programs, for any number of
threads and in any state of any run. -/
theorem multijoin_sound (n : ℕ) :
    (∀ s, Reachable (multijoin threadMultijoin n) s → Sound threadMultijoin s) ∧
      ∀ s, Reachable (multijoin ythreadMultijoin n) s → Sound ythreadMultijoin s :=
  ⟨fun _ hs => (inv_of_reachable hs).sound, fun _ hs => (inv_of_reachable hs).sound⟩

/-- One thread that terminates while main waits, from beginning to end. -/
theorem multijoin_sound_one :
    ∃ s, (multijoin ythreadMultijoin 1).run (State.start 1)
        [.main, .main, .main, .main, .main, .main, .thread 0 none, .thread 0 none, .thread 0 none,
          .thread 0 none, .thread 0 (some .main), .main, .main, .main, .main, .main, .main, .main,
          .main, .main, .main, .main] = some s ∧ s.main = .exited ∧ Sound ythreadMultijoin s := by
  have hrun : ((multijoin ythreadMultijoin 1).run (State.start 1)
      [.main, .main, .main, .main, .main, .main, .thread 0 none, .thread 0 none, .thread 0 none,
        .thread 0 none, .thread 0 (some .main), .main, .main, .main, .main, .main, .main, .main,
        .main, .main, .main, .main]).map State.main = some .exited := rfl
  obtain ⟨s, hs, hexit⟩ := Option.map_eq_some_iff.mp hrun
  exact ⟨s, hs, hexit, (multijoin_sound 1).2 s (System.reachable_of_run _ (.init rfl) hs)⟩

end Tlpi.ThreadMultijoin
