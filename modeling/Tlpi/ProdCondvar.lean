/-
`threads/prod_condvar.c`: producers that announce units through a condition variable, and the
main thread that consumes them.

## What is modelled

Each access to the shared variable `avail` and each `pthread` call is a step of its own, of the
main thread or of one of the producers, in any order; the condition variable may wake the
main thread for no reason at any time. Producer `i` makes `cnt i` units, the value of
`atoi()` on its argument. The variables of type `int` are integers here, and that no value
leaves the range of `int` is part of what is proved.

`produced` is a history variable: the number of `avail++` steps.

## The shape of the argument

Units are conserved by every step, up to the one that main has taken off `avail` and not yet
counted (`Inv.conserve`); the mutex is free only when there is none. Nothing is lost in the
wait: main goes to sleep on `avail == 0` with the mutex held, so whatever it sleeps through
was produced after that, and a producer that has signalled since would have woken it
(`Inv.awake`).
-/
import Mathlib.Algebra.Order.BigOperators.Group.Finset
import Tlpi.Pthread
import Tlpi.Transition

set_option autoImplicit false

namespace Tlpi.ProdCondvar

open Tlpi.Pthread Tlpi.Transition

/-! ## The program -/

/-- Where a producer stands, with the number `j` of its turn. -/
inductive ProducerPc where
  | unborn
  /-- The test of the loop, and the `sleep()`. -/
  | loop (j : ℕ)
  | lock (j : ℕ)
  /-- `avail++` -/
  | inc (j : ℕ)
  | unlock (j : ℕ)
  | signal (j : ℕ)
  | done
deriving Repr, DecidableEq

inductive MainPc where
  /-- `totRequired += ...` and the creation of thread `j`. -/
  | create (j : ℕ)
  | lock
  /-- `while (avail == 0)` -/
  | test
  /-- In `pthread_cond_wait()`. -/
  | wait
  /-- `while (avail > 0)` -/
  | drain
  /-- `avail--` -/
  | take
  /-- `numConsumed++` -/
  | count
  /-- `done = numConsumed >= totRequired` -/
  | setDone
  | unlock
  /-- `if (done)` -/
  | ifDone
  | exited
deriving Repr, DecidableEq

structure State (n : ℕ) where
  monitor : Monitor (Tid n)
  main : MainPc
  producer : Fin n → ProducerPc
  avail : ℤ
  totRequired : ℤ
  numConsumed : ℤ
  done : Bool
  produced : ℕ

variable {n : ℕ}

def State.goto (s : State n) (i : Fin n) (pc : ProducerPc) : State n :=
  { s with producer := Function.update s.producer i pc }

/-- One step of a producer; the signal wakes whom the system chooses. -/
def producer (cnt : Fin n → ℕ) (s : State n) (i : Fin n) (chosen : Option (Tid n)) :
    Option (State n) :=
  match s.producer i with
  | .unborn => none
  | .loop j => some (s.goto i (if j < cnt i then .lock j else .done))
  | .lock j =>
    (s.monitor.lock (.thread i)).map fun m => { s with monitor := m }.goto i (.inc j)
  | .inc j =>
    some ({ s with avail := s.avail + 1, produced := s.produced + 1 }.goto i (.unlock j))
  | .unlock j =>
    (s.monitor.unlock (.thread i)).map fun m => { s with monitor := m }.goto i (.signal j)
  -- after the unlocking, so main may already have taken the unit that is announced here
  | .signal j =>
    (s.monitor.signal chosen).map fun m => { s with monitor := m }.goto i (.loop (j + 1))
  | .done => none

/-- One step of the main thread. -/
def main (cnt : Fin n → ℕ) (s : State n) : Option (State n) :=
  match s.main with
  | .create j =>
    if h : j < n then
      some ({ s with main := .create (j + 1), totRequired := s.totRequired + cnt ⟨j, h⟩ }.goto
        ⟨j, h⟩ (.loop 0))
    else some { s with main := .lock }
  | .lock => (s.monitor.lock .main).map fun m => { s with monitor := m, main := .test }
  | .test =>
    if s.avail = 0 then (s.monitor.wait .main).map fun m => { s with monitor := m, main := .wait }
    else some { s with main := .drain }
  | .wait => (s.monitor.resume .main).map fun m => { s with monitor := m, main := .test }
  | .drain => some { s with main := if 0 < s.avail then .take else .unlock }
  | .take => some { s with avail := s.avail - 1, main := .count }
  | .count => some { s with numConsumed := s.numConsumed + 1, main := .setDone }
  | .setDone => some { s with done := decide (s.totRequired ≤ s.numConsumed), main := .drain }
  | .unlock => (s.monitor.unlock .main).map fun m => { s with monitor := m, main := .ifDone }
  -- the mutex is free: `done` is main's own variable
  | .ifDone => some { s with main := if s.done then .exited else .lock }
  | .exited => none

inductive Act (n : ℕ) where
  | main
  | producer (i : Fin n) (chosen : Option (Tid n))
  /-- A spurious wake-up. -/
  | spurious (t : Tid n)
deriving Repr, DecidableEq

def step (cnt : Fin n → ℕ) (s : State n) : Act n → Option (State n)
  | .main => main cnt s
  | .producer i chosen => producer cnt s i chosen
  | .spurious t => (s.monitor.wake t).map fun m => { s with monitor := m }

def State.start (n : ℕ) : State n :=
  { monitor := Monitor.new, main := .create 0, producer := fun _ => .unborn, avail := 0,
    totRequired := 0, numConsumed := 0, done := false, produced := 0 }

/-- The program with one producer for each of `n` arguments. -/
def prodCondvar (cnt : Fin n → ℕ) : System (State n) (Act n) where
  init s := s = State.start n
  step := step cnt

/-! ## The invariant -/

def ProducerPc.holds : ProducerPc → Prop
  | .inc _ | .unlock _ => True
  | _ => False

def MainPc.holds : MainPc → Prop
  | .test | .drain | .take | .count | .setDone | .unlock => True
  | _ => False

/-- The units that a producer has announced. -/
def ProducerPc.made (cnt : ℕ) : ProducerPc → ℕ
  | .unborn => 0
  | .loop j | .lock j | .inc j => j
  | .unlock j | .signal j => j + 1
  | .done => cnt

/-- The turn a producer is in is one of its turns. -/
def ProducerPc.InTurn (cnt : ℕ) : ProducerPc → Prop
  | .loop j => j ≤ cnt
  | .lock j | .inc j | .unlock j | .signal j => j < cnt
  | _ => True

/-- Between its `avail++` and its `pthread_cond_signal()`. -/
def ProducerPc.Between : ProducerPc → Prop
  | .unlock _ | .signal _ => True
  | _ => False

/-- The unit that main has taken and not yet counted. -/
def MainPc.inHand : MainPc → ℤ
  | .count => 1
  | _ => 0

/-- The number of threads created. -/
def MainPc.created (n : ℕ) : MainPc → ℕ
  | .create j => j
  | _ => n

structure Inv (cnt : Fin n → ℕ) (s : State n) : Prop where
  crew : s.monitor.Crew s.main.holds (s.main = .wait) fun i => (s.producer i).holds
  inTurn : ∀ i, (s.producer i).InTurn (cnt i)
  made : s.produced = ∑ i, (s.producer i).made (cnt i)
  conserve : s.avail + s.numConsumed + s.main.inHand = s.produced
  avail_nonneg : 0 ≤ s.avail
  numConsumed_nonneg : 0 ≤ s.numConsumed
  take_pos : s.main = .take → 0 < s.avail
  unborn_iff : ∀ i, s.producer i = .unborn ↔ s.main.created n ≤ i
  total : s.totRequired = (∑ i, if s.producer i = .unborn then 0 else cnt i : ℕ)
  done_le : s.done = true → s.totRequired ≤ s.numConsumed
  create_done : ∀ j, s.main = .create j → s.done = false ∧ j ≤ n
  exited : s.main = .exited → s.done = true
  /-- No wake-up is lost. -/
  awake : Tid.main ∈ s.monitor.waiting → 0 < s.avail → ∃ i, (s.producer i).Between

theorem inv_start (cnt : Fin n → ℕ) : Inv cnt (State.start n) where
  crew := Monitor.Crew.new.keep Iff.rfl nofun fun _ => Iff.rfl
  inTurn _ := trivial
  made := (Finset.sum_eq_zero fun _ _ => rfl).symm
  conserve := rfl
  avail_nonneg := le_refl _
  numConsumed_nonneg := le_refl _
  take_pos := nofun
  unborn_iff i := iff_of_true rfl (Nat.zero_le _)
  total := by
    simp only [State.start, if_true, Finset.sum_const_zero]
    rfl
  done_le := nofun
  create_done j hj := ⟨rfl, by rw [← MainPc.create.inj hj]; exact Nat.zero_le _⟩
  exited := nofun
  awake := nofun

/-! ## The producers -/

/-- What a step of a producer has to leave in place: everything else follows. -/
theorem Inv.of_goto {cnt : Fin n → ℕ} {s : State n} (h : Inv cnt s) {i : Fin n}
    {pc₀ pc : ProducerPc} (hpc₀ : s.producer i = pc₀) {m : Monitor (Tid n)} {a : ℤ} {p : ℕ}
    (hborn : pc₀ ≠ .unborn) (hpc : pc ≠ .unborn) (hturn : pc.InTurn (cnt i)) (hle : s.avail ≤ a)
    (hboth : a + s.produced = s.avail + p)
    (hmade : p + pc₀.made (cnt i) = s.produced + pc.made (cnt i))
    (hcrew : m.Crew s.main.holds (s.main = .wait) fun j => ((s.goto i pc).producer j).holds)
    (hawake : Tid.main ∈ m.waiting → 0 < a → ∃ j, (Function.update s.producer i pc j).Between) :
    Inv cnt ({ s with monitor := m, avail := a, produced := p }.goto i pc) := by
  subst hpc₀
  -- of the two sums over the producers only the term of this one changes
  have hmadeAll := sum_update (fun j pc => ProducerPc.made (cnt j) pc) s.producer i pc
  have hcntAll :=
    sum_update (fun j pc => if pc = ProducerPc.unborn then 0 else cnt j) s.producer i pc
  rw [if_neg hpc, if_neg hborn, Nat.add_right_cancel_iff] at hcntAll
  refine ⟨hcrew, fun j => ?_, ?_, ?_, ?_, h.numConsumed_nonneg, fun ht => ?_, fun j => ?_, ?_,
    h.done_le, h.create_done, h.exited, hawake⟩
  · by_cases hj : j = i
    · subst hj
      simp only [State.goto, Function.update_self]
      exact hturn
    · simp only [State.goto, Function.update_of_ne hj]
      exact h.inTurn j
  · have := h.made
    simp only [State.goto]
    omega
  · have := h.conserve
    simp only [State.goto]
    omega
  · have := h.avail_nonneg
    simp only [State.goto]
    omega
  · have := h.take_pos ht
    simp only [State.goto]
    omega
  · have hsame : pc = .unborn ↔ s.producer i = .unborn := iff_of_false hpc hborn
    exact Iff.trans (update_iff (p := (· = ProducerPc.unborn)) hsame j) (h.unborn_iff j)
  · exact h.total.trans (congrArg Nat.cast hcntAll.symm)

@[simp] theorem goto_self (s : State n) (i : Fin n) (pc : ProducerPc) :
    (s.goto i pc).producer i = pc := Function.update_self ..

theorem holds_goto_of_ne {s : State n} {i : Fin n} {pc : ProducerPc} (j : Fin n) (h : j ≠ i) :
    ((s.goto i pc).producer j).holds ↔ (s.producer j).holds := update_iff_of_ne j h

/-- A producer that makes no call on the monitor. -/
theorem crew_goto {s : State n} {m : Monitor (Tid n)}
    (hcrew : m.Crew s.main.holds (s.main = .wait) fun j => (s.producer j).holds) {i : Fin n}
    {pc₀ pc : ProducerPc} (hpc₀ : s.producer i = pc₀) (hsame : pc.holds ↔ pc₀.holds) :
    m.Crew s.main.holds (s.main = .wait) fun j => ((s.goto i pc).producer j).holds :=
  hcrew.keep Iff.rfl id fun j => update_iff (hpc₀ ▸ hsame) j

theorem Inv.producer {cnt : Fin n → ℕ} {s s' : State n} (h : Inv cnt s) {i : Fin n}
    {chosen : Option (Tid n)} (hs : producer cnt s i chosen = some s') : Inv cnt s' := by
  have hturn := h.inTurn i
  unfold ProdCondvar.producer at hs
  cases hpc : s.producer i with
  | unborn => simp only [hpc, reduceCtorEq] at hs
  | loop j =>
    simp only [hpc, Option.some.injEq] at hs
    subst hs
    rw [hpc] at hturn
    have hnot : ¬(s.producer i).Between := by rw [hpc]; exact id
    by_cases hj : j < cnt i
    · rw [if_pos hj]
      refine h.of_goto hpc nofun nofun hj le_rfl rfl rfl (crew_goto h.crew hpc Iff.rfl)
        fun hw ha => ?_
      exact exists_update (absurd · hnot) (h.awake hw ha)
    · rw [if_neg hj]
      have hlast : j = cnt i := Nat.le_antisymm hturn (Nat.not_lt.mp hj)
      refine h.of_goto hpc nofun nofun trivial le_rfl rfl (congrArg _ hlast)
        (crew_goto h.crew hpc Iff.rfl) fun hw ha => ?_
      exact exists_update (absurd · hnot) (h.awake hw ha)
  | lock j =>
    simp only [hpc, Option.map_eq_some_iff] at hs
    obtain ⟨m, hm, rfl⟩ := hs
    rw [hpc] at hturn
    have hself : ((s.goto i (.inc j)).producer i).holds := by rw [goto_self]; trivial
    have hnot : ¬(s.producer i).Between := by rw [hpc]; exact id
    obtain ⟨hwait, hcrew⟩ := h.crew.thread_lock hm hself holds_goto_of_ne
    refine h.of_goto hpc nofun nofun hturn le_rfl rfl rfl hcrew fun hw ha => ?_
    rw [hwait] at hw
    exact exists_update (absurd · hnot) (h.awake hw ha)
  | inc j =>
    simp only [hpc, Option.some.injEq] at hs
    subst hs
    rw [hpc] at hturn
    -- this producer itself is the one that has still to signal
    refine h.of_goto hpc nofun nofun hturn (by omega) (by omega) ?_ (crew_goto h.crew hpc Iff.rfl)
      fun _ _ => exists_update_self trivial
    simp only [ProducerPc.made]
    omega
  | unlock j =>
    simp only [hpc, Option.map_eq_some_iff] at hs
    obtain ⟨m, hm, rfl⟩ := hs
    rw [hpc] at hturn
    have hself : ¬((s.goto i (.signal j)).producer i).holds := by rw [goto_self]; exact id
    obtain ⟨-, hcrew⟩ := h.crew.thread_unlock hm hself holds_goto_of_ne
    exact h.of_goto hpc nofun nofun hturn le_rfl rfl rfl hcrew fun _ _ => exists_update_self trivial
  | signal j =>
    simp only [hpc, Option.map_eq_some_iff] at hs
    obtain ⟨m, hm, rfl⟩ := hs
    rw [hpc] at hturn
    -- main is the only thread that waits, so the signal wakes it
    obtain ⟨hnot, hcrew⟩ := h.crew.signal hm
    exact h.of_goto hpc nofun nofun hturn le_rfl rfl rfl (crew_goto hcrew hpc Iff.rfl)
      fun hw _ => absurd hw hnot
  | done => simp only [hpc, reduceCtorEq] at hs

/-! ## The main thread -/

/-- What a step of main, after all threads have been created, has to leave in place. -/
theorem Inv.of_main {cnt : Fin n → ℕ} {s : State n} (h : Inv cnt s) {pc₀ pc : MainPc}
    (hpc₀ : s.main = pc₀) {m : Monitor (Tid n)} {a c : ℤ} {d : Bool}
    (hcreated : pc.created n = pc₀.created n) (hpc : ∀ j, pc ≠ .create j)
    (hcrew : m.Crew pc.holds (pc = .wait) fun i => (s.producer i).holds)
    (hconserve : a + c + pc.inHand = s.avail + s.numConsumed + pc₀.inHand) (ha : 0 ≤ a)
    (hc : 0 ≤ c) (htake : pc = .take → 0 < a) (hdone : d = true → s.totRequired ≤ c)
    (hexited : pc = .exited → d = true)
    (hawake : Tid.main ∈ m.waiting → 0 < a → ∃ i, (s.producer i).Between) :
    Inv cnt { s with monitor := m, main := pc, avail := a, numConsumed := c, done := d } := by
  subst hpc₀
  refine ⟨hcrew, h.inTurn, h.made, hconserve.trans h.conserve, ha, hc, htake, fun i => ?_, h.total,
    hdone, fun j hj => absurd hj (hpc j), hexited, hawake⟩
  rw [h.unborn_iff i, ← hcreated]

/-- A step of main that makes no call on the monitor. -/
theorem Inv.crew_keep {cnt : Fin n → ℕ} {s : State n} (h : Inv cnt s) {pc₀ pc : MainPc}
    (hpc₀ : s.main = pc₀) (hwait : pc₀ ≠ .wait) (hholds : pc.holds ↔ pc₀.holds) :
    s.monitor.Crew pc.holds (pc = .wait) fun i => (s.producer i).holds := by
  subst hpc₀
  exact h.crew.keep hholds (absurd · hwait) fun _ => Iff.rfl

theorem Inv.not_waiting {cnt : Fin n → ℕ} {s : State n} (h : Inv cnt s) {pc₀ : MainPc}
    (hpc₀ : s.main = pc₀) (hwait : pc₀ ≠ .wait) : Tid.main ∉ s.monitor.waiting :=
  h.crew.main_not_waiting (hpc₀ ▸ hwait)

/-- A step of main that only goes on. -/
theorem Inv.of_goto_main {cnt : Fin n → ℕ} {s : State n} (h : Inv cnt s) {pc₀ pc : MainPc}
    (hpc₀ : s.main = pc₀) (hcreated : pc.created n = pc₀.created n) (hpc : ∀ j, pc ≠ .create j)
    (hsame : pc.holds ↔ pc₀.holds) (hwait : pc₀ ≠ .wait)
    (hhand : pc.inHand = pc₀.inHand) (htake : pc = .take → 0 < s.avail)
    (hexited : pc = .exited → s.done = true) : Inv cnt { s with main := pc } :=
  h.of_main hpc₀ hcreated hpc (h.crew_keep hpc₀ hwait hsame) (by rw [hhand]) h.avail_nonneg
    h.numConsumed_nonneg htake h.done_le hexited h.awake

theorem Inv.create {cnt : Fin n → ℕ} {s : State n} (h : Inv cnt s) {j : ℕ}
    (hpc : s.main = .create j) (hj : j < n) :
    Inv cnt ({ s with main := .create (j + 1), totRequired := s.totRequired + cnt ⟨j, hj⟩ }.goto
      ⟨j, hj⟩ (.loop 0)) := by
  have hunborn : s.producer ⟨j, hj⟩ = .unborn := (h.unborn_iff _).mpr (by rw [hpc]; exact le_rfl)
  have hnot := h.not_waiting hpc nofun
  refine ⟨?_, fun i => ?_, ?_, ?_, h.avail_nonneg, h.numConsumed_nonneg, nofun, fun i => ?_, ?_, ?_,
    fun k hk => ?_, nofun, fun hw => absurd hw hnot⟩
  · -- neither main nor the new thread is anywhere near the mutex
    have hsame : (ProducerPc.loop 0).holds ↔ (s.producer ⟨j, hj⟩).holds := by
      rw [hunborn]
      exact Iff.rfl
    have hcrew : s.monitor.Crew (MainPc.create (j + 1)).holds (MainPc.create (j + 1) = .wait)
        fun i => (s.producer i).holds := h.crew_keep hpc nofun Iff.rfl
    exact hcrew.keep Iff.rfl id fun i => update_iff hsame i
  · by_cases hi : i = ⟨j, hj⟩
    · subst hi
      simp only [State.goto, Function.update_self]
      exact Nat.zero_le _
    · simp only [State.goto, Function.update_of_ne hi]
      exact h.inTurn i
  · -- a thread that has only started has made nothing
    have hsum := sum_update (fun i pc => ProducerPc.made (cnt i) pc) s.producer ⟨j, hj⟩ (.loop 0)
    rw [hunborn] at hsum
    exact h.made.trans hsum.symm
  · have := h.conserve
    rw [hpc] at this
    exact this
  · simp only [State.goto, MainPc.created]
    by_cases hi : i = ⟨j, hj⟩
    · subst hi
      rw [Function.update_self]
      refine iff_of_false nofun ?_
      simp only
      omega
    · have hne : (i : ℕ) ≠ j := fun he => hi (Fin.ext he)
      rw [Function.update_of_ne hi, h.unborn_iff i, hpc]
      simp only [MainPc.created]
      omega
  · -- its units are required from now on
    have hsum := sum_update (fun i pc => if pc = ProducerPc.unborn then 0 else cnt i) s.producer
      ⟨j, hj⟩ (.loop 0)
    rw [if_pos hunborn, if_neg (by nofun), Nat.add_zero] at hsum
    calc s.totRequired + cnt ⟨j, hj⟩
        = ((∑ i, if s.producer i = .unborn then 0 else cnt i) + cnt ⟨j, hj⟩ : ℕ) := by
          rw [h.total, Int.natCast_add]
      _ = _ := congrArg Nat.cast hsum.symm
  · intro hd
    rw [(h.create_done j hpc).1] at hd
    exact nomatch hd
  · rw [← MainPc.create.inj hk]
    exact ⟨(h.create_done j hpc).1, hj⟩

theorem Inv.main {cnt : Fin n → ℕ} {s s' : State n} (h : Inv cnt s)
    (hs : main cnt s = some s') : Inv cnt s' := by
  have havail := h.avail_nonneg
  have hnum := h.numConsumed_nonneg
  unfold ProdCondvar.main at hs
  cases hpc : s.main with
  | create j =>
    simp only [hpc] at hs
    split at hs
    · rename_i hj
      rw [Option.some.injEq] at hs
      exact hs ▸ h.create hpc hj
    · rw [Option.some.injEq] at hs
      subst hs
      have hlast : j = n := by
        have := (h.create_done j hpc).2
        omega
      exact h.of_goto_main hpc hlast.symm nofun Iff.rfl nofun rfl nofun nofun
  | lock =>
    simp only [hpc, Option.map_eq_some_iff] at hs
    obtain ⟨m, hm, rfl⟩ := hs
    obtain ⟨hsame, hcrew⟩ := h.crew.main_lock hm (show MainPc.test.holds from trivial)
      fun hw => nomatch hpc.symm.trans hw
    exact h.of_main hpc rfl nofun hcrew rfl havail hnum nofun h.done_le nofun
      (by rw [hsame]; exact h.awake)
  | test =>
    simp only [hpc] at hs
    by_cases hzero : s.avail = 0
    · rw [if_pos hzero, Option.map_eq_some_iff] at hs
      obtain ⟨m, hm, rfl⟩ := hs
      have hcrew := h.crew.main_wait hm (show ¬MainPc.wait.holds from id) (Eq.refl MainPc.wait)
      refine h.of_main hpc rfl nofun hcrew rfl havail hnum nofun h.done_le nofun fun _ ha => ?_
      -- main goes to sleep with nothing available
      omega
    · rw [if_neg hzero, Option.some.injEq] at hs
      subst hs
      exact h.of_goto_main hpc rfl nofun Iff.rfl nofun rfl nofun nofun
  | wait =>
    simp only [hpc, Option.map_eq_some_iff] at hs
    obtain ⟨m, hm, rfl⟩ := hs
    obtain ⟨hnot, hcrew⟩ := h.crew.main_resume hm (show MainPc.test.holds from trivial)
    exact h.of_main hpc rfl nofun hcrew rfl havail hnum nofun h.done_le nofun
      fun hw => absurd hw hnot
  | drain =>
    simp only [hpc, Option.some.injEq] at hs
    subst hs
    by_cases hpos : 0 < s.avail
    · rw [if_pos hpos]
      exact h.of_goto_main hpc rfl nofun Iff.rfl nofun rfl (fun _ => hpos) nofun
    · rw [if_neg hpos]
      exact h.of_goto_main hpc rfl nofun Iff.rfl nofun rfl nofun nofun
  | take =>
    simp only [hpc, Option.some.injEq] at hs
    subst hs
    have hpos := h.take_pos hpc
    have hnot := h.not_waiting hpc nofun
    -- the unit goes from `avail` into main's hand
    refine h.of_main hpc rfl nofun (h.crew_keep hpc nofun Iff.rfl) ?_ (by omega) hnum nofun
      h.done_le nofun fun hw => absurd hw hnot
    simp only [MainPc.inHand]
    omega
  | count =>
    simp only [hpc, Option.some.injEq] at hs
    subst hs
    refine h.of_main hpc rfl nofun (h.crew_keep hpc nofun Iff.rfl) ?_ havail (by omega) nofun
      (fun hd => ?_) nofun h.awake
    · simp only [MainPc.inHand]
      omega
    · have := h.done_le hd
      omega
  | setDone =>
    simp only [hpc, Option.some.injEq] at hs
    subst hs
    exact h.of_main hpc rfl nofun (h.crew_keep hpc nofun Iff.rfl) rfl havail hnum nofun
      of_decide_eq_true nofun h.awake
  | unlock =>
    simp only [hpc, Option.map_eq_some_iff] at hs
    obtain ⟨m, hm, rfl⟩ := hs
    obtain ⟨hsame, hcrew⟩ := h.crew.main_unlock hm (show ¬MainPc.ifDone.holds from id)
      fun hw => nomatch hpc.symm.trans hw
    exact h.of_main hpc rfl nofun hcrew rfl havail hnum nofun h.done_le nofun
      (by rw [hsame]; exact h.awake)
  | ifDone =>
    simp only [hpc, Option.some.injEq] at hs
    subst hs
    by_cases hd : s.done = true
    · rw [if_pos hd]
      exact h.of_goto_main hpc rfl nofun Iff.rfl nofun rfl nofun fun _ => hd
    · rw [if_neg hd]
      exact h.of_goto_main hpc rfl nofun Iff.rfl nofun rfl nofun nofun
  | exited => simp only [hpc, reduceCtorEq] at hs

theorem inv_of_reachable {cnt : Fin n → ℕ} {s : State n} (hs : Reachable (prodCondvar cnt) s) :
    Inv cnt s := by
  refine hs.invariant (fun s h => ?_) fun s a s' h _ hstep => ?_
  · rw [show s = State.start n from h]
    exact inv_start cnt
  · cases a with
    | main => exact h.main hstep
    | producer i chosen => exact h.producer hstep
    | spurious t =>
      simp only [prodCondvar, step, Option.map_eq_some_iff] at hstep
      obtain ⟨m, hm, rfl⟩ := hstep
      obtain ⟨hsub, hcrew⟩ := h.crew.wake hm
      exact { h with crew := hcrew, awake := fun hw => h.awake (hsub _ hw) }

/-! ## What holds in every run -/

theorem made_le {cnt : ℕ} {pc : ProducerPc} (h : pc.InTurn cnt) : pc.made cnt ≤ cnt := by
  cases pc with
  | unborn => exact Nat.zero_le _
  | loop j => exact h
  | lock j => exact Nat.le_of_lt h
  | inc j => exact Nat.le_of_lt h
  | unlock j => exact h
  | signal j => exact h
  | done => exact le_rfl

/-- No more is made than is asked for. -/
theorem Inv.produced_le {cnt : Fin n → ℕ} {s : State n} (h : Inv cnt s) :
    s.produced ≤ ∑ i, cnt i := by
  rw [h.made]
  exact Finset.sum_le_sum fun i _ => made_le (h.inTurn i)

/-- Main has a true idea of what it is to consume once all threads are there. -/
theorem Inv.total_eq {cnt : Fin n → ℕ} {s : State n} (h : Inv cnt s)
    (hcreated : s.main.created n = n) : s.totRequired = (∑ i, cnt i : ℕ) := by
  rw [h.total]
  refine congrArg Nat.cast (Finset.sum_congr rfl fun i _ => if_neg fun hi => ?_)
  have := (h.unborn_iff i).mp hi
  have := i.isLt
  omega

/-- What the program promises in a state. -/
structure Sound (cnt : Fin n → ℕ) (s : State n) : Prop where
  avail_nonneg : 0 ≤ s.avail
  /-- Units are neither lost nor invented. -/
  conserved : s.monitor.owner = none → s.avail + s.numConsumed = s.produced
  take_pos : s.main = .take → 0 < s.avail
  /-- No wake-up is lost. -/
  awake : Tid.main ∈ s.monitor.waiting → 0 < s.avail → ∃ i, (s.producer i).Between
  exited : s.main = .exited → s.numConsumed = (∑ i, cnt i : ℕ)
  /-- No `int` overflows. -/
  bounded : s.avail < 2 ^ 31 ∧ s.numConsumed < 2 ^ 31 ∧ s.totRequired < 2 ^ 31

/-- **No unit is lost or invented**, in any state of any run. -/
theorem prod_condvar_sound (cnt : Fin n → ℕ) (hsum : ∑ i, cnt i < 2 ^ 31) (s : State n)
    (hs : Reachable (prodCondvar cnt) s) : Sound cnt s := by
  have h := inv_of_reachable hs
  have hcons := h.conserve
  have havail := h.avail_nonneg
  have hnum := h.numConsumed_nonneg
  have hmade := h.produced_le
  have hhand : 0 ≤ s.main.inHand := by
    cases s.main with
    | count => exact Int.one_nonneg
    | _ => exact le_rfl
  refine ⟨havail, fun hfree => ?_, h.take_pos, h.awake, fun hexit => ?_, by omega, by omega, ?_⟩
  · -- with the mutex free, main is not between taking a unit and counting it
    have hnone : s.main.inHand = 0 := by
      have hnot := (h.crew.free hfree).1
      cases hm : s.main with
      | count => rw [hm] at hnot; exact absurd trivial hnot
      | _ => rfl
    omega
  · have htotal := h.total_eq (by rw [hexit]; rfl)
    have hdone := h.done_le (h.exited hexit)
    omega
  · have htotal : s.totRequired ≤ (∑ i, cnt i : ℕ) := by
      rw [h.total]
      refine Int.ofNat_le.mpr (Finset.sum_le_sum fun i _ => ?_)
      split <;> omega
    omega

/-- One producer of one unit, and main asleep while it signals. -/
theorem prod_condvar_sound_one :
    ∃ s, (prodCondvar fun _ : Fin 1 => 1).run (State.start 1)
        [.main, .main, .main, .main, .producer 0 none, .producer 0 none, .producer 0 none,
          .producer 0 none, .producer 0 (some .main), .main, .main, .main, .main, .main, .main,
          .main, .main, .main] = some s ∧ s.main = .exited ∧ Sound (fun _ => 1) s := by
  have hrun : ((prodCondvar fun _ : Fin 1 => 1).run (State.start 1)
      [.main, .main, .main, .main, .producer 0 none, .producer 0 none, .producer 0 none,
        .producer 0 none, .producer 0 (some .main), .main, .main, .main, .main, .main, .main,
        .main, .main, .main]).map State.main = some .exited := rfl
  obtain ⟨s, hs, hexit⟩ := Option.map_eq_some_iff.mp hrun
  exact ⟨s, hs, hexit,
    prod_condvar_sound (fun _ => 1) (by decide) s (System.reachable_of_run _ (.init rfl) hs)⟩

end Tlpi.ProdCondvar
