/-
`threads/one_time_init.c` and `threads/exr3101.c`: two functions that do what `pthread_once()` does, with
a mutex and a flag.

Any number of threads call the function as often as they like. Each of its calls is a step, and `init()`
has a step for its beginning and one for its end, so others may run while it does. A call of the mutex
may fail; the functions of pthreads return a positive number then, which the function in
`one_time_init.c`, that compares with -1, takes for success. `started`, `finished` and `returned` are
history variables: how often `init()` has begun and has ended, and what each thread's calls have returned.
-/
import Mathlib.Algebra.BigOperators.Intervals
import Mathlib.Logic.Function.Basic
import Tlpi.Locks
import Tlpi.Parties
import Tlpi.Transition

set_option autoImplicit false

namespace Tlpi.OneTimeInit

open Tlpi.Locks Tlpi.Parties Tlpi.Transition

/-! ## 1. The functions -/

inductive Program where
  | one_time_init | exr3101
deriving Repr, DecidableEq

/-- The test of what the mutex's functions have returned. -/
def Program.tests : Program → ℤ → Bool
  | .one_time_init, s => s == -1
  | .exr3101, s => s != 0

/-- Where a thread is in `one_time_init()`. -/
inductive Pc where
  /-- Not in it. -/
  | idle
  | lock | test
  /-- `init()` is running. -/
  | init
  | set | unlock
deriving Repr, DecidableEq

structure State where
  mtx : Option ℕ
  called : Bool
  pcs : ℕ → Pc
  started : ℕ
  finished : ℕ
  returned : ℕ → List ℤ
  exited : Bool

def State.goto (s : State) (i : ℕ) (pc : Pc) : State := { s with pcs := Function.update s.pcs i pc }

def State.ret (s : State) (i : ℕ) (r : ℤ) : State :=
  { s with
    pcs := Function.update s.pcs i .idle
    returned := Function.update s.returned i (s.returned i ++ [r]) }

def threadStep (i : ℕ) (s : State) : Option State :=
  match s.pcs i with
  | .idle => none
  | .lock => (mutex.acquire i s.mtx).map fun mtx => { s.goto i .test with mtx := mtx }
  | .test =>
    if s.called then some (s.goto i .unlock)
    else some { s.goto i .init with started := s.started + 1 }
  | .init => some { s.goto i .set with finished := s.finished + 1 }
  | .set => some { s.goto i .unlock with called := true }
  | .unlock => (mutex.release i s.mtx).map fun mtx => { s.ret i 0 with mtx := mtx }

/-- What the test leads to when it finds an error. -/
def Program.error (prog : Program) (e : ℤ) (i : ℕ) (s : State) : State :=
  match prog with
  | .one_time_init => { s with exited := true }
  | .exr3101 => s.ret i e

/-- `pthread_mutex_lock()` fails. -/
def lockFails (prog : Program) (e : ℤ) (i : ℕ) (s : State) : Option State :=
  match s.pcs i with
  | .lock => some (if prog.tests e then prog.error e i s else s.goto i .test)
  | _ => none

/-- `pthread_mutex_unlock()` fails. -/
def unlockFails (prog : Program) (e : ℤ) (i : ℕ) (s : State) : Option State :=
  match s.pcs i with
  | .unlock => some (if prog.tests e then prog.error e i s else s.ret i 0)
  | _ => none

inductive Act where
  /-- The thread calls `one_time_init()`. -/
  | call (i : ℕ)
  | thread (i : ℕ)
  | lockFails (i : ℕ) (e : ℤ)
  | unlockFails (i : ℕ) (e : ℤ)
deriving Repr, DecidableEq

def step (prog : Program) (s : State) (a : Act) : Option State :=
  if s.exited then none
  else
    match a with
    | .call i => if s.pcs i = .idle then some (s.goto i .lock) else none
    | .thread i => threadStep i s
    | .lockFails i e => if 0 < e then lockFails prog e i s else none
    | .unlockFails i e => if 0 < e then unlockFails prog e i s else none

def start : State where
  mtx := mutex.init
  called := false
  pcs _ := .idle
  started := 0
  finished := 0
  returned _ := []
  exited := false

def oneTimeInit (prog : Program) : System State Act where
  init s := s = start
  step := step prog

/-! ## 2. At most once -/

/-- **Once**: `init()` has begun once at most, and if a call has returned 0, then it has ended. -/
def Once (s : State) : Prop :=
  s.started ≤ 1 ∧ ∀ i, 0 ∈ s.returned i → s.started = 1 ∧ s.finished = 1

/-- Between the two calls of the mutex. -/
def Pc.inside : Pc → Bool
  | .test | .init | .set | .unlock => true
  | .idle | .lock => false

/-- What has happened, by where the thread is that is inside; if nobody is, it is as if one were outside. -/
def Books (s : State) : Pc → Prop
  | .init => s.called = false ∧ s.started = 1 ∧ s.finished = 0
  | .set => s.called = false ∧ s.started = 1 ∧ s.finished = 1
  | .unlock => s.called = true ∧ s.started = 1 ∧ s.finished = 1
  | .idle | .lock | .test => s.started = s.called.toNat ∧ s.finished = s.called.toNat

structure Inv (s : State) : Prop where
  owner : ∀ i, (s.pcs i).inside = true → s.mtx = some i
  books : ∀ i, (s.pcs i).inside = true → Books s (s.pcs i)
  rest : (∀ i, (s.pcs i).inside = false) → Books s .idle
  returned : ∀ i, 0 ∈ s.returned i → s.called = true

theorem Inv.once {s : State} (h : Inv s) : Once s := by
  have hbooks : ∃ pc, Books s pc := by
    by_cases hin : ∃ i, (s.pcs i).inside = true
    · obtain ⟨i, hi⟩ := hin
      exact ⟨_, h.books i hi⟩
    · simp only [not_exists, Bool.not_eq_true] at hin
      exact ⟨_, h.rest hin⟩
  obtain ⟨pc, hpc⟩ := hbooks
  cases pc with
  | init | set =>
    obtain ⟨hcalled, hstarted, -⟩ := hpc
    refine ⟨hstarted.le, fun i hi => ?_⟩
    rw [h.returned i hi] at hcalled
    cases hcalled
  | unlock => exact ⟨hpc.2.1.le, fun _ _ => hpc.2⟩
  | idle | lock | test =>
    obtain ⟨hstarted, hfinished⟩ := hpc
    refine ⟨hstarted.trans_le (Bool.toNat_le _), fun i hi => ?_⟩
    rw [hstarted, hfinished, h.returned i hi]
    exact ⟨rfl, rfl⟩

theorem inv_start : Inv start where
  owner := fun _ hi => by cases hi
  books := fun _ hi => by cases hi
  rest := fun _ => ⟨rfl, rfl⟩
  returned := fun _ hi => by cases hi

section Steps

variable {s s' : State} {i : ℕ}

/-- The others are outside. -/
theorem Inv.others (h : Inv s) (hi : (s.pcs i).inside = true) {j : ℕ} (hne : j ≠ i) :
    (s.pcs j).inside = false := by
  rw [← Bool.not_eq_true]
  intro hj
  exact hne (Option.some.inj ((h.owner j hj).symm.trans (h.owner i hi)))

/-- A thread goes somewhere while the others are outside. -/
theorem Inv.moves {pc : Pc} (hothers : ∀ j, j ≠ i → (s.pcs j).inside = false)
    (hpcs : s'.pcs = Function.update s.pcs i pc) (howner : pc.inside = true → s'.mtx = some i)
    (hbooks : Books s' pc) (hret : ∀ j, 0 ∈ s'.returned j → s'.called = true) : Inv s' := by
  have hother : ∀ j, j ≠ i → (s'.pcs j).inside = false := fun j hne => by
    rw [hpcs, Function.update_of_ne hne]
    exact hothers j hne
  have hself : s'.pcs i = pc := by rw [hpcs, Function.update_self]
  have honly : ∀ j, (s'.pcs j).inside = true → j = i := fun j hj => by
    by_contra hne
    rw [hother j hne] at hj
    cases hj
  refine ⟨fun j hj => ?_, fun j hj => ?_, fun hrest => ?_, hret⟩
  · obtain rfl := honly j hj
    rw [hself] at hj
    exact howner hj
  · obtain rfl := honly j hj
    rw [hself]
    exact hbooks
  · have := hrest i
    rw [hself] at this
    cases pc with
    | idle | lock => exact hbooks
    | test | init | set | unlock => cases this

/-- Who is outside goes somewhere outside; it may have returned an error. -/
theorem Inv.outside (h : Inv s) {pc : Pc} (hfrom : (s.pcs i).inside = false) (hpc : pc.inside = false)
    {returned : ℕ → List ℤ} (hret : ∀ j, 0 ∈ returned j → 0 ∈ s.returned j) :
    Inv { s with pcs := Function.update s.pcs i pc, returned := returned } := by
  have hsame : ∀ j, (Function.update s.pcs i pc j).inside = (s.pcs j).inside := fun j => by
    rcases eq_or_ne j i with rfl | hne
    · rw [Function.update_self, hfrom, hpc]
    · rw [Function.update_of_ne hne]
  refine ⟨fun j hj => h.owner j ((hsame j).symm.trans hj), fun j hj => ?_,
    fun hrest => h.rest fun j => (hsame j).symm.trans (hrest j), fun j hj => h.returned j (hret j hj)⟩
  have hin := (hsame j).symm.trans hj
  have hne : j ≠ i := fun hc => by
    rw [hc, hfrom] at hin
    cases hin
  have hbooks := h.books j hin
  simp only
  rw [Function.update_of_ne hne]
  cases hpcj : s.pcs j <;> rw [hpcj] at hbooks <;> exact hbooks

/-- What there is to know where a thread is inside. -/
theorem Inv.inside (h : Inv s) {pc : Pc} (hpc : s.pcs i = pc) (hin : pc.inside = true) :
    s.mtx = some i ∧ Books s pc ∧ ∀ j, j ≠ i → (s.pcs j).inside = false := by
  rw [← hpc] at hin ⊢
  exact ⟨h.owner i hin, h.books i hin, fun j hj => h.others hin hj⟩

/-- A call returns behind the flag. -/
theorem Inv.ret (h : Inv s) (hpc : s.pcs i = .unlock) (mtx : Option ℕ) (r : ℤ) :
    Inv { s.ret i r with mtx := mtx } := by
  obtain ⟨-, ⟨hcalled, hstarted, hfinished⟩, hothers⟩ := h.inside hpc rfl
  refine Inv.moves hothers rfl (fun hc => by cases hc) ?_ fun _ _ => hcalled
  rw [Books, State.ret, hcalled]
  exact ⟨hstarted, hfinished⟩

theorem Inv.threadStep (h : Inv s) (hs : threadStep i s = some s') : Inv s' := by
  cases hpc : s.pcs i with
  | idle => simp only [OneTimeInit.threadStep, hpc, reduceCtorEq] at hs
  | lock =>
    simp only [OneTimeInit.threadStep, hpc, mutex, Option.map_eq_some_iff, Option.ite_none_right_eq_some,
      Option.some.injEq] at hs
    obtain ⟨mtx, ⟨hfree, rfl⟩, rfl⟩ := hs
    -- the mutex is free, so nobody is inside
    have hrest : ∀ j, (s.pcs j).inside = false := fun j => by
      rw [← Bool.not_eq_true]
      intro hj
      rw [h.owner j hj] at hfree
      cases hfree
    exact Inv.moves (fun j _ => hrest j) rfl (fun _ => rfl) (h.rest hrest) h.returned
  | test =>
    obtain ⟨howner, ⟨hstarted, hfinished⟩, hothers⟩ := h.inside hpc rfl
    simp only [OneTimeInit.threadStep, hpc] at hs
    split at hs
    · rename_i hcalled
      obtain rfl := Option.some.inj hs
      rw [hcalled] at hstarted hfinished
      exact Inv.moves hothers rfl (fun _ => howner) ⟨hcalled, hstarted, hfinished⟩ h.returned
    · rename_i hcalled
      obtain rfl := Option.some.inj hs
      rw [Bool.not_eq_true] at hcalled
      rw [hcalled] at hstarted hfinished
      exact Inv.moves hothers rfl (fun _ => howner)
        ⟨hcalled, congrArg (· + 1) hstarted, hfinished⟩ h.returned
  | init =>
    obtain ⟨howner, ⟨hcalled, hstarted, hfinished⟩, hothers⟩ := h.inside hpc rfl
    simp only [OneTimeInit.threadStep, hpc, Option.some.injEq] at hs
    rw [← hs]
    exact Inv.moves hothers rfl (fun _ => howner)
      ⟨hcalled, hstarted, congrArg (· + 1) hfinished⟩ h.returned
  | set =>
    obtain ⟨howner, ⟨-, hdone⟩, hothers⟩ := h.inside hpc rfl
    simp only [OneTimeInit.threadStep, hpc, Option.some.injEq] at hs
    rw [← hs]
    exact Inv.moves hothers rfl (fun _ => howner) ⟨rfl, hdone⟩ fun _ _ => rfl
  | unlock =>
    simp only [OneTimeInit.threadStep, hpc] at hs
    obtain ⟨mtx, -, rfl⟩ := Option.map_eq_some_iff.mp hs
    exact h.ret hpc mtx 0

/-- Every failing call of `pthread_mutex_lock()` is noticed. -/
def Noticed (prog : Program) (_ : State) : Act → Prop
  | .lockFails _ e => prog.tests e = true
  | _ => True

theorem Inv.exit (h : Inv s) : Inv { s with exited := true } :=
  ⟨h.owner, fun i hi => by have := h.books i hi; revert this; cases s.pcs i <;> exact id, h.rest, h.returned⟩

theorem Inv.lockFails (h : Inv s) {prog : Program} {e : ℤ} (he : 0 < e) (hnoticed : prog.tests e = true)
    (hs : lockFails prog e i s = some s') : Inv s' := by
  unfold OneTimeInit.lockFails at hs
  split at hs
  · rename_i hpc
    rw [if_pos hnoticed] at hs
    obtain rfl := Option.some.inj hs
    cases prog with
    | one_time_init => exact h.exit
    | exr3101 =>
      refine h.outside (by rw [hpc]; rfl) rfl fun j hj => ?_
      rcases eq_or_ne j i with rfl | hne
      · rw [Function.update_self, List.mem_append, List.mem_singleton] at hj
        exact hj.resolve_right he.ne
      · rwa [Function.update_of_ne hne] at hj
  · cases hs

theorem Inv.unlockFails (h : Inv s) {prog : Program} {e : ℤ} (hs : unlockFails prog e i s = some s') :
    Inv s' := by
  unfold OneTimeInit.unlockFails at hs
  split at hs
  · rename_i hpc
    obtain rfl := Option.some.inj hs
    split
    · cases prog with
      | one_time_init => exact h.exit
      | exr3101 => exact h.ret hpc s.mtx e
    · exact h.ret hpc s.mtx 0
  · cases hs

theorem Inv.step {prog : Program} {a : Act} (h : Inv s) (ha : Noticed prog s a)
    (hs : step prog s a = some s') : Inv s' := by
  simp only [OneTimeInit.step, Option.ite_none_left_eq_some] at hs
  obtain ⟨-, hs⟩ := hs
  cases a with
  | call i =>
    simp only [Option.ite_none_right_eq_some, Option.some.injEq] at hs
    obtain ⟨hpc, rfl⟩ := hs
    exact h.outside (by rw [hpc]; rfl) rfl fun _ hj => hj
  | thread i => exact h.threadStep hs
  | lockFails i e =>
    obtain ⟨he, hs⟩ := Option.ite_none_right_eq_some.mp hs
    exact h.lockFails he ha hs
  | unlockFails i e => exact h.unlockFails (Option.ite_none_right_eq_some.mp hs).2

end Steps

/-- `exr3101.c` notices every error. -/
theorem tests_exr3101 {e : ℤ} (he : 0 < e) : Program.exr3101.tests e = true := bne_iff_ne.mpr he.ne'

/-- In `one_time_init.c` the second thread's `pthread_mutex_lock()` fails while the first is in `init()`. -/
def unnoticed : List Act :=
  [.call 0, .thread 0, .thread 0, .call 1, .lockFails 1 22, .thread 1]

/-- **Once, if the errors are noticed**: in every run in which every failing call of
`pthread_mutex_lock()` is, `init()` begins at most once, and no call returns 0 before it has ended. With
the test of `exr3101.c` that is every run, with that of `one_time_init.c` it is not. -/
theorem init_once (prog : Program) :
    (∀ s, Reaches (oneTimeInit prog) (Noticed prog) s → Once s) ∧
      ((∀ s, Reachable (oneTimeInit prog) s → Once s) ↔ prog = .exr3101) ∧
      ∃ s, Reachable (oneTimeInit .one_time_init) s ∧ s.started = 2 := by
  have hnoticed : ∀ s, Reaches (oneTimeInit prog) (Noticed prog) s → Once s := fun s h =>
    (h.invariant (I := Inv) (fun _ hs => by cases hs; exact inv_start) fun _ _ _ hi ha hs =>
      hi.step ha hs).once
  have htwice : ∃ s, Reachable (oneTimeInit .one_time_init) s ∧ s.started = 2 := by
    have hrun : ((oneTimeInit .one_time_init).run start unnoticed).map State.started = some 2 := by decide
    obtain ⟨s, hs, htwo⟩ := Option.map_eq_some_iff.mp hrun
    exact ⟨s, System.reachable_of_run _ (.init rfl) hs, htwo⟩
  refine ⟨hnoticed, ⟨fun hall => ?_, fun hprog s h => ?_⟩, htwice⟩
  · cases prog with
    | exr3101 => rfl
    | one_time_init =>
      obtain ⟨s, hs, htwo⟩ := htwice
      have hone := (hall s hs).1
      rw [htwo] at hone
      cases Nat.not_succ_le_self 1 hone
  · cases hprog
    refine hnoticed s (h.invariant (I := Reaches (oneTimeInit .exr3101) (Noticed .exr3101))
      (fun _ hs => .init hs) fun s a s' hi _ hs => hi.step ?_ hs)
    cases a with
    | lockFails i e =>
      have he : 0 < e := by
        by_contra hno
        simp only [oneTimeInit, OneTimeInit.step, if_neg hno, ite_self, reduceCtorEq] at hs
      exact tests_exr3101 he
    | call i | thread i | unlockFails i e => trivial

/-! ## 3. Every call returns -/

/-- No call of the mutex fails. -/
def Act.succeeds : Act → Bool
  | .lockFails _ _ | .unlockFails _ _ => false
  | _ => true

/-- Nobody calls the function any more. -/
def Act.goesOn : Act → Bool
  | .thread _ => true
  | _ => false

/-- The mutex has an owner, who is inside. -/
structure Live (s : State) : Prop where
  inv : Inv s
  running : s.exited = false
  holder : ∀ i, s.mtx = some i → (s.pcs i).inside = true

/-- The steps that are left of a call. -/
def Pc.rank : Pc → ℕ
  | .idle => 0
  | .lock => 5
  | .test => 4
  | .init => 3
  | .set => 2
  | .unlock => 1

/-- What the call of a thread there is still to return. -/
def Pc.owed : Pc → List ℤ
  | .idle => []
  | _ => [0]

def State.budget (n : ℕ) (s : State) : ℕ := ∑ i ∈ Finset.range n, (s.pcs i).rank

section Progress

variable {s s' : State} {i : ℕ}

/-- A step of a thread: it goes on, in the mutex's terms too, and returns 0 when it returns. -/
structure Moves (i : ℕ) (s s' : State) (pc : Pc) : Prop where
  pcs : s'.pcs = Function.update s.pcs i pc
  rank : pc.rank < (s.pcs i).rank
  exited : s'.exited = s.exited
  mtx : s'.mtx = some i ∧ pc.inside = true ∨ s'.mtx = none
  owed : s'.returned i ++ pc.owed = s.returned i ++ (s.pcs i).owed
  others : ∀ j, j ≠ i → s'.returned j = s.returned j

theorem threadStep_moves (h : Inv s) (hs : threadStep i s = some s') : ∃ pc, Moves i s s' pc := by
  cases hpc : s.pcs i with
  | idle => simp only [threadStep, hpc, reduceCtorEq] at hs
  | lock =>
    simp only [threadStep, hpc, mutex, Option.map_eq_some_iff, Option.ite_none_right_eq_some,
      Option.some.injEq] at hs
    obtain ⟨mtx, ⟨-, rfl⟩, rfl⟩ := hs
    exact ⟨.test, rfl, by rw [hpc]; decide, rfl, .inl ⟨rfl, rfl⟩, by rw [hpc]; rfl, fun _ _ => rfl⟩
  | test =>
    have howner := h.owner i (by rw [hpc]; rfl)
    simp only [threadStep, hpc] at hs
    split at hs
    · obtain rfl := Option.some.inj hs
      exact ⟨.unlock, rfl, by rw [hpc]; decide, rfl, .inl ⟨howner, rfl⟩, by rw [hpc]; rfl, fun _ _ => rfl⟩
    · obtain rfl := Option.some.inj hs
      exact ⟨.init, rfl, by rw [hpc]; decide, rfl, .inl ⟨howner, rfl⟩, by rw [hpc]; rfl, fun _ _ => rfl⟩
  | init | set =>
    have howner := h.owner i (by rw [hpc]; rfl)
    simp only [threadStep, hpc, Option.some.injEq] at hs
    rw [← hs]
    exact ⟨_, rfl, by rw [hpc]; decide, rfl, .inl ⟨howner, rfl⟩, by rw [hpc]; rfl, fun _ _ => rfl⟩
  | unlock =>
    simp only [threadStep, hpc, mutex, Option.map_eq_some_iff, Option.ite_none_right_eq_some,
      Option.some.injEq] at hs
    obtain ⟨mtx, ⟨-, rfl⟩, rfl⟩ := hs
    refine ⟨.idle, rfl, by rw [hpc]; decide, rfl, .inr rfl, ?_, fun j hj => Function.update_of_ne hj ..⟩
    rw [hpc]
    exact (List.append_nil _).trans (Function.update_self ..)

/-- A thread's step is one of its own. -/
theorem rank_threadStep (h : Inv s) (hs : threadStep i s = some s') (j : ℕ) :
    (s'.pcs j).rank + (if decide (Act.thread i = .thread j) then 1 else 0) ≤ (s.pcs j).rank := by
  obtain ⟨pc, hmoves⟩ := threadStep_moves h hs
  rw [hmoves.pcs]
  by_cases hij : j = i
  · rw [hij, Function.update_self, decide_eq_true rfl, if_pos rfl]
    exact hmoves.rank
  · have hne : ¬ Act.thread i = .thread j := fun h => hij (Act.thread.inj h).symm
    rw [Function.update_of_ne hij, decide_eq_false hne]
    exact Nat.le_refl _

theorem Live.threadStep (h : Live s) (hs : threadStep i s = some s') : Live s' := by
  obtain ⟨pc, hmoves⟩ := threadStep_moves h.inv hs
  refine ⟨h.inv.threadStep hs, hmoves.exited.trans h.running, fun j hj => ?_⟩
  rcases hmoves.mtx with ⟨hmtx, hin⟩ | hmtx
  · obtain rfl : i = j := Option.some.inj (hmtx.symm.trans hj)
    rw [hmoves.pcs, Function.update_self]
    exact hin
  · rw [hmtx] at hj
    cases hj

theorem Live.step {prog : Program} {a : Act} (h : Live s) (ha : a.succeeds = true)
    (hs : OneTimeInit.step prog s a = some s') : Live s' := by
  simp only [OneTimeInit.step, Option.ite_none_left_eq_some] at hs
  obtain ⟨-, hs⟩ := hs
  cases a with
  | call i =>
    simp only [Option.ite_none_right_eq_some, Option.some.injEq] at hs
    obtain ⟨hpc, rfl⟩ := hs
    refine ⟨h.inv.outside (by rw [hpc]; rfl) rfl fun _ hj => hj, h.running, fun j hj => ?_⟩
    have hin := h.holder j hj
    have hne : j ≠ i := fun hc => by
      rw [hc, hpc] at hin
      cases hin
    exact (congrArg Pc.inside (Function.update_of_ne hne ..)).trans hin
  | thread i => exact h.threadStep hs
  | lockFails i e | unlockFails i e => cases ha

theorem live_of_reaches {prog : Program}
    (h : Reaches (oneTimeInit prog) (fun _ a => a.succeeds = true) s) : Live s :=
  h.invariant (I := Live) (fun _ hs => by cases hs; exact ⟨inv_start, rfl, fun _ hj => by cases hj⟩)
    fun _ _ _ hi ha hs => hi.step ha hs

/-- Where no thread can take a step, all are outside: the owner of the mutex could. -/
theorem Live.idle (h : Live s) (hrest : ∀ i, OneTimeInit.threadStep i s = none) : s.pcs i = .idle := by
  have hin : ∀ j, (s.pcs j).inside = false := fun j => by
    have hj := hrest j
    cases hpc : s.pcs j with
    | idle | lock => rfl
    | test =>
      simp only [OneTimeInit.threadStep, hpc] at hj
      split at hj <;> cases hj
    | init | set => simp only [OneTimeInit.threadStep, hpc, reduceCtorEq] at hj
    | unlock =>
      have howner := h.inv.owner j (by rw [hpc]; rfl)
      simp only [OneTimeInit.threadStep, hpc, mutex, if_pos howner, Option.map_some, reduceCtorEq] at hj
  -- the owner would be inside
  have hfree : s.mtx = none := by
    rw [Option.eq_none_iff_forall_ne_some]
    intro j hj
    have := h.holder j hj
    rw [hin j] at this
    cases this
  cases hpc : s.pcs i with
  | idle => rfl
  | lock =>
    have := hrest i
    simp only [OneTimeInit.threadStep, hpc, mutex, if_pos hfree, Option.map_some, reduceCtorEq] at this
  | test | init | set | unlock =>
    have := hin i
    rw [hpc] at this
    cases this

/-- On the way from `s`: nobody comes to the first `n` threads, and what they owe they do not forget. -/
structure Going (n : ℕ) (s t : State) : Prop where
  live : Live t
  idle : ∀ i, n ≤ i → t.pcs i = .idle
  owed : ∀ i, t.returned i ++ (t.pcs i).owed = s.returned i ++ (s.pcs i).owed

theorem Going.threadStep {n : ℕ} {t t' : State} (h : Going n s t)
    (hs : OneTimeInit.threadStep i t = some t') : Going n s t' ∧ t'.budget n < t.budget n := by
  obtain ⟨pc, hmoves⟩ := threadStep_moves h.live.inv hs
  have hrank := hmoves.rank
  -- the others have no call to go on with
  have hlt : i < n := by
    by_contra hge
    rw [h.idle i (Nat.le_of_not_lt hge)] at hrank
    cases hrank
  refine ⟨⟨h.live.threadStep hs, fun j hj => ?_, fun j => ?_⟩, ?_⟩
  · rw [hmoves.pcs, Function.update_of_ne (by omega)]
    exact h.idle j hj
  · rcases eq_or_ne j i with rfl | hne
    · rw [hmoves.pcs, Function.update_self, hmoves.owed]
      exact h.owed j
    · rw [hmoves.pcs, Function.update_of_ne hne, hmoves.others j hne]
      exact h.owed j
  · have hsum := sum_update_mem Pc.rank t.pcs pc (Finset.mem_range.mpr hlt)
    simp only [State.budget, hmoves.pcs]
    omega

end Progress

/-- **Every call returns**: from wherever the calls of the first `n` threads have got to without an error,
and whoever waits for the mutex, each takes the steps that are left of it at most, of five; where none
can go on, each has returned 0, and returned nothing else. -/
theorem calls_return {prog : Program} {s s' : State}
    (h : Reaches (oneTimeInit prog) (fun _ a => a.succeeds = true) s) {n : ℕ}
    (hn : ∀ i, n ≤ i → s.pcs i = .idle) (as : List Act)
    (hrun : (oneTimeInit prog).runWith (fun _ a => a.goesOn = true) s as = some s') :
    (∀ i, (as.filter (· = .thread i)).length ≤ (s.pcs i).rank ∧ (s.pcs i).rank ≤ 5) ∧
      as.length ≤ 5 * n ∧ ((∀ a, a.goesOn = true → step prog s' a = none) →
      ∀ i, s'.pcs i = .idle ∧ s'.returned i = s.returned i ++ (s.pcs i).owed) := by
  have hfive : ∀ i, (s.pcs i).rank ≤ 5 := fun i => by cases s.pcs i <;> decide
  have hbudget : s.budget n ≤ 5 * n :=
    calc s.budget n ≤ ∑ _ ∈ Finset.range n, 5 := Finset.sum_le_sum fun i _ => hfive i
      _ = (Finset.range n).card * 5 := Finset.sum_const_nat fun _ _ => rfl
      _ = 5 * n := by rw [Finset.card_range, Nat.mul_comm]
  obtain ⟨hgoing, hle⟩ := System.runWith_measure (S := oneTimeInit prog) (I := Going n s)
    (m := State.budget n) (fun t a t' hi ha hs => by
      simp only [oneTimeInit, step, Option.ite_none_left_eq_some] at hs
      cases a with
      | thread i => exact hi.threadStep hs.2
      | call i | lockFails i e | unlockFails i e => cases ha)
    as ⟨live_of_reaches h, hn, fun _ => rfl⟩ hrun
  have hsteps : ∀ i, (as.filter (· = .thread i)).length ≤ (s.pcs i).rank := fun i => by
    have hcount := (System.runWith_count (S := oneTimeInit prog) (I := Going n s)
      (m := fun t => (t.pcs i).rank) (p := fun a => decide (a = .thread i)) (fun t a t' hi ha hs => by
        simp only [oneTimeInit, step, Option.ite_none_left_eq_some] at hs
        cases a with
        | thread j => exact ⟨(hi.threadStep hs.2).1, rank_threadStep hi.live.inv hs.2 i⟩
        | call j | lockFails j e | unlockFails j e => cases ha)
      as ⟨live_of_reaches h, hn, fun _ => rfl⟩ hrun).2
    omega
  refine ⟨fun i => ⟨hsteps i, hfive i⟩, by omega, fun hrest i => ?_⟩
  have hpc : s'.pcs i = .idle := hgoing.live.idle fun j => by
    have hj := hrest (.thread j) rfl
    rwa [step, hgoing.live.running] at hj
  refine ⟨hpc, ?_⟩
  rw [← hgoing.owed i, hpc]
  exact (List.append_nil _).symm

/-- The first of three threads is in `init()`, and the others wait. -/
def threeCalls : State :=
  { ((((start.goto 0 .lock).goto 1 .lock).goto 2 .lock).goto 0 .test).goto 0 .init with
    mtx := some 0
    started := 1 }

theorem calls_return_three : ∃ s : State, s.started = 1 ∧ ∀ i, s.pcs i = .idle ∧
    s.returned i = threeCalls.returned i ++ (threeCalls.pcs i).owed := by
  have hreaches : Reaches (oneTimeInit .exr3101) (fun _ a => a.succeeds = true) threeCalls :=
    System.reaches_of_runWith [.call 0, .call 1, .call 2, .thread 0, .thread 0] (.init rfl) rfl
  obtain ⟨s, hs, hstarted, hidle⟩ : ∃ s, (oneTimeInit .exr3101).runWith (fun _ a => a.goesOn = true)
      threeCalls [.thread 0, .thread 0, .thread 0, .thread 2, .thread 2, .thread 2, .thread 1, .thread 1,
        .thread 1] = some s ∧ s.started = 1 ∧ ∀ i, s.pcs i = .idle := by
    refine ⟨_, rfl, rfl, fun i => ?_⟩
    rcases i with _ | _ | _ | i <;> rfl
  refine ⟨s, hstarted, (calls_return hreaches (n := 3) (fun i hi => ?_) _ hs).2.2 fun a ha => ?_⟩
  · obtain ⟨i, rfl⟩ := Nat.exists_eq_add_of_le hi
    rw [Nat.add_comm]
    rfl
  · cases a with
    | thread i => simp only [step, threadStep, hidle, ite_self]
    | call i | lockFails i e | unlockFails i e => cases ha

end Tlpi.OneTimeInit
