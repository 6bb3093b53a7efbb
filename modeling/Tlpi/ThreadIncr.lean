/-
`threads/thread_incr.c` and its siblings `thread_incr_mutex.c`, `thread_incr_rwlock.c`,
`thread_incr_spinlock.c`, `thread_lock_speed.c` and `psem/thread_incr_psem.c`: threads that increment
one variable, with a lock around it or with none.

## What is modelled

The programs are one, `threadIncr`, with the number of threads, of outer and inner loops and the lock
as parameters. The load from `glob` and the store to it are steps of their own. `main()` creates the
threads and joins them, one after the other, while those that exist run. `pthread_create()` and the
lock calls may fail, which ends the process.

`glob` is an `int`, and one that overflows wraps around, as it does where the machine adds; so nothing can
be said about more increments than an `int` counts: two threads of 1100000000 loops end with a negative
number. The theorems are about totals below that (`Config.Counts`), where no increment overflows.

## The shape of the argument

With a lock that excludes, the thread that is inside is the only one that may have a value of `glob` in
hand, and this value is the current one (`Locked.fresh`); hence `glob` is at any time the number of
increments that have been made.

With no lock the value in hand may be old. What is left of the count is that a thread that has stored
before, or that has loaded after somebody stored, has a value of 1 or more in hand, so that the last
store of all is of 2 or more, when the threads loop twice. That nothing more can be said is shown by
runs for every number from there on.
-/
import Mathlib.Algebra.BigOperators.Group.Finset.Basic
import Mathlib.Algebra.Order.BigOperators.Group.Finset
import Mathlib.Data.Int.Notation
import Tlpi.Locks
import Tlpi.Parties
import Tlpi.Transition

set_option autoImplicit false

namespace Tlpi.ThreadIncr

open Tlpi.Locks Tlpi.Parties Tlpi.Transition

/-! ## The programs -/

inductive LockKind where
  | none | mutex | rwlock | spinlock | semaphore
deriving Repr, DecidableEq

def LockKind.lock : LockKind → Lock
  | .none => unlocked
  | .mutex => Locks.mutex
  | .rwlock => Locks.rwlock
  | .spinlock => Locks.spinlock
  | .semaphore => Locks.semaphore

def LockKind.excludes : (kind : LockKind) → kind ≠ .none → kind.lock.Excludes
  | .none, h => absurd rfl h
  | .mutex, _ => mutexExcludes
  | .rwlock, _ => rwlockExcludes
  | .spinlock, _ => spinlockExcludes
  | .semaphore, _ => semaphoreExcludes

structure Config where
  numThreads : ℕ
  numOuterLoops : ℕ
  numInnerLoops : ℕ
  kind : LockKind
deriving Repr, DecidableEq

/-- An `int` that has overflowed. -/
def toInt (x : ℤ) : ℤ := x.bmod (2 ^ 32)

theorem toInt_eq {x : ℤ} (hlow : 0 ≤ x) (hhigh : x < 2 ^ 31) : toInt x = x :=
  Int.bmod_eq_of_le (by omega) (by omega)

def thread_incr (loops : ℕ) : Config := ⟨2, loops, 1, .none⟩

def thread_incr_mutex (loops : ℕ) : Config := ⟨2, loops, 1, .mutex⟩

def thread_incr_rwlock (loops : ℕ) : Config := ⟨2, loops, 1, .rwlock⟩

def thread_incr_spinlock (loops : ℕ) : Config := ⟨2, loops, 1, .spinlock⟩

def thread_incr_psem (loops : ℕ) : Config := ⟨2, loops, 1, .semaphore⟩

def thread_lock_speed (useMutex : Bool) (numThreads numInnerLoops numOuterLoops : ℕ) : Config :=
  ⟨numThreads, numOuterLoops, numInnerLoops, if useMutex then .mutex else .spinlock⟩

/-- Where a thread stands. -/
inductive ThreadPc where
  | absent
  /-- At the condition of the outer loop, `j` times around. -/
  | outer (j : ℕ)
  /-- At the condition of the inner loop, `k` times around that. -/
  | inner (j k : ℕ)
  /-- Before the store, with the value that it has loaded. -/
  | store (j k : ℕ) (loc : ℤ)
  | done
deriving Repr, DecidableEq

inductive MainPc where
  | create (i : ℕ)
  | join (i : ℕ)
  | print
  | exited | failed
deriving Repr, DecidableEq

structure State (cfg : Config) where
  main : MainPc
  thread : ℕ → ThreadPc
  lock : cfg.kind.lock.σ
  glob : ℤ
  printed : Option ℤ

variable {cfg : Config}

/-- `threadFunc()`, as far as the next access to `glob` or call. -/
def threadFunc (t : ℕ) (s : State cfg) : Option (State cfg) :=
  match s.thread t with
  | .absent | .done => none
  | .outer j =>
    if j < cfg.numOuterLoops then
      (cfg.kind.lock.acquire t s.lock).map fun lock =>
        { s with lock := lock, thread := Function.update s.thread t (.inner j 0) }
    else some { s with thread := Function.update s.thread t .done }
  | .inner j k =>
    if k < cfg.numInnerLoops then some { s with thread := Function.update s.thread t (.store j k s.glob) }
    else
      (cfg.kind.lock.release t s.lock).map fun lock =>
        { s with lock := lock, thread := Function.update s.thread t (.outer (j + 1)) }
  | .store j k loc =>
    some { s with glob := toInt (loc + 1), thread := Function.update s.thread t (.inner j (k + 1)) }

/-- One call of `main()`. -/
def mainStep (s : State cfg) : Option (State cfg) :=
  match s.main with
  | .create i =>
    if i < cfg.numThreads then
      some { s with main := .create (i + 1), thread := Function.update s.thread i (.outer 0) }
    else some { s with main := .join 0 }
  | .join i =>
    if i < cfg.numThreads then
      if s.thread i = .done then some { s with main := .join (i + 1) } else none
    else some { s with main := .print }
  | .print => some { s with main := .exited, printed := some s.glob }
  | .exited | .failed => none

def MainPc.ended : MainPc → Bool
  | .exited | .failed => true
  | _ => false

inductive Act where
  | main
  | thread (t : ℕ)
  /-- A call fails, and `nmsysErr()` ends the process. -/
  | fails
deriving Repr, DecidableEq

def step (s : State cfg) : Act → Option (State cfg)
  | .main => mainStep s
  | .thread t => if s.main.ended then none else threadFunc t s
  | .fails => if s.main.ended then none else some { s with main := .failed }

def start (cfg : Config) : State cfg where
  main := .create 0
  thread := fun _ => .absent
  lock := cfg.kind.lock.init
  glob := 0
  printed := none

def threadIncr (cfg : Config) : System (State cfg) Act where
  init := (· = start cfg)
  step := step

/-! ## How far the threads are -/

/-- The increments that a thread has made. -/
def ThreadPc.count (cfg : Config) : ThreadPc → ℕ
  | .absent => 0
  | .outer j => j * cfg.numInnerLoops
  | .inner j k | .store j k _ => j * cfg.numInnerLoops + k
  | .done => cfg.numOuterLoops * cfg.numInnerLoops

/-- All the increments so far. -/
def State.count (s : State cfg) : ℕ := ∑ t ∈ Finset.range cfg.numThreads, (s.thread t).count cfg

abbrev Config.total (cfg : Config) : ℕ := cfg.numThreads * (cfg.numOuterLoops * cfg.numInnerLoops)

/-- All the increments can be counted in an `int`. -/
abbrev Config.Counts (cfg : Config) : Prop := cfg.total < 2 ^ 31

def ThreadPc.inRange (cfg : Config) : ThreadPc → Prop
  | .absent | .done => True
  | .outer j => j ≤ cfg.numOuterLoops
  | .inner j k => j < cfg.numOuterLoops ∧ k ≤ cfg.numInnerLoops
  | .store j k _ => j < cfg.numOuterLoops ∧ k < cfg.numInnerLoops

/-- `main()` is past the joins. -/
def MainPc.joined (cfg : Config) : MainPc → ℕ
  | .create _ | .failed => 0
  | .join i => i
  | .print | .exited => cfg.numThreads

/-- The threads that are there, and how far they and `main()` are. -/
structure Inv (s : State cfg) : Prop where
  inRange : ∀ t, (s.thread t).inRange cfg
  exists_iff : ∀ i, s.main = .create i → i ≤ cfg.numThreads ∧ ∀ t, s.thread t ≠ .absent ↔ t < i
  created : ∀ i, s.main = .join i → ∀ t < cfg.numThreads, s.thread t ≠ .absent
  lt : ∀ t, s.thread t ≠ .absent → t < cfg.numThreads
  joined : s.main.joined cfg ≤ cfg.numThreads ∧ ∀ t < s.main.joined cfg, s.thread t = .done
  printed : ∀ g, s.printed = some g → s.main = .exited ∧ g = s.glob
  exited : s.main = .exited → s.printed = some s.glob

theorem inv_start (cfg : Config) : Inv (start cfg) where
  inRange _ := trivial
  exists_iff i hi := by
    obtain rfl := (MainPc.create.inj hi).symm
    exact ⟨Nat.zero_le _, fun t => iff_of_false (fun h => h rfl) (Nat.not_lt_zero t)⟩
  created i hi := by cases hi
  lt t ht := absurd rfl ht
  joined := ⟨Nat.zero_le _, fun t ht => absurd ht (Nat.not_lt_zero t)⟩
  printed g hg := by cases hg
  exited hm := by cases hm

/-- **What a thread can do**: one of four things, each of which leaves it in range and is counted. -/
inductive Does (t : ℕ) (s : State cfg) : State cfg → Prop
  | acquire {j : ℕ} {lock : cfg.kind.lock.σ} (hpc : s.thread t = .outer j) (hj : j < cfg.numOuterLoops)
      (hlock : cfg.kind.lock.acquire t s.lock = some lock) :
      Does t s { s with lock := lock, thread := Function.update s.thread t (.inner j 0) }
  | ends (hpc : s.thread t = .outer cfg.numOuterLoops) :
      Does t s { s with thread := Function.update s.thread t .done }
  | load {j k : ℕ} (hpc : s.thread t = .inner j k) (hj : j < cfg.numOuterLoops) (hk : k < cfg.numInnerLoops) :
      Does t s { s with thread := Function.update s.thread t (.store j k s.glob) }
  | release {j : ℕ} {lock : cfg.kind.lock.σ} (hpc : s.thread t = .inner j cfg.numInnerLoops)
      (hj : j < cfg.numOuterLoops) (hlock : cfg.kind.lock.release t s.lock = some lock) :
      Does t s { s with lock := lock, thread := Function.update s.thread t (.outer (j + 1)) }
  | store {j k : ℕ} {loc : ℤ} (hpc : s.thread t = .store j k loc) (hj : j < cfg.numOuterLoops)
      (hk : k < cfg.numInnerLoops) :
      Does t s { s with glob := toInt (loc + 1), thread := Function.update s.thread t (.inner j (k + 1)) }

section Steps

variable {s s' : State cfg} {t : ℕ}

theorem does_of_threadFunc (h : Inv s) (hs : threadFunc t s = some s') : Does t s s' := by
  have hrange := h.inRange t
  cases hpc : s.thread t with
  | absent => simp only [threadFunc, hpc, reduceCtorEq] at hs
  | done => simp only [threadFunc, hpc, reduceCtorEq] at hs
  | outer j =>
    rw [hpc] at hrange
    simp only [threadFunc, hpc] at hs
    split at hs
    · rename_i hj
      obtain ⟨lock, hlock, rfl⟩ := Option.map_eq_some_iff.mp hs
      exact .acquire hpc hj hlock
    · rename_i hj
      obtain rfl := Option.some.inj hs
      have hj : j = cfg.numOuterLoops := le_antisymm hrange (not_lt.mp hj)
      exact .ends (hj ▸ hpc)
  | inner j k =>
    rw [hpc] at hrange
    simp only [threadFunc, hpc] at hs
    split at hs
    · rename_i hk
      obtain rfl := Option.some.inj hs
      exact .load hpc hrange.1 hk
    · rename_i hk
      obtain ⟨lock, hlock, rfl⟩ := Option.map_eq_some_iff.mp hs
      have hk : k = cfg.numInnerLoops := le_antisymm hrange.2 (not_lt.mp hk)
      exact .release (hk ▸ hpc) hrange.1 hlock
  | store j k loc =>
    rw [hpc] at hrange
    simp only [threadFunc, hpc] at hs
    obtain rfl := Option.some.inj hs
    exact .store hpc hrange.1 hrange.2

/-- A thread moves, and the others and `main()` stay. -/
theorem Does.moves (hs : Does t s s') : ∃ pc, s'.thread = Function.update s.thread t pc ∧
    s'.main = s.main ∧ s'.printed = s.printed ∧ pc.inRange cfg ∧ pc ≠ .absent ∧ s.thread t ≠ .absent ∧
    s.thread t ≠ .done := by
  cases hs with
  | acquire hpc hj => exact ⟨_, rfl, rfl, rfl, ⟨hj, Nat.zero_le _⟩, nofun, by rw [hpc]; nofun, by rw [hpc]; nofun⟩
  | ends hpc => exact ⟨_, rfl, rfl, rfl, trivial, nofun, by rw [hpc]; nofun, by rw [hpc]; nofun⟩
  | load hpc hj hk => exact ⟨_, rfl, rfl, rfl, ⟨hj, hk⟩, nofun, by rw [hpc]; nofun, by rw [hpc]; nofun⟩
  | release hpc hj => exact ⟨_, rfl, rfl, rfl, Nat.succ_le_of_lt hj, nofun, by rw [hpc]; nofun, by rw [hpc]; nofun⟩
  | store hpc hj hk => exact ⟨_, rfl, rfl, rfl, ⟨hj, hk⟩, nofun, by rw [hpc]; nofun, by rw [hpc]; nofun⟩

theorem Inv.does (h : Inv s) (hended : s.main.ended = false) (hs : Does t s s') : Inv s' := by
  obtain ⟨pc, hthread, hmain, hprinted, hrange, hpc, habsent, hdone⟩ := hs.moves
  have hsame : ∀ u, s'.thread u ≠ .absent ↔ s.thread u ≠ .absent := fun u => by
    rw [hthread, Function.update_apply]
    split
    · rename_i hu
      rw [hu]
      exact iff_of_true hpc habsent
    · exact Iff.rfl
  refine ⟨fun u => ?_, fun i hi => ?_, fun i hi u hu => ?_, fun u hu => h.lt u ((hsame u).mp hu), ?_,
    fun g hg => ?_, fun hm => ?_⟩
  · rw [hthread, Function.update_apply]
    split
    · exact hrange
    · exact h.inRange u
  · rw [hmain] at hi
    exact ⟨(h.exists_iff i hi).1, fun u => (hsame u).trans ((h.exists_iff i hi).2 u)⟩
  · rw [hmain] at hi
    exact (hsame u).mpr (h.created i hi u hu)
  · rw [hmain]
    refine ⟨h.joined.1, fun u hu => ?_⟩
    have := h.joined.2 u hu
    have hut : u ≠ t := fun hut => hdone (by rw [← hut]; exact this)
    rw [hthread, Function.update_of_ne hut]
    exact this
  · rw [hprinted] at hg
    rw [(h.printed g hg).1] at hended
    cases hended
  · rw [← hmain, hm] at hended
    cases hended

/-- **What `main()` can do.** -/
inductive Manages (s : State cfg) : State cfg → Prop
  | create {i : ℕ} (hmain : s.main = .create i) (hi : i < cfg.numThreads) :
      Manages s { s with main := .create (i + 1), thread := Function.update s.thread i (.outer 0) }
  | created (hmain : s.main = .create cfg.numThreads) : Manages s { s with main := .join 0 }
  | join {i : ℕ} (hmain : s.main = .join i) (hi : i < cfg.numThreads) (hdone : s.thread i = .done) :
      Manages s { s with main := .join (i + 1) }
  | joined (hmain : s.main = .join cfg.numThreads) : Manages s { s with main := .print }
  | print (hmain : s.main = .print) : Manages s { s with main := .exited, printed := some s.glob }

theorem manages_of_mainStep (h : Inv s) (hs : mainStep s = some s') : Manages s s' := by
  cases hmain : s.main with
  | create i =>
    have hi := (h.exists_iff i hmain).1
    simp only [mainStep, hmain] at hs
    split at hs
    · rename_i hlt
      obtain rfl := Option.some.inj hs
      exact .create hmain hlt
    · rename_i hge
      obtain rfl := Option.some.inj hs
      exact .created (le_antisymm hi (not_lt.mp hge) ▸ hmain)
  | join i =>
    have hi := h.joined.1
    rw [hmain] at hi
    simp only [mainStep, hmain] at hs
    split at hs
    · rename_i hlt
      rw [Option.ite_none_right_eq_some, Option.some.injEq] at hs
      obtain ⟨hdone, rfl⟩ := hs
      exact .join hmain hlt hdone
    · rename_i hge
      obtain rfl := Option.some.inj hs
      exact .joined (le_antisymm hi (not_lt.mp hge) ▸ hmain)
  | print =>
    simp only [mainStep, hmain] at hs
    obtain rfl := Option.some.inj hs
    exact .print hmain
  | exited => simp only [mainStep, hmain, reduceCtorEq] at hs
  | failed => simp only [mainStep, hmain, reduceCtorEq] at hs

theorem Inv.not_printed (h : Inv s) (hmain : s.main ≠ .exited) (g : ℤ) : s.printed ≠ some g :=
  fun hg => hmain (h.printed g hg).1

theorem Inv.manages (h : Inv s) (hs : Manages s s') : Inv s' := by
  cases hs with
  | create hmain hi =>
    rename_i i
    have habsent : s.thread i = .absent := by
      by_contra hne
      exact Nat.lt_irrefl i (((h.exists_iff i hmain).2 i).mp hne)
    refine ⟨fun u => ?_, fun i' hi' => ?_, nofun, fun u hu => ?_, ⟨Nat.zero_le _, nofun⟩, fun g hg => ?_,
      nofun⟩
    · simp only [Function.update_apply]
      split
      · exact Nat.zero_le _
      · exact h.inRange u
    · obtain rfl := MainPc.create.inj hi'
      refine ⟨hi, fun u => ?_⟩
      simp only [Function.update_apply]
      split
      · rename_i hu
        exact iff_of_true nofun (by omega)
      · rename_i hu
        rw [(h.exists_iff i hmain).2 u]
        omega
    · simp only [Function.update_apply] at hu
      split at hu
      · rename_i hui
        rw [hui]
        exact hi
      · exact h.lt u hu
    · exact absurd hg (h.not_printed (by rw [hmain]; nofun) g)
  | created hmain =>
    exact ⟨h.inRange, nofun, fun _ _ u hu => ((h.exists_iff _ hmain).2 u).mpr hu, h.lt,
      ⟨Nat.zero_le _, nofun⟩, fun g hg => absurd hg (h.not_printed (by rw [hmain]; nofun) g), nofun⟩
  | join hmain hi hdone =>
    have hjoined := h.joined.2
    rw [hmain] at hjoined
    refine ⟨h.inRange, nofun, fun _ _ => h.created _ hmain, h.lt, ⟨hi, fun u hu => ?_⟩,
      fun g hg => absurd hg (h.not_printed (by rw [hmain]; nofun) g), nofun⟩
    rcases Nat.lt_succ_iff_lt_or_eq.mp hu with hu | rfl
    · exact hjoined u hu
    · exact hdone
  | joined hmain =>
    have hjoined := h.joined.2
    rw [hmain] at hjoined
    exact ⟨h.inRange, nofun, nofun, h.lt, ⟨le_rfl, hjoined⟩,
      fun g hg => absurd hg (h.not_printed (by rw [hmain]; nofun) g), nofun⟩
  | print hmain =>
    have hjoined := h.joined.2
    rw [hmain] at hjoined
    exact ⟨h.inRange, nofun, nofun, h.lt, ⟨le_rfl, hjoined⟩, fun g hg => ⟨rfl, (Option.some.inj hg).symm⟩,
      fun _ => rfl⟩

/-- **A step**, of a thread, of `main()` or into failure. -/
theorem step_cases {a : Act} (h : Inv s) (hs : step s a = some s') :
    (∃ t, s.main.ended = false ∧ Does t s s') ∨ Manages s s' ∨ s.main.ended = false ∧ s' = { s with main := .failed } := by
  cases a with
  | main => exact .inr (.inl (manages_of_mainStep h hs))
  | thread t =>
    simp only [step, Option.ite_none_left_eq_some] at hs
    exact .inl ⟨t, by simpa using hs.1, does_of_threadFunc h hs.2⟩
  | fails =>
    simp only [step, Option.ite_none_left_eq_some, Option.some.injEq] at hs
    exact .inr (.inr ⟨by simpa using hs.1, hs.2.symm⟩)

theorem Inv.step {a : Act} (h : Inv s) (hs : step s a = some s') : Inv s' := by
  obtain ⟨t, hended, hd⟩ | hm | ⟨hended, rfl⟩ := step_cases h hs
  · exact h.does hended hd
  · exact h.manages hm
  · refine ⟨h.inRange, nofun, nofun, h.lt, ⟨Nat.zero_le _, nofun⟩, fun g hg => ?_, nofun⟩
    exact absurd hg (h.not_printed (fun he => by rw [he] at hended; cases hended) g)

/-! ## What is counted -/

theorem ThreadPc.count_le {pc : ThreadPc} (h : pc.inRange cfg) :
    pc.count cfg ≤ cfg.numOuterLoops * cfg.numInnerLoops := by
  cases pc with
  | absent => exact Nat.zero_le _
  | done => exact le_rfl
  | outer j => exact Nat.mul_le_mul_right _ h
  | inner j k =>
    calc j * cfg.numInnerLoops + k ≤ j * cfg.numInnerLoops + cfg.numInnerLoops := Nat.add_le_add_left h.2 _
      _ = (j + 1) * cfg.numInnerLoops := (Nat.succ_mul ..).symm
      _ ≤ cfg.numOuterLoops * cfg.numInnerLoops := Nat.mul_le_mul_right _ h.1
  | store j k loc =>
    calc j * cfg.numInnerLoops + k ≤ j * cfg.numInnerLoops + cfg.numInnerLoops := Nat.add_le_add_left h.2.le _
      _ = (j + 1) * cfg.numInnerLoops := (Nat.succ_mul ..).symm
      _ ≤ cfg.numOuterLoops * cfg.numInnerLoops := Nat.mul_le_mul_right _ h.1

theorem Inv.count_le_total (h : Inv s) : s.count ≤ cfg.total := by
  have hle := Finset.sum_le_card_nsmul (Finset.range cfg.numThreads) (fun t => (s.thread t).count cfg) _
    fun t _ => ThreadPc.count_le (h.inRange t)
  rwa [Finset.card_range] at hle

theorem count_of_joined (h : ∀ t < cfg.numThreads, s.thread t = .done) : s.count = cfg.total := by
  have hsum : s.count = ∑ _t ∈ Finset.range cfg.numThreads, cfg.numOuterLoops * cfg.numInnerLoops :=
    Finset.sum_congr rfl fun t ht => by rw [h t (Finset.mem_range.mp ht)]; rfl
  rw [hsum, Finset.sum_const_nat fun _ _ => rfl, Finset.card_range]

/-- What `main()` does is not counted. -/
theorem Manages.count (h : Inv s) (hs : Manages s s') :
    s'.count = s.count ∧ s'.glob = s.glob ∧ s'.lock = s.lock ∧
      ∀ t, s'.thread t = s.thread t ∨ s.thread t = .absent ∧ s'.thread t = .outer 0 := by
  cases hs with
  | create hmain hi =>
    rename_i i
    have habsent : s.thread i = .absent := by
      by_contra hne
      exact Nat.lt_irrefl i (((h.exists_iff i hmain).2 i).mp hne)
    have hsum := sum_update_mem (ThreadPc.count cfg) s.thread (.outer 0) (Finset.mem_range.mpr hi)
    rw [habsent, ThreadPc.count, ThreadPc.count, Nat.zero_mul] at hsum
    refine ⟨hsum, rfl, rfl, fun t => ?_⟩
    simp only [Function.update_apply]
    split
    · rename_i ht
      rw [ht]
      exact .inr ⟨habsent, rfl⟩
    · exact .inl rfl
  | created | join | joined | print => exact ⟨rfl, rfl, rfl, fun _ => .inl rfl⟩

/-- Only the store is counted. -/
theorem Does.count (h : Inv s) (hs : Does t s s') :
    (s'.count = s.count ∧ s'.glob = s.glob) ∧ (∀ j k loc, s.thread t ≠ .store j k loc) ∨
      ∃ j k loc, s.thread t = .store j k loc ∧ s'.glob = toInt (loc + 1) ∧ s'.count = s.count + 1 := by
  have hmem : s.thread t ≠ .absent → t ∈ Finset.range cfg.numThreads := fun ht =>
    Finset.mem_range.mpr (h.lt t ht)
  cases hs with
  | @acquire j lock hpc =>
    have hsum := sum_update_mem (ThreadPc.count cfg) s.thread (.inner j 0) (hmem (by rw [hpc]; nofun))
    rw [hpc] at hsum
    exact .inl ⟨⟨Nat.add_right_cancel hsum, rfl⟩, by rw [hpc]; exact nofun⟩
  | ends hpc =>
    have hsum := sum_update_mem (ThreadPc.count cfg) s.thread .done (hmem (by rw [hpc]; nofun))
    rw [hpc] at hsum
    exact .inl ⟨⟨Nat.add_right_cancel hsum, rfl⟩, by rw [hpc]; exact nofun⟩
  | @load j k hpc =>
    have hsum := sum_update_mem (ThreadPc.count cfg) s.thread (.store j k s.glob) (hmem (by rw [hpc]; nofun))
    rw [hpc] at hsum
    exact .inl ⟨⟨Nat.add_right_cancel hsum, rfl⟩, by rw [hpc]; exact nofun⟩
  | @release j lock hpc =>
    have hsum := sum_update_mem (ThreadPc.count cfg) s.thread (.outer (j + 1)) (hmem (by rw [hpc]; nofun))
    rw [hpc, ThreadPc.count, ThreadPc.count, Nat.succ_mul] at hsum
    exact .inl ⟨⟨Nat.add_right_cancel hsum, rfl⟩, by rw [hpc]; exact nofun⟩
  | @store j k loc hpc =>
    have hsum := sum_update_mem (ThreadPc.count cfg) s.thread (.inner j (k + 1)) (hmem (by rw [hpc]; nofun))
    rw [hpc, ThreadPc.count, ThreadPc.count] at hsum
    refine .inr ⟨j, k, loc, hpc, rfl, ?_⟩
    simp only [State.count]
    omega

end Steps

/-! ## With a lock -/

/-- Between the lock calls. -/
def ThreadPc.inside : ThreadPc → Prop
  | .inner _ _ | .store _ _ _ => True
  | _ => False

/-- Where nobody is inside, or one thread is, which holds the lock. -/
def Exclusive (E : cfg.kind.lock.Excludes) (s : State cfg) : Prop :=
  (∀ t, ¬(s.thread t).inside) ∧ E.Free s.lock ∨
    ∃ t, E.HeldBy t s.lock ∧ ∀ u, (s.thread u).inside ↔ u = t

structure Locked (E : cfg.kind.lock.Excludes) (s : State cfg) : Prop where
  exclusive : Exclusive E s
  fresh : ∀ t j k loc, s.thread t = .store j k loc → loc = s.glob
  glob : s.glob = s.count

section Locked

variable {E : cfg.kind.lock.Excludes} {s s' : State cfg} {t : ℕ}

theorem Exclusive.lone (h : Exclusive E s) (ht : (s.thread t).inside) :
    E.HeldBy t s.lock ∧ ∀ u, (s.thread u).inside ↔ u = t := by
  obtain ⟨hnone, -⟩ | ⟨t', hheld, hiff⟩ := h
  · exact absurd ht (hnone t)
  · obtain rfl := (hiff t).mp ht
    exact ⟨hheld, hiff⟩

/-- A thread that stays on its side of the lock calls. -/
theorem Exclusive.keep (h : Exclusive E s) (hlock : s'.lock = s.lock)
    (hinside : ∀ u, (s'.thread u).inside ↔ (s.thread u).inside) : Exclusive E s' := by
  rw [Exclusive, hlock]
  simp only [hinside]
  exact h

theorem inside_update {thread : ℕ → ThreadPc} {pc : ThreadPc} (hpc : pc.inside ↔ (thread t).inside) (u : ℕ) :
    (Function.update thread t pc u).inside ↔ (thread u).inside := by
  rw [Function.update_apply]
  split
  · rename_i hu
    rw [hu]
    exact hpc
  · exact Iff.rfl

theorem Locked.does (hcfg : cfg.Counts) (hi : Inv s) (hi' : Inv s') (h : Locked E s) (hs : Does t s s') :
    Locked E s' := by
  have hcount := hs.count hi
  cases hs with
  | @acquire j lock hpc hj hlock =>
    have hcount := (hcount.resolve_right (by rw [hpc]; rintro ⟨_, _, _, hc, -⟩; cases hc)).1
    -- the lock was free, or it would not have been given
    obtain ⟨hnone, hfree⟩ := h.exclusive.resolve_right fun ⟨u, hheld, _⟩ => by
      rw [E.acquire_held t u _ hheld] at hlock
      cases hlock
    obtain ⟨lock', hlock', hheld⟩ := E.acquire_free t _ hfree
    obtain rfl : lock' = lock := Option.some.inj (hlock'.symm.trans hlock)
    refine ⟨.inr ⟨t, hheld, fun u => ?_⟩, fun u j' k loc hu => ?_, by rw [hcount.1, hcount.2, h.glob]⟩
    · simp only [Function.update_apply]
      split
      · rename_i hu
        exact iff_of_true trivial hu
      · rename_i hu
        exact iff_of_false (hnone u) hu
    · simp only [Function.update_apply] at hu
      split at hu
      · cases hu
      · exact h.fresh u j' k loc hu
  | ends hpc =>
    have hcount := (hcount.resolve_right (by rw [hpc]; rintro ⟨_, _, _, hc, -⟩; cases hc)).1
    refine ⟨h.exclusive.keep rfl (inside_update (by rw [hpc]; exact Iff.rfl)), fun u j' k loc hu => ?_,
      by rw [hcount.1, hcount.2, h.glob]⟩
    simp only [Function.update_apply] at hu
    split at hu
    · cases hu
    · exact h.fresh u j' k loc hu
  | @load j k hpc hj hk =>
    have hcount := (hcount.resolve_right (by rw [hpc]; rintro ⟨_, _, _, hc, -⟩; cases hc)).1
    refine ⟨h.exclusive.keep rfl (inside_update (by rw [hpc]; exact Iff.rfl)), fun u j' k' loc hu => ?_,
      by rw [hcount.1, hcount.2, h.glob]⟩
    simp only [Function.update_apply] at hu
    split at hu
    · exact (ThreadPc.store.inj hu).2.2.symm
    · exact h.fresh u j' k' loc hu
  | @release j lock hpc hj hlock =>
    have hcount := (hcount.resolve_right (by rw [hpc]; rintro ⟨_, _, _, hc, -⟩; cases hc)).1
    obtain ⟨hheld, hiff⟩ := h.exclusive.lone (t := t) (by rw [hpc]; trivial)
    obtain ⟨lock', hlock', hfree⟩ := E.release t _ hheld
    obtain rfl : lock' = lock := Option.some.inj (hlock'.symm.trans hlock)
    refine ⟨.inl ⟨fun u => ?_, hfree⟩, fun u j' k' loc hu => ?_, by rw [hcount.1, hcount.2, h.glob]⟩
    · simp only [Function.update_apply]
      split
      · exact id
      · rename_i hu
        exact fun hinside => hu ((hiff u).mp hinside)
    · simp only [Function.update_apply] at hu
      split at hu
      · cases hu
      · exact h.fresh u j' k' loc hu
  | @store j k loc hpc hj hk =>
    obtain ⟨j', k', loc', hpc', hglob, hcount⟩ := hcount.resolve_left fun hc => hc.2 j k loc hpc
    obtain ⟨hheld, hiff⟩ := h.exclusive.lone (t := t) (by rw [hpc]; trivial)
    refine ⟨h.exclusive.keep rfl (inside_update (by rw [hpc]; exact Iff.rfl)), fun u j' k' loc hu => ?_, ?_⟩
    · simp only [Function.update_apply] at hu
      split at hu
      · cases hu
      · -- nobody else has a value in hand
        rename_i hut
        exact absurd ((hiff u).mp (by rw [hu]; trivial)) hut
    · have hfresh := h.fresh t _ _ _ hpc'
      have hle := hi'.count_le_total
      rw [hglob, hfresh, h.glob, toInt_eq (by omega) (by omega), hcount]
      push_cast
      rfl

theorem Locked.manages (hi : Inv s) (h : Locked E s) (hs : Manages s s') : Locked E s' := by
  obtain ⟨hcount, hglob, hlock, hthread⟩ := hs.count hi
  refine ⟨h.exclusive.keep hlock fun u => ?_, fun u j k loc hu => ?_, by rw [hcount, hglob, h.glob]⟩
  · rcases hthread u with hu | ⟨hu, hu'⟩
    · rw [hu]
    · rw [hu, hu']
      exact Iff.rfl
  · rcases hthread u with hu' | ⟨-, hu'⟩
    · rw [hglob]
      exact h.fresh u j k loc (hu' ▸ hu)
    · rw [hu'] at hu
      cases hu

theorem Locked.step {a : Act} (hcfg : cfg.Counts) (hi : Inv s) (h : Locked E s) (hs : step s a = some s') :
    Locked E s' := by
  have hi' := hi.step hs
  obtain ⟨t, -, hd⟩ | hm | ⟨-, rfl⟩ := step_cases hi hs
  · exact h.does hcfg hi hi' hd
  · exact h.manages hi hm
  · exact ⟨h.exclusive, h.fresh, h.glob⟩

theorem locked_start (E : cfg.kind.lock.Excludes) : Locked E (start cfg) where
  exclusive := .inl ⟨fun _ => id, E.init⟩
  fresh t j k loc ht := by cases ht
  glob := by
    have hcount : (start cfg).count = 0 := Finset.sum_eq_zero fun _ _ => rfl
    rw [hcount]
    rfl

theorem locked_of_reachable {C : State cfg → Act → Prop} (hcfg : cfg.Counts) (E : cfg.kind.lock.Excludes)
    (h : Reaches (threadIncr cfg) C s) : Inv s ∧ Locked E s :=
  h.invariant (I := fun s => Inv s ∧ Locked E s) (fun _ hs => by rw [show _ = start cfg from hs]; exact ⟨inv_start cfg, locked_start E⟩)
    fun _ _ _ hi _ hs => ⟨hi.1.step hs, hi.2.step hcfg hi.1 hs⟩

end Locked

/-! ## The threads get through -/

/-- No call fails. -/
def NoFault (_ : State cfg) (a : Act) : Prop := a ≠ .fails

instance (s : State cfg) (a : Act) : Decidable (NoFault s a) := inferInstanceAs (Decidable (a ≠ .fails))

/-- A turn of the outer loop: the lock calls, and two steps for each turn of the inner loop. -/
abbrev Config.turn (cfg : Config) : ℕ := 2 * cfg.numInnerLoops + 2

def ThreadPc.budget (cfg : Config) : ThreadPc → ℕ
  | .absent => cfg.numOuterLoops * cfg.turn + 2
  | .outer j => (cfg.numOuterLoops - j) * cfg.turn + 1
  | .inner j k => (cfg.numOuterLoops - (j + 1)) * cfg.turn + 1 + (2 * (cfg.numInnerLoops - k) + 1)
  | .store j k _ => (cfg.numOuterLoops - (j + 1)) * cfg.turn + 1 + 2 * (cfg.numInnerLoops - k)
  | .done => 0

def MainPc.budget (cfg : Config) : MainPc → ℕ
  | .create _ => cfg.numThreads + 3
  | .join i => cfg.numThreads - i + 2
  | .print => 1
  | .exited | .failed => 0

def State.budget (s : State cfg) : ℕ :=
  ∑ t ∈ Finset.range cfg.numThreads, (s.thread t).budget cfg + s.main.budget cfg

theorem State.budget_start (cfg : Config) :
    (start cfg).budget = cfg.numThreads * (cfg.numOuterLoops * cfg.turn + 2) + cfg.numThreads + 3 := by
  have hsum : ∑ t ∈ Finset.range cfg.numThreads, ((start cfg).thread t).budget cfg =
      ∑ _t ∈ Finset.range cfg.numThreads, (cfg.numOuterLoops * cfg.turn + 2) := rfl
  rw [State.budget, hsum, Finset.sum_const_nat fun _ _ => rfl, Finset.card_range, Nat.add_assoc]
  rfl

section Progress

variable {s s' : State cfg} {t : ℕ}

theorem sub_turn {j : ℕ} (hj : j < cfg.numOuterLoops) :
    (cfg.numOuterLoops - j) * cfg.turn = (cfg.numOuterLoops - (j + 1)) * cfg.turn + cfg.turn := by
  have : cfg.numOuterLoops - j = cfg.numOuterLoops - (j + 1) + 1 := by omega
  rw [this, Nat.succ_mul]

theorem Does.budget_pc (hs : Does t s s') : ∃ pc, s'.thread = Function.update s.thread t pc ∧
    s'.main = s.main ∧ pc.budget cfg < (s.thread t).budget cfg := by
  cases hs with
  | acquire hpc hj =>
    refine ⟨_, rfl, rfl, ?_⟩
    rw [hpc, ThreadPc.budget, ThreadPc.budget, sub_turn hj, Config.turn]
    omega
  | ends hpc =>
    refine ⟨_, rfl, rfl, ?_⟩
    rw [hpc, ThreadPc.budget, ThreadPc.budget]
    exact Nat.succ_pos _
  | load hpc =>
    refine ⟨_, rfl, rfl, ?_⟩
    rw [hpc, ThreadPc.budget, ThreadPc.budget]
    omega
  | release hpc =>
    refine ⟨_, rfl, rfl, ?_⟩
    rw [hpc, ThreadPc.budget, ThreadPc.budget]
    omega
  | store hpc hj hk =>
    refine ⟨_, rfl, rfl, ?_⟩
    rw [hpc, ThreadPc.budget, ThreadPc.budget]
    omega

theorem budget_step {a : Act} (h : Inv s) (hC : NoFault s a) (hs : step s a = some s') :
    s'.budget < s.budget := by
  cases a with
  | fails => exact absurd rfl hC
  | thread t =>
    simp only [step, Option.ite_none_left_eq_some] at hs
    have hd := does_of_threadFunc h hs.2
    have hne := hd.moves
    obtain ⟨pc, hthread, hmain, hlt⟩ := hd.budget_pc
    have hmem : t ∈ Finset.range cfg.numThreads := by
      obtain ⟨_, _, _, _, _, _, habsent, _⟩ := hne
      exact Finset.mem_range.mpr (h.lt t habsent)
    have hsum := sum_update_mem (ThreadPc.budget cfg) s.thread pc hmem
    rw [State.budget, State.budget, hthread, hmain]
    omega
  | main =>
    cases manages_of_mainStep h hs with
    | @create i hmain hi =>
      have habsent : s.thread i = .absent := by
        by_contra hne
        exact Nat.lt_irrefl i (((h.exists_iff i hmain).2 i).mp hne)
      have hsum := sum_update_mem (ThreadPc.budget cfg) s.thread (.outer 0) (Finset.mem_range.mpr hi)
      rw [habsent] at hsum
      change _ + (cfg.numOuterLoops * cfg.turn + 2) = _ + (cfg.numOuterLoops * cfg.turn + 1) at hsum
      simp only [State.budget, hmain, MainPc.budget]
      omega
    | created hmain =>
      simp only [State.budget, hmain, MainPc.budget]
      omega
    | join hmain hi =>
      simp only [State.budget, hmain, MainPc.budget]
      omega
    | joined hmain =>
      simp only [State.budget, hmain, MainPc.budget]
      omega
    | print hmain =>
      simp only [State.budget, hmain, MainPc.budget]
      omega

theorem not_failed {a : Act} (h : Inv s) (hC : NoFault s a) (hs : step s a = some s') :
    s'.main ≠ .failed := by
  cases a with
  | fails => exact absurd rfl hC
  | thread t =>
    simp only [step, Option.ite_none_left_eq_some] at hs
    obtain ⟨_, _, hmain, _⟩ := (does_of_threadFunc h hs.2).moves
    rw [hmain]
    intro hfailed
    rw [hfailed] at hs
    exact hs.1 rfl
  | main => cases manages_of_mainStep h hs <;> exact nofun

/-- There is always somebody who can go on. -/
theorem not_stuck {E : cfg.kind.lock.Excludes} (h : Inv s) (hl : Locked E s) (hended : s.main.ended = false) :
    ∃ a s', NoFault s a ∧ step s a = some s' := by
  cases hmain : s.main with
  | create i =>
    by_cases hi : i < cfg.numThreads
    · exact ⟨.main, _, nofun, by simp only [step, mainStep, hmain, hi, if_true]; rfl⟩
    · exact ⟨.main, _, nofun, by simp only [step, mainStep, hmain, hi, if_false]; rfl⟩
  | print => exact ⟨.main, _, nofun, by simp only [step, mainStep, hmain]; rfl⟩
  | exited => rw [hmain] at hended; cases hended
  | failed => rw [hmain] at hended; cases hended
  | join i =>
    have hgo : ∀ u s', threadFunc u s = some s' → ∃ a s', NoFault s a ∧ step s a = some s' :=
      fun u s' hs => ⟨.thread u, s', nofun, by rw [step, hended]; exact hs⟩
    -- the one that is inside can go on, and with nobody inside so can the thread that is joined
    obtain ⟨hnone, hfree⟩ | ⟨u, hheld, hiff⟩ := hl.exclusive
    · by_cases hi : i < cfg.numThreads
      · cases hpc : s.thread i with
        | done => exact ⟨.main, _, nofun, by simp only [step, mainStep, hmain, hi, if_true, hpc]; rfl⟩
        | inner j k => exact absurd (by rw [hpc]; trivial) (hnone i)
        | store j k loc => exact absurd (by rw [hpc]; trivial) (hnone i)
        | absent => exact absurd hpc (h.created i hmain i hi)
        | outer j =>
          by_cases hj : j < cfg.numOuterLoops
          · obtain ⟨lock, hlock, -⟩ := E.acquire_free i _ hfree
            exact hgo i _ (by simp only [threadFunc, hpc, hj, if_true, hlock]; rfl)
          · exact hgo i _ (by simp only [threadFunc, hpc, hj, if_false]; rfl)
      · exact ⟨.main, _, nofun, by simp only [step, mainStep, hmain, hi, if_false]; rfl⟩
    · have hinside := (hiff u).mpr rfl
      cases hpc : s.thread u with
      | inner j k =>
        by_cases hk : k < cfg.numInnerLoops
        · exact hgo u _ (by simp only [threadFunc, hpc, hk, if_true]; rfl)
        · obtain ⟨lock, hlock, -⟩ := E.release u _ hheld
          exact hgo u _ (by simp only [threadFunc, hpc, hk, if_false, hlock]; rfl)
      | store j k loc => exact hgo u _ (by simp only [threadFunc, hpc]; rfl)
      | absent => rw [hpc] at hinside; exact hinside.elim
      | done => rw [hpc] at hinside; exact hinside.elim
      | outer j => rw [hpc] at hinside; exact hinside.elim

end Progress

/-- **With a lock no update is lost**: whichever of the locks it is, however the threads take turns and
wherever a call fails, `glob` is at no time more than all the increments (of which there are no more than
an `int` counts), and what is printed is exactly their number. -/
theorem updates_not_lost {s : State cfg} (h : Reachable (threadIncr cfg) s) (hkind : cfg.kind ≠ .none)
    (hcfg : cfg.Counts) : 0 ≤ s.glob ∧ s.glob ≤ cfg.total ∧ ∀ g, s.printed = some g → g = cfg.total := by
  obtain ⟨hi, hl⟩ := locked_of_reachable hcfg (LockKind.excludes cfg.kind hkind) h
  rw [hl.glob]
  refine ⟨Int.natCast_nonneg _, Int.ofNat_le.mpr hi.count_le_total, fun g hg => ?_⟩
  obtain ⟨hmain, rfl⟩ := hi.printed g hg
  have hjoined := hi.joined.2
  rw [hmain] at hjoined
  rw [hl.glob, count_of_joined hjoined]

/-- The first thread is done before the second begins. -/
def inTurn : List Act :=
  [.main, .main] ++ List.replicate 5 (.thread 0) ++ List.replicate 5 (.thread 1) ++ List.replicate 5 .main

theorem updates_not_lost_rwlock : ∃ s : State (thread_incr_rwlock 1),
    Reachable (threadIncr (thread_incr_rwlock 1)) s ∧ s.printed = some 2 ∧
      0 ≤ s.glob ∧ s.glob ≤ (thread_incr_rwlock 1).total ∧ ∀ g, s.printed = some g → g = (thread_incr_rwlock 1).total := by
  obtain ⟨s, hrun, hprinted⟩ : ∃ s, (threadIncr (thread_incr_rwlock 1)).run (start _) inTurn = some s ∧
      s.printed = some 2 := ⟨_, rfl, rfl⟩
  have h := System.reachable_of_run inTurn (.init rfl) hrun
  exact ⟨s, h, hprinted, updates_not_lost h (by decide) (by decide)⟩

/-- **The locks do not stop anybody for good**: without failing calls every run is bounded, and where
nothing more can happen, the number of all the increments has been printed (one that an `int` counts). -/
theorem always_prints {s : State cfg} (hkind : cfg.kind ≠ .none) (hcfg : cfg.Counts) (as : List Act)
    (hs : (threadIncr cfg).runWith NoFault (start cfg) as = some s) :
    as.length ≤ cfg.numThreads * (cfg.numOuterLoops * cfg.turn + 2) + cfg.numThreads + 3 ∧
      ((∀ a s', NoFault s a → step s a ≠ some s') → s.printed = some (cfg.total : ℤ)) := by
  have E := LockKind.excludes cfg.kind hkind
  obtain ⟨⟨hi, hl, hok⟩, hle⟩ := System.runWith_measure (S := threadIncr cfg)
    (I := fun s => Inv s ∧ Locked E s ∧ s.main ≠ .failed) (m := State.budget)
    (fun s a s' hi hC hs => ⟨⟨hi.1.step hs, hi.2.1.step hcfg hi.1 hs, not_failed hi.1 hC hs⟩,
      budget_step hi.1 hC hs⟩) as ⟨inv_start cfg, locked_start E, nofun⟩ hs
  rw [State.budget_start] at hle
  refine ⟨by omega, fun hstuck => ?_⟩
  have hended : s.main.ended = true := by
    by_contra hgoes
    obtain ⟨a, s', hC, hs'⟩ := not_stuck hi hl (by simpa using hgoes)
    exact hstuck a s' hC hs'
  have hmain : s.main = .exited := by
    cases hm : s.main with
    | exited => rfl
    | failed => exact absurd hm hok
    | _ => rw [hm] at hended; cases hended
  have hjoined := hi.joined.2
  rw [hmain] at hjoined
  rw [hi.exited hmain, hl.glob, count_of_joined hjoined]

theorem always_prints_mutex : ∃ s : State (thread_incr_mutex 1),
    (threadIncr (thread_incr_mutex 1)).runWith NoFault (start _) inTurn = some s ∧
      inTurn.length ≤ 2 * (1 * (thread_incr_mutex 1).turn + 2) + 2 + 3 ∧
      ((∀ a s', NoFault s a → step s a ≠ some s') → s.printed = some ((thread_incr_mutex 1).total : ℤ)) := by
  obtain ⟨s, hrun⟩ : ∃ s, (threadIncr (thread_incr_mutex 1)).runWith NoFault (start _) inTurn = some s :=
    ⟨_, rfl⟩
  exact ⟨s, hrun, always_prints (by decide) (by decide) inTurn hrun⟩

/-! ## With no lock -/

/-- What is left to say, with a lock or without. -/
structure Racy (s : State cfg) : Prop where
  le_count : 0 ≤ s.glob ∧ s.glob ≤ s.count
  loc_le : ∀ t j k loc, s.thread t = .store j k loc → 0 ≤ loc ∧ loc ≤ s.count
  stored : ∀ t, 0 < (s.thread t).count cfg → 1 ≤ s.glob
  loaded : ∀ t j k loc, s.thread t = .store j k loc → 0 < (s.thread t).count cfg → 1 ≤ loc
  last : s.count = cfg.total → 0 < cfg.total → min 2 (cfg.numOuterLoops * cfg.numInnerLoops : ℕ) ≤ s.glob

section Racy

variable {s s' : State cfg} {t : ℕ}

/-- When all has been counted, each thread has made all its increments. -/
theorem Inv.count_of_total (h : Inv s) (hcount : s.count = cfg.total) (ht : t < cfg.numThreads) :
    (s.thread t).count cfg = cfg.numOuterLoops * cfg.numInnerLoops := by
  have htotal : ∑ _t ∈ Finset.range cfg.numThreads, cfg.numOuterLoops * cfg.numInnerLoops = cfg.total := by
    rw [Finset.sum_const_nat fun _ _ => rfl, Finset.card_range]
  have hle : ∀ u ∈ Finset.range cfg.numThreads,
      (s.thread u).count cfg ≤ cfg.numOuterLoops * cfg.numInnerLoops := fun u _ => ThreadPc.count_le (h.inRange u)
  exact (Finset.sum_eq_sum_iff_of_le hle).mp (hcount.trans htotal.symm) t (Finset.mem_range.mpr ht)

/-- A step in which nobody stores. -/
theorem Racy.keep (h : Racy s) (hglob : s'.glob = s.glob) (hcount : s'.count = s.count)
    (hsame : ∀ u, (s'.thread u).count cfg = (s.thread u).count cfg)
    (hstore : ∀ u j k loc, s'.thread u = .store j k loc →
      s.thread u = .store j k loc ∨ loc = s.glob) : Racy s' := by
  refine ⟨?_, fun u j k loc hu => ?_, fun u hu => ?_, fun u j k loc hu hpos => ?_, fun hc hpos => ?_⟩
  · rw [hglob, hcount]
    exact h.le_count
  · rw [hcount]
    rcases hstore u j k loc hu with hu | rfl
    · exact h.loc_le u j k loc hu
    · exact h.le_count
  · rw [hglob]
    exact h.stored u (hsame u ▸ hu)
  · rw [hsame u] at hpos
    rcases hstore u j k loc hu with hu | rfl
    · exact h.loaded u j k loc hu hpos
    · exact h.stored u hpos
  · rw [hglob]
    exact h.last (hcount ▸ hc) hpos

theorem count_update {thread : ℕ → ThreadPc} {pc : ThreadPc} (hpc : pc.count cfg = (thread t).count cfg) (u : ℕ) :
    (Function.update thread t pc u).count cfg = (thread u).count cfg := by
  rw [Function.update_apply]
  split
  · rename_i hu
    rw [hu]
    exact hpc
  · rfl

theorem Racy.does (hcfg : cfg.Counts) (hi : Inv s) (hi' : Inv s') (h : Racy s) (hs : Does t s s') : Racy s' := by
  have hcount := hs.count hi
  cases hs with
  | @acquire j lock hpc =>
    have hcount := (hcount.resolve_right (by rw [hpc]; rintro ⟨_, _, _, hc, -⟩; cases hc)).1
    refine h.keep rfl hcount.1 (count_update (by rw [hpc]; rfl)) fun u j' k loc hu => ?_
    simp only [Function.update_apply] at hu
    split at hu
    · cases hu
    · exact .inl hu
  | ends hpc =>
    have hcount := (hcount.resolve_right (by rw [hpc]; rintro ⟨_, _, _, hc, -⟩; cases hc)).1
    refine h.keep rfl hcount.1 (count_update (by rw [hpc]; rfl)) fun u j' k loc hu => ?_
    simp only [Function.update_apply] at hu
    split at hu
    · cases hu
    · exact .inl hu
  | @load j k hpc =>
    have hcount := (hcount.resolve_right (by rw [hpc]; rintro ⟨_, _, _, hc, -⟩; cases hc)).1
    refine h.keep rfl hcount.1 (count_update (by rw [hpc]; rfl)) fun u j' k' loc hu => ?_
    simp only [Function.update_apply] at hu
    split at hu
    · exact .inr (ThreadPc.store.inj hu).2.2.symm
    · exact .inl hu
  | @release j lock hpc =>
    have hcount := (hcount.resolve_right (by rw [hpc]; rintro ⟨_, _, _, hc, -⟩; cases hc)).1
    refine h.keep rfl hcount.1 (count_update (by rw [hpc]; exact Nat.succ_mul ..)) fun u j' k loc hu => ?_
    simp only [Function.update_apply] at hu
    split at hu
    · cases hu
    · exact .inl hu
  | @store j k loc hpc hj hk =>
    obtain ⟨-, -, -, -, -, hcount⟩ := hcount.resolve_left fun hc => hc.2 j k loc hpc
    obtain ⟨hnonneg, hle⟩ := h.loc_le t j k loc hpc
    have hstored : toInt (loc + 1) = loc + 1 := by
      have := hi'.count_le_total
      exact toInt_eq (by omega) (by omega)
    simp only [hstored] at hcount hi' ⊢
    refine ⟨?_, fun u j' k' loc' hu => ?_, fun u hu => ?_, fun u j' k' loc' hu hpos => ?_, fun hc hpos => ?_⟩
    · rw [hcount]
      push_cast
      exact ⟨by omega, by omega⟩
    · simp only [Function.update_apply] at hu
      split at hu
      · cases hu
      · have := h.loc_le u j' k' loc' hu
        rw [hcount]
        push_cast
        omega
    · simp only
      omega
    · simp only [Function.update_apply] at hu hpos
      split at hu
      · cases hu
      · rename_i hut
        rw [if_neg hut] at hpos
        exact h.loaded u j' k' loc' hu hpos
    · -- the store that is the last of all is the last of its thread
      have ht : t < cfg.numThreads := hi.lt t (by rw [hpc]; nofun)
      have hfull := hi'.count_of_total hc ht
      simp only [Function.update_self, ThreadPc.count] at hfull
      have hloaded := h.loaded t j k loc hpc
      rw [hpc, ThreadPc.count] at hloaded
      have hn : 0 < cfg.numOuterLoops * cfg.numInnerLoops := Nat.pos_of_mul_pos_left hpos
      rw [← hfull] at hn ⊢
      simp only
      by_cases hone : 0 < j * cfg.numInnerLoops + k
      · have := hloaded hone
        omega
      · omega

theorem Racy.step {a : Act} (hcfg : cfg.Counts) (hi : Inv s) (h : Racy s) (hs : step s a = some s') : Racy s' := by
  have hi' := hi.step hs
  obtain ⟨t, -, hd⟩ | hm | ⟨-, rfl⟩ := step_cases hi hs
  · exact h.does hcfg hi hi' hd
  · obtain ⟨hcount, hglob, -, hthread⟩ := hm.count hi
    refine h.keep hglob hcount (fun u => ?_) fun u j k loc hu => ?_
    · rcases hthread u with hu | ⟨hu, hu'⟩
      · rw [hu]
      · rw [hu, hu', ThreadPc.count, ThreadPc.count, Nat.zero_mul]
    · rcases hthread u with hu' | ⟨-, hu'⟩
      · exact .inl (hu' ▸ hu)
      · rw [hu'] at hu
        cases hu
  · exact ⟨h.le_count, h.loc_le, h.stored, h.loaded, h.last⟩

theorem racy_of_reachable (hcfg : cfg.Counts) (h : Reachable (threadIncr cfg) s) : Inv s ∧ Racy s := by
  refine h.invariant (I := fun s => Inv s ∧ Racy s) (fun s hs => ?_)
    fun _ _ _ hi _ hs => ⟨hi.1.step hs, hi.2.step hcfg hi.1 hs⟩
  rw [show s = start cfg from hs]
  have hcount : (start cfg).count = 0 := Finset.sum_eq_zero fun _ _ => rfl
  refine ⟨inv_start cfg, ⟨⟨le_rfl, by rw [hcount]; rfl⟩, nofun, fun _ hpos => absurd hpos (Nat.lt_irrefl 0), nofun,
    fun hc hpos => ?_⟩⟩
  rw [← hc, hcount] at hpos
  exact absurd hpos (Nat.lt_irrefl 0)

end Racy

/-! ## Every number that is left can come out -/

/-- Two threads, of which the first is here and the second there. -/
def two (a b : ThreadPc) (t : ℕ) : ThreadPc := if t = 0 then a else if t = 1 then b else .absent

theorem update_two_first (a b c : ThreadPc) : Function.update (two a b) 0 c = two c b := by
  funext t
  rw [Function.update_apply]
  simp only [two]
  split <;> rfl

theorem update_two_second (a b c : ThreadPc) : Function.update (two a b) 1 c = two a c := by
  funext t
  rw [Function.update_apply]
  simp only [two]
  split
  · rename_i ht
    subst ht
    rfl
  · rfl

section Attained

variable {loops : ℕ}

/-- While `main()` waits for the first of two threads. -/
def at_ (loops : ℕ) (a b : ThreadPc) (g : ℤ) : State (thread_incr loops) where
  main := .join 0
  thread := two a b
  lock := ()
  glob := g
  printed := none

/-- Such a state is reached. -/
abbrev At (loops : ℕ) (a b : ThreadPc) (g : ℤ) : Prop :=
  Reachable (threadIncr (thread_incr loops)) (at_ loops a b g)

theorem At.first {a b c : ThreadPc} {g g' : ℤ} (h : At loops a b g)
    (hs : threadFunc 0 (at_ loops a b g) = some { at_ loops a b g with thread := two c b, glob := g' }) :
    At loops c b g' :=
  h.step (a := .thread 0) trivial hs

theorem At.second {a b c : ThreadPc} {g g' : ℤ} (h : At loops a b g)
    (hs : threadFunc 1 (at_ loops a b g) = some { at_ loops a b g with thread := two a c, glob := g' }) :
    At loops a c g' :=
  h.step (a := .thread 1) trivial hs

theorem at_start : At loops (.outer 0) (.outer 0) 0 := by
  have hfirst : two (.outer 0) .absent = Function.update (fun _ => .absent) 0 (.outer 0) := by
    funext t
    rw [Function.update_apply]
    simp only [two]
    split
    · rfl
    · split <;> rfl
  have h1 : step (start (thread_incr loops)) .main =
      some { start (thread_incr loops) with main := .create 1, thread := two (.outer 0) .absent } := by
    rw [hfirst]
    rfl
  have h2 : step { start (thread_incr loops) with main := .create 1, thread := two (.outer 0) .absent } .main =
      some { start (thread_incr loops) with main := .create 2, thread := two (.outer 0) (.outer 0) } := by
    rw [← update_two_second (.outer 0) .absent (.outer 0)]
    rfl
  have hstart : Reachable (threadIncr (thread_incr loops)) (start (thread_incr loops)) := .init rfl
  have hone := hstart.step (a := Act.main) trivial h1
  have htwo := hone.step (a := Act.main) trivial h2
  exact htwo.step (a := Act.main) trivial rfl

/-- The first thread loads. -/
theorem At.load_first {j : ℕ} {b : ThreadPc} {g : ℤ} (h : At loops (.outer j) b g) (hj : j < loops) :
    At loops (.store j 0 g) b g := by
  have h1 : At loops (.inner j 0) b g := h.first (by
    have hpc : (at_ loops (.outer j) b g).thread 0 = .outer j := rfl
    rw [← update_two_first (.outer j)]
    simp only [threadFunc, hpc]
    rw [if_pos (show j < (thread_incr loops).numOuterLoops from hj)]
    rfl)
  exact h1.first (by rw [← update_two_first (.inner j 0)]; rfl)

/-- And stores, and goes around. -/
theorem At.store_first {j : ℕ} {b : ThreadPc} {g loc : ℤ} (h : At loops (.store j 0 loc) b g)
    (hlow : 0 ≤ loc) (hhigh : loc + 1 < 2 ^ 31) : At loops (.outer (j + 1)) b (loc + 1) := by
  rw [← toInt_eq (by omega) hhigh]
  have h1 : At loops (.inner j 1) b (toInt (loc + 1)) := h.first (by rw [← update_two_first (.store j 0 loc)]; rfl)
  exact h1.first (by rw [← update_two_first (.inner j 1)]; rfl)

theorem At.load_second {j : ℕ} {a : ThreadPc} {g : ℤ} (h : At loops a (.outer j) g) (hj : j < loops) :
    At loops a (.store j 0 g) g := by
  have h1 : At loops a (.inner j 0) g := h.second (by
    have hpc : (at_ loops a (.outer j) g).thread 1 = .outer j := rfl
    rw [← update_two_second a (.outer j)]
    simp only [threadFunc, hpc]
    rw [if_pos (show j < (thread_incr loops).numOuterLoops from hj)]
    rfl)
  exact h1.second (by rw [← update_two_second a (.inner j 0)]; rfl)

theorem At.store_second {j : ℕ} {a : ThreadPc} {g loc : ℤ} (h : At loops a (.store j 0 loc) g)
    (hlow : 0 ≤ loc) (hhigh : loc + 1 < 2 ^ 31) : At loops a (.outer (j + 1)) (loc + 1) := by
  rw [← toInt_eq (by omega) hhigh]
  have h1 : At loops a (.inner j 1) (toInt (loc + 1)) := h.second (by rw [← update_two_second a (.store j 0 loc)]; rfl)
  exact h1.second (by rw [← update_two_second a (.inner j 1)]; rfl)

/-- The first thread goes around `k` times, and nobody else does anything. -/
theorem At.loop_first {j : ℕ} {b : ThreadPc} {g : ℤ} (h : At loops (.outer j) b g)
    (hlow : 0 ≤ g) : ∀ k : ℕ, j + k ≤ loops → g + k < 2 ^ 31 → At loops (.outer (j + k)) b (g + k) := by
  intro k
  induction k with
  | zero =>
    intro _ _
    simpa using h
  | succ k ih =>
    intro hk hhigh
    have hnext := ((ih (by omega) (by omega)).load_first (by omega)).store_first (by omega) (by omega)
    rw [Int.natCast_succ, ← Int.add_assoc]
    exact hnext

theorem At.loop_second {j : ℕ} {a : ThreadPc} {g : ℤ} (h : At loops a (.outer j) g)
    (hlow : 0 ≤ g) : ∀ k : ℕ, j + k ≤ loops → g + k < 2 ^ 31 → At loops a (.outer (j + k)) (g + k) := by
  intro k
  induction k with
  | zero =>
    intro _ _
    simpa using h
  | succ k ih =>
    intro hk hhigh
    have hnext := ((ih (by omega) (by omega)).load_second (by omega)).store_second (by omega) (by omega)
    rw [Int.natCast_succ, ← Int.add_assoc]
    exact hnext

/-- Both threads end, and the number is printed. -/
theorem At.prints {g : ℤ} (h : At loops (.outer loops) (.outer loops) g) :
    ∃ s, Reachable (threadIncr (thread_incr loops)) s ∧ s.printed = some g := by
  have hends : ¬loops < (thread_incr loops).numOuterLoops := Nat.lt_irrefl loops
  have h1 : At loops .done (.outer loops) g := h.first (by
    have hpc : (at_ loops (.outer loops) (.outer loops) g).thread 0 = .outer loops := rfl
    rw [← update_two_first (.outer loops)]
    simp only [threadFunc, hpc]
    rw [if_neg hends]
    rfl)
  have h2 : At loops .done .done g := h1.second (by
    have hpc : (at_ loops .done (.outer loops) g).thread 1 = .outer loops := rfl
    rw [← update_two_second .done (.outer loops)]
    simp only [threadFunc, hpc]
    rw [if_neg hends]
    rfl)
  have h3 : Reachable _ { at_ loops .done .done g with main := .join 1 } := h2.step (a := Act.main) trivial rfl
  have h4 : Reachable _ { at_ loops .done .done g with main := .join 2 } := h3.step (a := Act.main) trivial rfl
  have h5 : Reachable _ { at_ loops .done .done g with main := .print } := h4.step (a := Act.main) trivial rfl
  exact ⟨_, h5.step (a := Act.main) trivial rfl, rfl⟩

/-- The first thread keeps what it has loaded at the start, until the second has gone around `m` times:
all these are lost. -/
theorem prints_high {m : ℕ} (hloops : 1 ≤ loops) (hint : 2 * loops < 2 ^ 31) (hm : m ≤ loops) :
    ∃ s, Reachable (threadIncr (thread_incr loops)) s ∧ s.printed = some (2 * loops - m : ℤ) := by
  have h1 := (at_start : At loops _ _ _).load_first hloops
  have h2 := h1.loop_second le_rfl m (by omega) (by omega)
  have h3 := (h2.store_first le_rfl (by omega)).loop_first (by omega) (loops - 1) (by omega) (by omega)
  have h4 := h3.loop_second (by omega) (loops - m) (by omega) (by omega)
  have hfirst : 0 + 1 + (loops - 1) = loops := by omega
  have hsecond : 0 + m + (loops - m) = loops := by omega
  have hglob : (0 + 1 + ((loops - 1 : ℕ) : ℤ) + ((loops - m : ℕ) : ℤ)) = 2 * loops - m := by omega
  rw [hfirst, hsecond, hglob] at h4
  exact h4.prints

/-- The second thread loads for the last time when the first has gone around `k + 1` times since its
old value undid the work of the second, and stores when the first is done. -/
theorem prints_low {k : ℕ} (hloops : 2 ≤ loops) (hint : 2 * loops < 2 ^ 31) (hk : k + 1 ≤ loops) :
    ∃ s, Reachable (threadIncr (thread_incr loops)) s ∧ s.printed = some (2 + k : ℤ) := by
  have h1 := (at_start : At loops _ _ _).load_first (by omega)
  have h2 := h1.loop_second le_rfl (loops - 1) (by omega) (by omega)
  have h3 := (h2.store_first le_rfl (by omega)).loop_first (by omega) k (by omega) (by omega)
  have h4 := (h3.load_second (by omega)).loop_first (by omega) (loops - 1 - k) (by omega) (by omega)
  have h5 := h4.store_second (by omega) (by omega)
  have hfirst : 0 + 1 + k + (loops - 1 - k) = loops := by omega
  have hsecond : 0 + (loops - 1) + 1 = loops := by omega
  have hglob : (0 + 1 + (k : ℤ) + 1) = 2 + k := by omega
  rw [hfirst, hsecond, hglob] at h5
  exact h5.prints

end Attained

/-- **With no lock, this is what can come out**: two threads that increment `loops` times each can leave
any number from 2 on, or from 1 on if each of them does so once, up to the number of all the
increments (if an `int` counts them), and no other. -/
theorem possible_totals {loops : ℕ} (hloops : 1 ≤ loops) (hint : 2 * loops < 2 ^ 31) (g : ℤ) :
    (∃ s, Reachable (threadIncr (thread_incr loops)) s ∧ s.printed = some g) ↔
      min 2 (loops : ℤ) ≤ g ∧ g ≤ 2 * loops := by
  constructor
  · rintro ⟨s, h, hprinted⟩
    have htotal : (thread_incr loops).total = 2 * loops := by
      simp only [Config.total, thread_incr, Nat.mul_one]
    obtain ⟨hi, hr⟩ := racy_of_reachable (by rwa [Config.Counts, htotal]) h
    obtain ⟨hmain, rfl⟩ := hi.printed g hprinted
    have hjoined := hi.joined.2
    rw [hmain] at hjoined
    have hcount := count_of_joined hjoined
    have hlast := hr.last hcount (by omega)
    have hle := hr.le_count.2
    rw [hcount, htotal] at hle
    simp only [thread_incr, Nat.mul_one] at hlast
    push_cast at hlast hle
    exact ⟨by omega, hle⟩
  · rintro ⟨hlow, hhigh⟩
    by_cases hg : (loops : ℤ) ≤ g
    · have h := prints_high (m := (2 * loops - g).toNat) hloops hint (by omega)
      have hm : (2 * loops - ((2 * loops - g).toNat : ℤ)) = g := by omega
      rwa [hm] at h
    · have h := prints_low (k := (g - 2).toNat) (show 2 ≤ loops by omega) hint (by omega)
      have hk : (2 + ((g - 2).toNat : ℤ)) = g := by omega
      rwa [hk] at h

/-- With its ten million loops the program may print 2, and never 1. -/
theorem possible_totals_ten_million :
    (∃ s, Reachable (threadIncr (thread_incr 10000000)) s ∧ s.printed = some 2) ∧
      ¬∃ s, Reachable (threadIncr (thread_incr 10000000)) s ∧ s.printed = some 1 := by
  refine ⟨(possible_totals (by decide) (by decide) 2).mpr ⟨by decide, by decide⟩, fun h => ?_⟩
  have hlow := ((possible_totals (by decide) (by decide) 1).mp h).1
  exact absurd hlow (by decide)

end Tlpi.ThreadIncr
