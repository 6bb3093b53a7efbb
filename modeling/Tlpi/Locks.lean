/-
The **lock layer**: what a program may rely on that puts its threads' accesses to shared data between
two calls. Nothing here is about this repository.

A lock is a state, a call that acquires it and one that releases it; a call that blocks, or that the
standard leaves undefined, is not enabled (`none`). `Excludes` is the promise: a lock that is free can
be acquired, one that is held cannot, and the holder can release it. The locks of POSIX keep it, each
as it is commonly used for mutual exclusion; no lock at all does not.
-/
import Mathlib.Data.Nat.Notation
import Mathlib.Tactic.Common

set_option autoImplicit false

namespace Tlpi.Locks

/-- A lock; the threads are numbered. -/
structure Lock where
  σ : Type
  init : σ
  acquire : ℕ → σ → Option σ
  release : ℕ → σ → Option σ

/-- What makes it one. -/
structure Lock.Excludes (L : Lock) where
  Free : L.σ → Prop
  HeldBy : ℕ → L.σ → Prop
  init : Free L.init
  acquire_free : ∀ t s, Free s → ∃ s', L.acquire t s = some s' ∧ HeldBy t s'
  acquire_held : ∀ t u s, HeldBy u s → L.acquire t s = none
  release : ∀ t s, HeldBy t s → ∃ s', L.release t s = some s' ∧ Free s'

/-- No lock. -/
def unlocked : Lock where
  σ := Unit
  init := ()
  acquire _ s := some s
  release _ s := some s

/-- A mutex, `pthread_mutex_lock()` and `pthread_mutex_unlock()`: it has an owner. -/
def mutex : Lock where
  σ := Option ℕ
  init := none
  acquire t owner := if owner = none then some (some t) else none
  release t owner := if owner = some t then some none else none

def mutexExcludes : mutex.Excludes where
  Free owner := owner = none
  HeldBy t owner := owner = some t
  init := rfl
  acquire_free t owner h := ⟨some t, if_pos h, rfl⟩
  acquire_held t u owner h := if_neg fun hc => by rw [h] at hc; cases hc
  release t owner h := ⟨none, if_pos h, rfl⟩

/-- A read/write lock, `pthread_rwlock_wrlock()` and `pthread_rwlock_unlock()`. -/
structure RwState where
  writer : Option ℕ
  readers : ℕ
deriving Repr, DecidableEq

def rwlock : Lock where
  σ := RwState
  init := { writer := none, readers := 0 }
  acquire t s := if s.writer = none ∧ s.readers = 0 then some { s with writer := some t } else none
  release t s := if s.writer = some t then some { s with writer := none } else none

def rwlockExcludes : rwlock.Excludes where
  Free s := s.writer = none ∧ s.readers = 0
  HeldBy t s := s.writer = some t ∧ s.readers = 0
  init := ⟨rfl, rfl⟩
  acquire_free t s h := ⟨{ s with writer := some t }, if_pos h, rfl, h.2⟩
  acquire_held t u s h := if_neg fun hc => by rw [h.1] at hc; cases hc.1
  release t s h := ⟨{ s with writer := none }, if_pos h.1, rfl, h.2⟩

/-- A spin lock, `pthread_spin_lock()` and `pthread_spin_unlock()`. -/
def spinlock : Lock where
  σ := Bool
  init := false
  acquire _ s := if s then none else some true
  release _ s := if s then some false else none

def spinlockExcludes : spinlock.Excludes where
  Free s := s = false
  HeldBy _ s := s = true
  init := rfl
  acquire_free t s h := ⟨true, by rw [h]; rfl, rfl⟩
  acquire_held t u s h := if_pos h
  release t s h := ⟨false, if_pos h, rfl⟩

/-- A semaphore of the value 1, `sem_wait()` and `sem_post()`. -/
def semaphore : Lock where
  σ := ℕ
  init := 1
  acquire _ value := if 0 < value then some (value - 1) else none
  release _ value := some (value + 1)

def semaphoreExcludes : semaphore.Excludes where
  Free (value : ℕ) := value = 1
  HeldBy _ (value : ℕ) := value = 0
  init := rfl
  acquire_free t value h := by
    obtain rfl : value = (1 : ℕ) := h
    exact ⟨(0 : ℕ), rfl, rfl⟩
  acquire_held t u value h := by
    obtain rfl : value = (0 : ℕ) := h
    rfl
  release t value h := by
    obtain rfl : value = (0 : ℕ) := h
    exact ⟨(1 : ℕ), rfl, rfl⟩

end Tlpi.Locks
