/-
The **monitor layer**: one POSIX mutex and one condition variable that goes with it, over an
arbitrary type of threads. Nothing here is about this repository.

A call that blocks is not enabled (`none`), and so is one that the standard leaves undefined,
such as the unlocking of a mutex that the caller does not hold. A thread in
`pthread_cond_wait()` is *waiting* until a signal or a spurious wake-up takes it off the list;
it then has to get the mutex before the call returns (`resume`).

`Guards` is what a program keeps up when its threads can be told, by where they are, to hold
the mutex or to be in the wait call; one lemma for each call says how it is kept up.
-/
import Mathlib.Algebra.BigOperators.Group.Finset.Basic
import Mathlib.Data.Fintype.BigOperators
import Mathlib.Tactic.Common

set_option autoImplicit false

namespace Tlpi.Pthread

universe u

variable {T : Type u} [DecidableEq T]

/-- A mutex, and the threads that wait on its condition variable. -/
structure Monitor (T : Type u) where
  owner : Option T
  waiting : List T

/-- As `PTHREAD_MUTEX_INITIALIZER` and `PTHREAD_COND_INITIALIZER` leave them. -/
def Monitor.new : Monitor T := { owner := none, waiting := [] }

/-- `pthread_mutex_lock()` -/
def Monitor.lock (m : Monitor T) (t : T) : Option (Monitor T) :=
  if m.owner = none then some { m with owner := some t } else none

/-- `pthread_mutex_unlock()` -/
def Monitor.unlock (m : Monitor T) (t : T) : Option (Monitor T) :=
  if m.owner = some t then some { m with owner := none } else none

/-- `pthread_cond_wait()`, up to the moment when the mutex is released. -/
def Monitor.wait (m : Monitor T) (t : T) : Option (Monitor T) :=
  if m.owner = some t then some { owner := none, waiting := t :: m.waiting } else none

/-- A waiting thread is woken. -/
def Monitor.wake (m : Monitor T) (t : T) : Option (Monitor T) :=
  if t ∈ m.waiting then some { m with waiting := m.waiting.filter (· ≠ t) } else none

/-- `pthread_cond_signal()`: the system chooses one of the waiting threads, if there are any. -/
def Monitor.signal (m : Monitor T) (chosen : Option T) : Option (Monitor T) :=
  match chosen with
  | none => if m.waiting = [] then some m else none
  | some t => m.wake t

/-- A signal never blocks. -/
theorem Monitor.exists_signal (m : Monitor T) : ∃ chosen m', m.signal chosen = some m' := by
  cases hw : m.waiting with
  | nil => exact ⟨none, m, if_pos hw⟩
  | cons t ts =>
    refine ⟨some t, { m with waiting := m.waiting.filter (· ≠ t) }, if_pos ?_⟩
    rw [hw]
    exact List.mem_cons_self

/-- The rest of `pthread_cond_wait()`, after the wake-up. -/
def Monitor.resume (m : Monitor T) (t : T) : Option (Monitor T) :=
  if t ∈ m.waiting then none else m.lock t

/-! ## Keeping the rules -/

/-- The mutex is with the thread that is where it holds it, and only threads that are in the
wait call are waiting. -/
structure Monitor.Guards (m : Monitor T) (holds waits : T → Prop) : Prop where
  owner_iff : ∀ t, m.owner = some t ↔ holds t
  waiting : ∀ t ∈ m.waiting, waits t

variable {m m' : Monitor T} {holds holds' waits waits' : T → Prop} {t : T}

omit [DecidableEq T] in
theorem Monitor.Guards.lone (h : m.Guards holds waits) {t t' : T} (ht : holds t) (ht' : holds t') :
    t = t' := by
  rw [← h.owner_iff] at ht ht'
  rw [ht, Option.some.injEq] at ht'
  exact ht'

/-- When the owner has left, nobody is where the mutex is held. -/
theorem Monitor.Guards.left (h : m.Guards holds waits) (hown : m.owner = some t) (hself : ¬holds' t)
    (hother : ∀ t', t' ≠ t → (holds' t' ↔ holds t')) (t' : T) : ¬holds' t' := by
  intro ht'
  by_cases htt : t' = t
  · subst htt
    exact hself ht'
  · exact htt (h.lone ((hother t' htt).mp ht') ((h.owner_iff t).mp hown))

omit [DecidableEq T] in
/-- A step of one thread that makes no call on the monitor, and stays on its side of it. -/
theorem Monitor.Guards.keep (h : m.Guards holds waits) (hholds : ∀ t, holds' t ↔ holds t)
    (hwaits : ∀ t, waits t → waits' t) : m.Guards holds' waits' :=
  ⟨fun t => (h.owner_iff t).trans (hholds t).symm, fun t ht => hwaits t (h.waiting t ht)⟩

theorem Monitor.Guards.lock (h : m.Guards holds waits) (hl : m.lock t = some m')
    (hself : holds' t) (hother : ∀ t', t' ≠ t → (holds' t' ↔ holds t'))
    (hwaits : ∀ t', waits t' → waits' t') : m.owner = none ∧ m'.waiting = m.waiting ∧
      m'.Guards holds' waits' := by
  unfold Monitor.lock at hl
  split at hl
  · rename_i hfree
    rw [Option.some.injEq] at hl
    subst hl
    refine ⟨hfree, rfl, fun t' => ?_, fun t' ht' => hwaits t' (h.waiting t' ht')⟩
    by_cases htt : t' = t
    · subst htt
      exact iff_of_true rfl hself
    · rw [hother t' htt, ← h.owner_iff, hfree]
      refine iff_of_false (fun he => htt (Option.some.inj he).symm) nofun
  · exact nomatch hl

theorem Monitor.Guards.unlock (h : m.Guards holds waits) (hu : m.unlock t = some m')
    (hself : ¬holds' t) (hother : ∀ t', t' ≠ t → (holds' t' ↔ holds t'))
    (hwaits : ∀ t', waits t' → waits' t') : m'.waiting = m.waiting ∧ m'.Guards holds' waits' := by
  unfold Monitor.unlock at hu
  split at hu
  · rename_i hown
    rw [Option.some.injEq] at hu
    subst hu
    refine ⟨rfl, fun t' => ?_, fun t' ht' => hwaits t' (h.waiting t' ht')⟩
    exact iff_of_false nofun (h.left hown hself hother t')
  · exact nomatch hu

theorem Monitor.Guards.wait (h : m.Guards holds waits) (hw : m.wait t = some m')
    (hself : ¬holds' t) (hother : ∀ t', t' ≠ t → (holds' t' ↔ holds t')) (hwt : waits' t)
    (hwaits : ∀ t', waits t' → waits' t') : m'.Guards holds' waits' := by
  unfold Monitor.wait at hw
  split at hw
  · rename_i hown
    rw [Option.some.injEq] at hw
    subst hw
    refine ⟨fun t' => ?_, fun t' ht' => ?_⟩
    · exact iff_of_false nofun (h.left hown hself hother t')
    · rcases List.mem_cons.mp ht' with rfl | ht'
      · exact hwt
      · exact hwaits t' (h.waiting t' ht')
  · exact nomatch hw

theorem Monitor.Guards.wake (h : m.Guards holds waits) (hw : m.wake t = some m') :
    t ∉ m'.waiting ∧ (∀ t' ∈ m'.waiting, t' ∈ m.waiting) ∧ m'.owner = m.owner ∧
      m'.Guards holds waits := by
  unfold Monitor.wake at hw
  split at hw
  · rw [Option.some.injEq] at hw
    subst hw
    have hsub : ∀ t' ∈ m.waiting.filter (· ≠ t), t' ∈ m.waiting :=
      fun t' ht' => (List.mem_filter.mp ht').1
    exact ⟨by simp, hsub, rfl, h.owner_iff, fun t' ht' => h.waiting t' (hsub t' ht')⟩
  · exact nomatch hw

/-- **A signal wakes**: a thread that is the only one to wait is not waiting afterwards. -/
theorem Monitor.Guards.signal (h : m.Guards holds waits) {chosen : Option T}
    (hs : m.signal chosen = some m') (hlone : ∀ t', waits t' → t' = t) :
    t ∉ m'.waiting ∧ m'.owner = m.owner ∧ m'.Guards holds waits := by
  cases chosen with
  | none =>
    simp only [Monitor.signal] at hs
    split at hs
    · rename_i hnil
      rw [Option.some.injEq] at hs
      subst hs
      exact ⟨by rw [hnil]; exact List.not_mem_nil, rfl, h⟩
    · exact nomatch hs
  | some t' =>
    have hw : m.wake t' = some m' := hs
    obtain ⟨hnot, hsub, hown, hg⟩ := h.wake hw
    refine ⟨fun ht => ?_, hown, hg⟩
    have hmem : t' ∈ m.waiting := by
      unfold Monitor.wake at hw
      split at hw
      · assumption
      · exact nomatch hw
    rw [hlone t' (h.waiting t' hmem)] at hnot
    exact hnot ht

theorem Monitor.Guards.resume (h : m.Guards holds waits) (hr : m.resume t = some m')
    (hself : holds' t) (hother : ∀ t', t' ≠ t → (holds' t' ↔ holds t'))
    (hwaits : ∀ t', t' ≠ t → waits t' → waits' t') : m.owner = none ∧
      m'.waiting = m.waiting ∧ t ∉ m.waiting ∧ m'.Guards holds' waits' := by
  unfold Monitor.resume at hr
  split at hr
  · exact nomatch hr
  · rename_i hnot
    -- a thread that is not waiting any more may leave the wait call
    have hg : m.Guards holds fun t' => t' ≠ t ∧ waits t' :=
      ⟨h.owner_iff, fun t' ht' => ⟨fun he => hnot (he ▸ ht'), h.waiting t' ht'⟩⟩
    obtain ⟨hfree, hwait, hg'⟩ := hg.lock hr hself hother fun t' ht' => hwaits t' ht'.1 ht'.2
    exact ⟨hfree, hwait, hnot, hg'⟩

/-! ## A main thread and its workers

The pattern of a program whose main thread is the only one to wait: `Crew` is `Guards` with
the two sides written apart, so that a step of one thread says nothing about the others. -/

/-- The main thread and `n` others. -/
inductive Tid (n : ℕ) where
  | main
  | thread (i : Fin n)
deriving Repr, DecidableEq

/-- A property of the main thread and one of the others. -/
def sides {n : ℕ} (main : Prop) (thread : Fin n → Prop) : Tid n → Prop
  | .main => main
  | .thread i => thread i

/-- The mutex is with whoever is where it is held, and no other thread than main waits. -/
def Monitor.Crew {n : ℕ} (m : Monitor (Tid n)) (mainHolds mainWaits : Prop) (holds : Fin n → Prop) :
    Prop :=
  m.Guards (sides mainHolds holds) (sides mainWaits fun _ => False)

section

variable {n : ℕ} {m m' : Monitor (Tid n)} {mainHolds mainHolds' mainWaits mainWaits' : Prop}
  {holds holds' : Fin n → Prop} {i : Fin n}

theorem Monitor.Crew.new : (Monitor.new : Monitor (Tid n)).Crew False False fun _ => False := by
  refine ⟨fun t => iff_of_false nofun ?_, nofun⟩
  cases t <;> exact id

theorem Monitor.Crew.main_not_waiting (h : m.Crew mainHolds mainWaits holds) (hw : ¬mainWaits) :
    Tid.main ∉ m.waiting := fun hmem => hw (h.waiting _ hmem)

theorem Monitor.Crew.free (h : m.Crew mainHolds mainWaits holds) (hfree : m.owner = none) :
    ¬mainHolds ∧ ∀ i, ¬holds i := by
  have hno : ∀ t, ¬sides mainHolds holds t := fun t ht => by
    rw [← h.owner_iff, hfree] at ht
    exact nomatch ht
  exact ⟨hno .main, fun i => hno (.thread i)⟩

/-- Two threads are not both where the mutex is held. -/
theorem Monitor.Crew.main_alone (h : m.Crew mainHolds mainWaits holds) (hm : mainHolds) (i : Fin n) :
    ¬holds i := by
  intro hi
  exact nomatch h.lone (show sides mainHolds holds .main from hm)
    (show sides mainHolds holds (.thread i) from hi)

/-- A step that makes no call on the monitor. -/
theorem Monitor.Crew.keep (h : m.Crew mainHolds mainWaits holds) (hmain : mainHolds' ↔ mainHolds)
    (hwaits : mainWaits → mainWaits') (hholds : ∀ i, holds' i ↔ holds i) :
    m.Crew mainHolds' mainWaits' holds' := by
  refine Guards.keep h (fun t => ?_) fun t ht => ?_
  · cases t with
    | main => exact hmain
    | thread i => exact hholds i
  · cases t with
    | main => exact hwaits ht
    | thread i => exact ht

theorem sides_of_ne_thread (hother : ∀ j, j ≠ i → (holds' j ↔ holds j)) (t : Tid n)
    (ht : t ≠ .thread i) : sides mainHolds holds' t ↔ sides mainHolds holds t := by
  cases t with
  | main => exact Iff.rfl
  | thread j => exact hother j fun he => ht (by rw [he])

theorem Monitor.Crew.thread_lock (h : m.Crew mainHolds mainWaits holds)
    (hl : m.lock (.thread i) = some m') (hself : holds' i)
    (hother : ∀ j, j ≠ i → (holds' j ↔ holds j)) :
    m'.waiting = m.waiting ∧ m'.Crew mainHolds mainWaits holds' :=
  (Guards.lock h hl hself (sides_of_ne_thread hother) fun _ => id).2

theorem Monitor.Crew.thread_unlock (h : m.Crew mainHolds mainWaits holds)
    (hu : m.unlock (.thread i) = some m') (hself : ¬holds' i)
    (hother : ∀ j, j ≠ i → (holds' j ↔ holds j)) :
    m'.waiting = m.waiting ∧ m'.Crew mainHolds mainWaits holds' :=
  Guards.unlock h hu hself (sides_of_ne_thread hother) fun _ => id

/-- **A signal wakes main**, whatever the system chooses. -/
theorem Monitor.Crew.signal (h : m.Crew mainHolds mainWaits holds) {chosen : Option (Tid n)}
    (hs : m.signal chosen = some m') :
    Tid.main ∉ m'.waiting ∧ m'.Crew mainHolds mainWaits holds := by
  have hlone : ∀ t, sides mainWaits (fun _ : Fin n => False) t → t = .main := by
    intro t ht
    cases t with
    | main => rfl
    | thread i => exact ht.elim
  obtain ⟨hnot, -, hg⟩ := Guards.signal h hs hlone
  exact ⟨hnot, hg⟩

theorem Monitor.Crew.wake (h : m.Crew mainHolds mainWaits holds) {t : Tid n}
    (hw : m.wake t = some m') :
    (∀ t' ∈ m'.waiting, t' ∈ m.waiting) ∧ m'.Crew mainHolds mainWaits holds := by
  obtain ⟨-, hsub, -, hg⟩ := Guards.wake h hw
  exact ⟨hsub, hg⟩

theorem sides_of_ne_main (t : Tid n) (ht : t ≠ .main) :
    sides mainHolds' holds t ↔ sides mainHolds holds t := by
  cases t with
  | main => exact absurd rfl ht
  | thread j => exact Iff.rfl

theorem waits_of_main (hwaits : mainWaits → mainWaits') (t : Tid n)
    (ht : sides mainWaits (fun _ => False) t) : sides mainWaits' (fun _ => False) t := by
  cases t with
  | main => exact hwaits ht
  | thread j => exact ht

theorem Monitor.Crew.main_lock (h : m.Crew mainHolds mainWaits holds)
    (hl : m.lock .main = some m') (hself : mainHolds') (hwaits : mainWaits → mainWaits') :
    m'.waiting = m.waiting ∧ m'.Crew mainHolds' mainWaits' holds :=
  (Guards.lock h hl hself sides_of_ne_main (waits_of_main hwaits)).2

theorem Monitor.Crew.main_unlock (h : m.Crew mainHolds mainWaits holds)
    (hu : m.unlock .main = some m') (hself : ¬mainHolds') (hwaits : mainWaits → mainWaits') :
    m'.waiting = m.waiting ∧ m'.Crew mainHolds' mainWaits' holds :=
  Guards.unlock h hu hself sides_of_ne_main (waits_of_main hwaits)

theorem Monitor.Crew.main_wait (h : m.Crew mainHolds mainWaits holds)
    (hw : m.wait .main = some m') (hself : ¬mainHolds') (hwaits : mainWaits') :
    m'.Crew mainHolds' mainWaits' holds :=
  Guards.wait h hw hself sides_of_ne_main hwaits (waits_of_main fun _ => hwaits)

theorem Monitor.Crew.main_resume (h : m.Crew mainHolds mainWaits holds)
    (hr : m.resume .main = some m') (hself : mainHolds') :
    Tid.main ∉ m'.waiting ∧ m'.Crew mainHolds' mainWaits' holds := by
  obtain ⟨-, hsame, hnot, hg⟩ := Guards.resume h hr hself sides_of_ne_main
    fun t ht hw => (sides_of_ne_main t ht).mp hw
  exact ⟨hsame ▸ hnot, hg⟩

end

/-! ## All threads, when one of them moves -/

section Update

variable {ι α : Type} [DecidableEq ι] {p : α → Prop} {f : ι → α} {i : ι} {a : α}

theorem update_iff_of_ne (j : ι) (h : j ≠ i) : p (Function.update f i a j) ↔ p (f j) := by
  rw [Function.update_of_ne h]

/-- The thread that moves stays on its side. -/
theorem update_iff (hsame : p a ↔ p (f i)) (j : ι) : p (Function.update f i a j) ↔ p (f j) := by
  by_cases hj : j = i
  · subst hj
    rw [Function.update_self, hsame]
  · exact update_iff_of_ne j hj

/-- Some thread is still there, whichever it was. -/
theorem exists_update (hkeep : p (f i) → p a) (h : ∃ j, p (f j)) :
    ∃ j, p (Function.update f i a j) := by
  obtain ⟨j, hj⟩ := h
  refine ⟨j, ?_⟩
  by_cases hji : j = i
  · subst hji
    rw [Function.update_self]
    exact hkeep hj
  · rwa [Function.update_of_ne hji]

theorem exists_update_self (h : p a) : ∃ j, p (Function.update f i a j) :=
  ⟨i, by rwa [Function.update_self]⟩

end Update

/-- A sum over all threads when one of them changes. -/
theorem sum_update {ι α : Type} [Fintype ι] [DecidableEq ι] (f : ι → α → ℕ) (g : ι → α) (i : ι)
    (a : α) : (∑ j, f j (Function.update g i a j)) + f i (g i) = (∑ j, f j (g j)) + f i a := by
  rw [← Finset.add_sum_erase Finset.univ (fun j => f j (g j)) (Finset.mem_univ i),
    ← Finset.add_sum_erase Finset.univ (fun j => f j (Function.update g i a j)) (Finset.mem_univ i)]
  have hrest : ∑ j ∈ Finset.univ.erase i, f j (Function.update g i a j)
      = ∑ j ∈ Finset.univ.erase i, f j (g j) :=
    Finset.sum_congr rfl fun j hj => by rw [Function.update_of_ne (Finset.ne_of_mem_erase hj)]
  simp only [hrest, Function.update_self]
  omega

end Tlpi.Pthread
