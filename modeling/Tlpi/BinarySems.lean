/-
`svsem/binary_sems.c`: the binary-semaphore protocol over a System V semaphore set.

A set is the values of its semaphores. `semop()` with a single operation either happens
at once or blocks, so `reserveSem` is partial and the rest is total. The flags
`bsUseSemUndo` and `bsRetryOnEintr` keep their initial values `FALSE` and `TRUE`: no undo is recorded,
and an interrupted reservation is simply made again.
-/
import Mathlib.Logic.Function.Basic
import Mathlib.Tactic.Common

set_option autoImplicit false

namespace Tlpi.BinarySems

/-- The values of the semaphores of a set. -/
abbrev SemSet := ℕ → ℕ

def initSemAvailable (sems : SemSet) (semNum : ℕ) : SemSet := Function.update sems semNum 1

def initSemInUse (sems : SemSet) (semNum : ℕ) : SemSet := Function.update sems semNum 0

/-- `none` when the caller blocks. -/
def reserveSem (sems : SemSet) (semNum : ℕ) : Option SemSet :=
  if 0 < sems semNum then some (Function.update sems semNum (sems semNum - 1)) else none

def releaseSem (sems : SemSet) (semNum : ℕ) : SemSet :=
  Function.update sems semNum (sems semNum + 1)

theorem reserveSem_eq_some {sems sems' : SemSet} {semNum : ℕ}
    (h : reserveSem sems semNum = some sems') :
    sems semNum = sems' semNum + 1 ∧ ∀ j, j ≠ semNum → sems' j = sems j := by
  rw [reserveSem] at h
  split at h
  · rename_i hpos
    rw [Option.some.injEq] at h
    rw [← h, Function.update_self]
    refine ⟨by omega, fun j hj => ?_⟩
    rw [Function.update_of_ne hj]
  · exact nomatch h

@[simp] theorem releaseSem_same (sems : SemSet) (semNum : ℕ) :
    releaseSem sems semNum semNum = sems semNum + 1 := Function.update_self ..

@[simp] theorem releaseSem_of_ne (sems : SemSet) {semNum j : ℕ} (h : j ≠ semNum) :
    releaseSem sems semNum j = sems j := Function.update_of_ne h ..

end Tlpi.BinarySems
