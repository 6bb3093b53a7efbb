/-
The **parties layer**: what is said of each of a finite set of parties, and of all of them. Nothing
here is about this repository.

A step of an asynchronous system changes one party, by `Function.update`; a sum over the parties
changes by what that party's share does. A budget that every step of a party takes something from
is used up by all of them together.
-/
import Mathlib.Algebra.BigOperators.Group.Finset.Basic
import Mathlib.Algebra.Order.BigOperators.Group.Finset
import Mathlib.Algebra.Order.Group.Nat
import Mathlib.Tactic.Common

set_option autoImplicit false

namespace Tlpi.Parties

open Finset

universe u v

variable {ι : Type u} {α : Type v} [DecidableEq ι] {parties : Finset ι} (f : α → ℕ) (g : ι → α) {i : ι}
  (a : α)

/-- One party moves: its old share leaves the sum and its new one joins it. -/
theorem sum_update_mem (hi : i ∈ parties) :
    ∑ j ∈ parties, f (Function.update g i a j) + f (g i) = ∑ j ∈ parties, f (g j) + f a := by
  have hrest : ∑ j ∈ parties.erase i, f (Function.update g i a j) = ∑ j ∈ parties.erase i, f (g j) :=
    sum_congr rfl fun j hj => by rw [Function.update_of_ne (ne_of_mem_erase hj)]
  rw [← add_sum_erase parties (fun j => f (Function.update g i a j)) hi,
    ← add_sum_erase parties (fun j => f (g j)) hi, hrest, Function.update_self]
  omega

section Token

variable {κ : Type u} {P Q : κ → Prop} {p q : κ}

/-- Somebody holds a token, and nobody else does; it stays where it is. -/
theorem token_stays (h : ∃! k, P k) (hsame : ∀ k, Q k ↔ P k) : ∃! k, Q k :=
  (existsUnique_congr hsame).mpr h

/-- The token is handed on. -/
theorem token_moves (h : ∃! k, P k) (hp : P p) (hq : Q q) (hrest : ∀ k, k ≠ q → Q k → k ≠ p ∧ P k) :
    ∃! k, Q k := by
  refine ⟨q, hq, fun k hk => ?_⟩
  by_contra hne
  obtain ⟨hkp, hPk⟩ := hrest k hne hk
  exact hkp (h.unique hPk hp)

end Token

end Tlpi.Parties
