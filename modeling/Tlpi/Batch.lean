/-
The **batch layer**: a list of changes that are made one after the other, where what is there after
each of them is checked and kept. Nothing here is about this repository.

The alternative would be to make all changes, check once and keep the result. `storeEach_cases` says
how far the two are apart: a batch is made as a whole, or it is left at the first change that leads
to something that is not valid, and what the changes before that one have made is kept.
-/
import Mathlib.Data.List.Basic
import Mathlib.Tactic.Common

set_option autoImplicit false

namespace Tlpi.Batch

universe u v

variable {σ : Type u} {ε : Type v} (step : σ → ε → σ) (valid : σ → Prop) [DecidablePred valid]

/-- What is kept at the end, and whether all changes have been made. -/
def storeEach : σ → List ε → σ × Bool
  | s, [] => (s, true)
  | s, e :: es => if valid (step s e) then storeEach (step s e) es else (s, false)

/-- What comes of the first changes. -/
def upTo (s : σ) (es : List ε) (k : ℕ) : σ := (es.take k).foldl step s

@[simp] theorem upTo_zero (s : σ) (es : List ε) : upTo step s es 0 = s := rfl

@[simp] theorem upTo_cons_succ (s : σ) (e : ε) (es : List ε) (k : ℕ) :
    upTo step s (e :: es) (k + 1) = upTo step (step s e) es k := rfl

/-- **All changes are made, or those in front of the first that is not valid are.** -/
theorem storeEach_cases (s : σ) (es : List ε) :
    (storeEach step valid s es = (es.foldl step s, true) ∧
        ∀ k < es.length, valid (upTo step s es (k + 1))) ∨
      ∃ k < es.length, storeEach step valid s es = (upTo step s es k, false) ∧
        ¬valid (upTo step s es (k + 1)) ∧ ∀ j < k, valid (upTo step s es (j + 1)) := by
  induction es generalizing s with
  | nil => exact .inl ⟨rfl, nofun⟩
  | cons e es ih =>
    rw [storeEach]
    by_cases hvalid : valid (step s e)
    · rw [if_pos hvalid]
      rcases ih (step s e) with ⟨hall, hvalids⟩ | ⟨k, hk, hleft, hbad, hvalids⟩
      · refine .inl ⟨hall, ?_⟩
        intro k hk
        cases k with
        | zero => exact hvalid
        | succ k => exact hvalids k (Nat.lt_of_succ_lt_succ hk)
      · refine .inr ⟨k + 1, Nat.succ_lt_succ hk, hleft, hbad, ?_⟩
        intro j hj
        cases j with
        | zero => exact hvalid
        | succ j => exact hvalids j (Nat.lt_of_succ_lt_succ hj)
    · rw [if_neg hvalid]
      exact .inr ⟨0, Nat.succ_pos _, rfl, hvalid, nofun⟩

end Tlpi.Batch
