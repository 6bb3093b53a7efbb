/-
The **transition layer**: programs that take turns, as labelled transition systems.

Nothing here is about this repository. A system says which states it may start in and
what an action does in a state; an action that is not enabled there, a blocked call for
one, does nothing (`none`). Every choice that the scheduler, the kernel or the
environment makes is part of the action, so an interleaving is a list of actions and a
statement over every reachable state is one over every interleaving.

`Reaches S C` restricts the runs to those whose every step meets a condition `C` on the
state before it and the action taken, which is how a property that only holds of
well-behaved runs is stated. `Reaches.invariant` is the one rule of proof: what holds at
the start and is kept by every step that meets the condition holds in every state reached.
-/
import Mathlib.Logic.Basic
import Mathlib.Tactic.Common

set_option autoImplicit false

namespace Tlpi.Transition

universe u v

/-- A labelled transition system. -/
structure System (σ : Type u) (α : Type v) where
  init : σ → Prop
  step : σ → α → Option σ

variable {σ : Type u} {α : Type v}

/-- The states reached by runs whose every step meets `C`. -/
inductive Reaches (S : System σ α) (C : σ → α → Prop) : σ → Prop
  | init {s : σ} : S.init s → Reaches S C s
  | step {s s' : σ} {a : α} : Reaches S C s → C s a → S.step s a = some s' → Reaches S C s'

/-- The reachable states: no condition on the steps. -/
abbrev Reachable (S : System σ α) : σ → Prop := Reaches S fun _ _ => True

/-- **The invariant rule.** -/
theorem Reaches.invariant {S : System σ α} {C : σ → α → Prop} {I : σ → Prop}
    (hinit : ∀ s, S.init s → I s)
    (hstep : ∀ s a s', I s → C s a → S.step s a = some s' → I s') {s : σ}
    (h : Reaches S C s) : I s := by
  induction h with
  | init hs => exact hinit _ hs
  | step _ hC hs ih => exact hstep _ _ _ ih hC hs

/-- The state a list of actions leads to, if every one of them is enabled in turn and meets
`C`. -/
def System.runWith (S : System σ α) (C : σ → α → Prop) [∀ s a, Decidable (C s a)] :
    σ → List α → Option σ
  | s, [] => some s
  | s, a :: as => if C s a then (S.step s a).bind fun s' => S.runWith C s' as else none

/-- A list of actions that can be carried out leads to a state that is reached. -/
theorem System.reaches_of_runWith {S : System σ α} {C : σ → α → Prop} [∀ s a, Decidable (C s a)] :
    ∀ (as : List α) {s s' : σ}, Reaches S C s → S.runWith C s as = some s' → Reaches S C s' := by
  intro as
  induction as with
  | nil =>
    intro s s' hs h
    rw [System.runWith, Option.some.injEq] at h
    exact h ▸ hs
  | cons a as ih =>
    intro s s' hs h
    unfold System.runWith at h
    split at h
    · rename_i hC
      rw [Option.bind_eq_some_iff] at h
      obtain ⟨s₁, h₁, h₂⟩ := h
      exact ih (.step hs hC h₁) h₂
    · exact nomatch h

/-- **The rule of proof for counting**: a run keeps an invariant, and has no more steps of one kind than a
measure that each of these makes smaller and none makes larger. -/
theorem System.runWith_count {S : System σ α} {C : σ → α → Prop} [∀ s a, Decidable (C s a)]
    {I : σ → Prop} {m : σ → ℕ} {p : α → Bool}
    (hstep : ∀ s a s', I s → C s a → S.step s a = some s' →
      I s' ∧ m s' + (if p a then 1 else 0) ≤ m s) :
    ∀ (as : List α) {s s' : σ}, I s → S.runWith C s as = some s' →
      I s' ∧ m s' + (as.filter p).length ≤ m s := by
  intro as
  induction as with
  | nil =>
    intro s s' hi hs
    rw [System.runWith, Option.some.injEq] at hs
    subst hs
    exact ⟨hi, Nat.le_refl _⟩
  | cons a as ih =>
    intro s s' hi hs
    unfold System.runWith at hs
    split at hs
    · rename_i hC
      obtain ⟨s₁, h₁, h₂⟩ := Option.bind_eq_some_iff.mp hs
      obtain ⟨hi₁, hle₁⟩ := hstep _ _ _ hi hC h₁
      obtain ⟨hi', hle⟩ := ih hi₁ h₂
      refine ⟨hi', ?_⟩
      rw [List.filter_cons]
      cases hp : p a with
      | true =>
        rw [hp, if_pos rfl] at hle₁
        rw [if_pos rfl, List.length_cons]
        omega
      | false =>
        rw [hp, if_neg Bool.false_ne_true] at hle₁
        rw [if_neg Bool.false_ne_true]
        omega
    · cases hs

/-- **The rule of proof for runs that end**: a run keeps an invariant and is no longer than a
measure that each of its steps makes smaller. -/
theorem System.runWith_measure {S : System σ α} {C : σ → α → Prop} [∀ s a, Decidable (C s a)]
    {I : σ → Prop} {m : σ → ℕ}
    (hstep : ∀ s a s', I s → C s a → S.step s a = some s' → I s' ∧ m s' < m s)
    (as : List α) {s s' : σ} (hi : I s) (hs : S.runWith C s as = some s') :
    I s' ∧ m s' + as.length ≤ m s := by
  have hcount := System.runWith_count (S := S) (C := C) (I := I) (m := m) (p := fun _ => true)
    (fun s a s' hi hC hs => hstep s a s' hi hC hs) as hi hs
  rwa [List.filter_eq_self.mpr fun _ _ => rfl] at hcount

/-- The same with no condition on the steps. -/
abbrev System.run (S : System σ α) : σ → List α → Option σ := S.runWith fun _ _ => True

theorem System.reachable_of_run {S : System σ α} (as : List α) {s s' : σ} (hs : Reachable S s)
    (h : S.run s as = some s') : Reachable S s' :=
  System.reaches_of_runWith as hs h

end Tlpi.Transition
