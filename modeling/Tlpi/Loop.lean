/-
The **loop layer**: unbounded C loops as total functions, and call-by-call
simulation between two stateful functions.

Nothing here is about this repository. A `for (;;)` loop is a *body* that looks at
the loop's local state and either goes round again, leaves with a result, or
waits for something that never comes (a blocking call on a source that delivers
nothing more). `loop` runs a body on a fuel; `exec` picks the fuel from a measure
that every turn decreases. The rest of the development uses two facts about it: `exec_eq`,
the loop's own unfolding equation, in which the fuel no longer appears, and `exec_rule`,
the rule of the invariant. Where no measure is at hand, `Ends` says that the loop comes to
its end, and `Ends.rule` is the rule of the invariant.

`callSeq` is what a client of a stateful function sees: the outputs of a sequence
of calls, cut at the first call that never returns. `callSeq_eq_of_sim` is the
simulation rule: two functions that agree call by call from related states, and
lead to related states, cannot be told apart by any sequence of calls.
-/
import Mathlib.Data.List.Basic
import Mathlib.Tactic.Common

set_option autoImplicit false

namespace Tlpi.Loop

universe u v w

/-! ## One turn of a loop, and the loop -/

/-- What one turn of a `for (;;)` body does: `next` goes round again with new local
state, `done` leaves the loop, `blocked` is a turn that never finishes. -/
inductive Iter (σ : Type u) (ρ : Type v) where
  | next (s : σ)
  | done (r : ρ)
  | blocked
deriving Repr, DecidableEq

section

variable {σ : Type u} {ρ : Type v}

/-- Run a body for at most `fuel` turns; `none` is a loop that does not come back. -/
def loop (body : σ → Iter σ ρ) : ℕ → σ → Option ρ
  | 0, _ => none
  | fuel + 1, s =>
    match body s with
    | .next s' => loop body fuel s'
    | .done r => some r
    | .blocked => none

/-- Run a body with one turn more than the measure of its state allows. -/
def exec (body : σ → Iter σ ρ) (m : σ → ℕ) (s : σ) : Option ρ :=
  loop body (m s + 1) s

/-- Fuel beyond the measure changes nothing. -/
theorem loop_eq_of_lt {body : σ → Iter σ ρ} {m : σ → ℕ}
    (hdec : ∀ s s', body s = .next s' → m s' < m s) :
    ∀ (fuel₁ fuel₂ : ℕ) (s : σ), m s < fuel₁ → m s < fuel₂ →
      loop body fuel₁ s = loop body fuel₂ s := by
  intro fuel₁
  induction fuel₁ with
  | zero => intro fuel₂ s h₁; omega
  | succ k ih =>
    intro fuel₂ s h₁ h₂
    obtain ⟨j, rfl⟩ : ∃ j, fuel₂ = j + 1 := ⟨fuel₂ - 1, by omega⟩
    simp only [loop]
    cases hb : body s with
    | next s' =>
      have hlt := hdec s s' hb
      exact ih j s' (by omega) (by omega)
    | done r => rfl
    | blocked => rfl

/-- **The unfolding equation.** When every turn decreases the measure, `exec` is the
loop: one turn, then the loop again. -/
theorem exec_eq {body : σ → Iter σ ρ} {m : σ → ℕ}
    (hdec : ∀ s s', body s = .next s' → m s' < m s) (s : σ) :
    exec body m s =
      match body s with
      | .next s' => exec body m s'
      | .done r => some r
      | .blocked => none := by
  rw [exec, loop]
  cases hb : body s with
  | next s' =>
    have hlt := hdec s s' hb
    exact loop_eq_of_lt hdec _ _ s' (by omega) (by omega)
  | done r => rfl
  | blocked => rfl

/-- **The invariant rule for a measure**: a loop whose every turn decreases the measure and preserves
the invariant, and that does not block where the invariant holds, is left with what holds then. -/
theorem exec_rule {body : σ → Iter σ ρ} {m : σ → ℕ} {I : σ → Prop} {Q : ρ → Prop}
    (hdec : ∀ s s', body s = .next s' → m s' < m s)
    (hnext : ∀ s s', I s → body s = .next s' → I s')
    (hdone : ∀ s r, I s → body s = .done r → Q r)
    (hwaits : ∀ s, I s → body s ≠ .blocked) {s : σ} (hs : I s) :
    ∃ r, exec body m s = some r ∧ Q r := by
  induction hn : m s using Nat.strongRecOn generalizing s with
  | _ n ih =>
    rw [exec_eq hdec]
    cases hb : body s with
    | next s' => exact ih (m s') (hn ▸ hdec s s' hb) (hnext s s' hs hb) rfl
    | done r => exact ⟨r, rfl, hdone s r hs hb⟩
    | blocked => exact absurd hb (hwaits s hs)

/-! ## How a loop ends -/

/-- The loop comes to its end, with a result. -/
def Ends (body : σ → Iter σ ρ) (s : σ) (r : ρ) : Prop := ∃ fuel, loop body fuel s = some r

/-- Once the loop has come to its end, more fuel changes nothing. -/
theorem loop_mono {body : σ → Iter σ ρ} {r : ρ} :
    ∀ {fuel fuel' : ℕ} {s : σ}, fuel ≤ fuel' → loop body fuel s = some r →
      loop body fuel' s = some r := by
  intro fuel
  induction fuel with
  | zero => intro fuel' s _ h; exact nomatch h
  | succ fuel ih =>
    intro fuel' s hle h
    obtain ⟨fuel', rfl⟩ := Nat.exists_eq_succ_of_ne_zero (by omega : fuel' ≠ 0)
    rw [loop] at h ⊢
    cases hb : body s with
    | next s' =>
      rw [hb] at h
      exact ih (by omega) h
    | done r' =>
      rw [hb] at h
      exact h
    | blocked =>
      rw [hb] at h
      exact nomatch h

theorem Ends.unique {body : σ → Iter σ ρ} {s : σ} {r r' : ρ} (h : Ends body s r)
    (h' : Ends body s r') : r = r' := by
  obtain ⟨fuel, hr⟩ := h
  obtain ⟨fuel', hr'⟩ := h'
  have h₁ := loop_mono (Nat.le_max_left fuel fuel') hr
  have h₂ := loop_mono (Nat.le_max_right fuel fuel') hr'
  exact Option.some.inj (h₁.symm.trans h₂)

theorem Ends.next {body : σ → Iter σ ρ} {s s' : σ} {r : ρ} (hb : body s = .next s')
    (h : Ends body s' r) : Ends body s r := by
  obtain ⟨fuel, hr⟩ := h
  exact ⟨fuel + 1, by rw [loop, hb]; exact hr⟩

theorem Ends.done {body : σ → Iter σ ρ} {s : σ} {r : ρ} (hb : body s = .done r) :
    Ends body s r := ⟨1, by rw [loop, hb]⟩

/-- **The invariant rule**: what every turn preserves holds when the loop is left. -/
theorem Ends.rule {body : σ → Iter σ ρ} {I : σ → Prop} {Q : ρ → Prop}
    (hnext : ∀ s s', I s → body s = .next s' → I s')
    (hdone : ∀ s r, I s → body s = .done r → Q r) {s : σ} {r : ρ} (hs : I s)
    (h : Ends body s r) : Q r := by
  obtain ⟨fuel, hr⟩ := h
  induction fuel generalizing s with
  | zero => exact nomatch hr
  | succ fuel ih =>
    rw [loop] at hr
    cases hb : body s with
    | next s' =>
      rw [hb] at hr
      exact ih (hnext s s' hs hb) hr
    | done r' =>
      rw [hb, Option.some.injEq] at hr
      exact hr ▸ hdone s r' hs hb
    | blocked =>
      rw [hb] at hr
      exact nomatch hr

/-- A loop whose every turn decreases the measure, and that never blocks, comes to its end. -/
theorem exists_ends {body : σ → Iter σ ρ} {m : σ → ℕ}
    (hdec : ∀ s s', body s = .next s' → m s' < m s) (hwaits : ∀ s, body s ≠ .blocked) :
    ∀ (n : ℕ) (s : σ), m s < n → ∃ r, Ends body s r := by
  intro n
  induction n with
  | zero => exact fun s hn => absurd hn (Nat.not_lt_zero _)
  | succ n ih =>
    intro s hn
    cases hb : body s with
    | next s' =>
      have hlt := hdec s s' hb
      obtain ⟨r, hr⟩ := ih s' (by omega)
      exact ⟨r, hr.next hb⟩
    | done r => exact ⟨r, .done hb⟩
    | blocked => exact absurd hb (hwaits s)

/-- A loop comes to its end also if some turns get nowhere, as long as none of these comes
after turn `B`: each of them uses up one of the first `B` turns. -/
theorem exists_ends_of_idle {body : σ → Iter σ ρ} {m turn : σ → ℕ} {B : ℕ}
    (hturn : ∀ s s', body s = .next s' → turn s' = turn s + 1)
    (hdec : ∀ s s', body s = .next s' → m s' < m s ∨ (m s' ≤ m s ∧ turn s < B))
    (hwaits : ∀ s, body s ≠ .blocked) (s : σ) : ∃ r, Ends body s r := by
  refine @exists_ends σ ρ body (fun s => m s + (B - turn s)) ?_ hwaits _ s (Nat.lt_succ_self _)
  intro s s' hb
  have hnext := hturn s s' hb
  have hless := hdec s s' hb
  omega

end

/-! ## Sequences of calls -/

section

variable {σ : Type u} {τ : Type v} {ι ο : Type w}

/-- The outputs of a sequence of calls of a stateful function, cut at the first call
that never returns (`none`). -/
def callSeq (f : σ → ι → Option (ο × σ)) : σ → List ι → List (Option ο)
  | _, [] => []
  | s, c :: cs =>
    match f s c with
    | none => [none]
    | some (o, s') => some o :: callSeq f s' cs

/-- The state a sequence of calls leaves, if every call of it returns. -/
def stateAfter (f : σ → ι → Option (ο × σ)) : σ → List ι → Option σ
  | s, [] => some s
  | s, c :: cs =>
    match f s c with
    | none => none
    | some (_, s') => stateAfter f s' cs

/-- A shorter sequence of calls shows the beginning of what a longer one does. -/
theorem callSeq_take (f : σ → ι → Option (ο × σ)) :
    ∀ (cs : List ι) (s : σ) (k : ℕ), callSeq f s (cs.take k) = (callSeq f s cs).take k := by
  intro cs
  induction cs with
  | nil => intro s k; simp only [List.take_nil, callSeq]
  | cons c cs ih =>
    intro s k
    cases k with
    | zero => rfl
    | succ k =>
      simp only [List.take_succ_cons, callSeq]
      cases f s c with
      | none => rw [List.take_succ_cons, List.take_nil]
      | some r =>
        simp only [List.take_succ_cons]
        rw [ih]

/-- Two stateful functions **simulate** each other along `R` when from related states
every call either never returns on both sides, or returns the same output and leaves
related states. -/
def Simulates (R : σ → τ → Prop) (f : σ → ι → Option (ο × σ))
    (g : τ → ι → Option (ο × τ)) : Prop :=
  ∀ s t c, R s t →
    (f s c = none ∧ g t c = none) ∨
      ∃ o s' t', f s c = some (o, s') ∧ g t c = some (o, t') ∧ R s' t'

/-- **The simulation rule.** No sequence of calls tells the two functions apart. -/
theorem callSeq_eq_of_sim {R : σ → τ → Prop} {f : σ → ι → Option (ο × σ)}
    {g : τ → ι → Option (ο × τ)} (hsim : Simulates R f g) :
    ∀ (cs : List ι) (s : σ) (t : τ), R s t → callSeq f s cs = callSeq g t cs := by
  intro cs
  induction cs with
  | nil => intro s t _; rfl
  | cons c cs ih =>
    intro s t hR
    rcases hsim s t c hR with ⟨hf, hg⟩ | ⟨o, s', t', hf, hg, hR'⟩
    · simp only [callSeq, hf, hg]
    · simp only [callSeq, hf, hg, ih s' t' hR']

/-- The states the two functions are left in are related too. -/
theorem stateAfter_of_sim {R : σ → τ → Prop} {f : σ → ι → Option (ο × σ)}
    {g : τ → ι → Option (ο × τ)} (hsim : Simulates R f g) :
    ∀ (cs : List ι) (s : σ) (t t' : τ), R s t → stateAfter g t cs = some t' →
      ∃ s', stateAfter f s cs = some s' ∧ R s' t' := by
  intro cs
  induction cs with
  | nil =>
    intro s t t' hR h
    rw [stateAfter, Option.some.injEq] at h
    exact ⟨s, rfl, h ▸ hR⟩
  | cons c cs ih =>
    intro s t t' hR h
    rcases hsim s t c hR with ⟨hf, hg⟩ | ⟨o, s₁, t₁, hf, hg, hR₁⟩
    · simp only [stateAfter, hg, reduceCtorEq] at h
    · simp only [stateAfter, hg] at h
      simp only [stateAfter, hf]
      exact ih s₁ t₁ t' hR₁ h

end

end Tlpi.Loop
