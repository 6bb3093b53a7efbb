/-
The **pathname layer**: pathnames as character strings, and the order "at or under".

Nothing here is about this repository. A directory is under another when the string of the
second is a beginning of the string of the first that ends at a slash or at the end of the
string: the test that programs make with `strncmp()` and one look at the next character.
On strings this is a partial order in which everything above one pathname is a chain, and
that is all that a tree of names is. Working with the order of strings, and not with lists of components,
keeps what a program compares and what a statement says the same thing.

`rebase S T` carries a subtree from `S` to `T`: it is what a rename does to the pathnames
under `S`. `rebase_cases` says what is above a pathname that has been carried: the
directories above `T`, and the carried images of those between `S` and it.
-/
import Mathlib.Data.List.Infix
import Mathlib.Tactic.Common

set_option autoImplicit false

namespace Tlpi.Pathname

abbrev Str := List Char

/-- The entry `name` of the directory `p`. -/
def child (p name : Str) : Str := p ++ '/' :: name

/-- What a directory entry can be called. -/
def ValidName (name : Str) : Prop := name ≠ [] ∧ '/' ∉ name

instance (name : Str) : Decidable (ValidName name) :=
  inferInstanceAs (Decidable (name ≠ [] ∧ '/' ∉ name))

/-- What may follow a pathname in the pathnames under it. -/
def Boundary (t : Str) : Prop := t = [] ∨ ∃ u, t = '/' :: u

/-- `P` is `S`, or is under it. -/
def Under (S P : Str) : Prop := ∃ t, P = S ++ t ∧ Boundary t

instance (S P : Str) : Decidable (Under S P) :=
  decidable_of_iff (S <+: P ∧ (P.drop S.length = [] ∨ (P.drop S.length).head? = some '/')) (by
    constructor
    · rintro ⟨⟨t, rfl⟩, h⟩
      rw [List.drop_left] at h
      exact ⟨t, rfl, h.imp_right fun h => List.head?_eq_some_iff.mp h⟩
    · rintro ⟨t, rfl, h⟩
      rw [List.drop_left]
      exact ⟨List.prefix_append S t, h.imp_right fun h => List.head?_eq_some_iff.mpr h⟩)

/-! ## The order -/

theorem Boundary.nil : Boundary [] := Or.inl rfl

/-- Of a string that follows a pathname, any beginning may. -/
theorem Boundary.of_append {t u : Str} (h : Boundary (t ++ u)) : Boundary t := by
  rcases h with h | ⟨v, hv⟩
  · exact Or.inl (List.append_eq_nil_iff.mp h).1
  · cases t with
    | nil => exact .nil
    | cons c t =>
      rw [List.cons_append, List.cons.injEq] at hv
      exact Or.inr ⟨t, by rw [hv.1]⟩

theorem Under.refl (P : Str) : Under P P := ⟨[], (List.append_nil P).symm, .nil⟩

theorem Under.trans {S P R : Str} (h₁ : Under S P) (h₂ : Under P R) : Under S R := by
  obtain ⟨t, rfl, ht⟩ := h₁
  obtain ⟨u, rfl, hu⟩ := h₂
  refine ⟨t ++ u, List.append_assoc S t u, ?_⟩
  rcases ht with rfl | ⟨v, rfl⟩
  · exact hu
  · exact Or.inr ⟨v ++ u, rfl⟩

theorem Under.length_le {S P : Str} (h : Under S P) : S.length ≤ P.length := by
  obtain ⟨t, rfl, -⟩ := h
  rw [List.length_append]
  exact Nat.le_add_right _ _

theorem Under.eq_of_length {S P : Str} (h : Under S P) (hlen : P.length ≤ S.length) : S = P := by
  obtain ⟨t, rfl, -⟩ := h
  rw [List.length_append] at hlen
  have ht : t = [] := List.length_eq_zero_iff.mp (by omega)
  rw [ht, List.append_nil]

theorem Under.antisymm {S P : Str} (h₁ : Under S P) (h₂ : Under P S) : S = P :=
  h₁.eq_of_length h₂.length_le

/-- **What is above one pathname is a chain.** -/
theorem Under.total {S S' P : Str} (h : Under S P) (h' : Under S' P) : Under S S' ∨ Under S' S := by
  obtain ⟨t, rfl, ht⟩ := h
  obtain ⟨t', heq, ht'⟩ := h'
  -- the shorter of the two is a beginning of the longer, and what is left over begins
  -- what follows the shorter one
  rcases List.append_eq_append_iff.mp heq with ⟨u, hS', ht₂⟩ | ⟨u, hS, ht₂⟩
  · exact Or.inl ⟨u, hS', (ht₂ ▸ ht).of_append⟩
  · exact Or.inr ⟨u, hS, (ht₂ ▸ ht').of_append⟩

/-! ## Entries of a directory -/

theorem under_child (p name : Str) : Under p (child p name) := ⟨'/' :: name, rfl, Or.inr ⟨name, rfl⟩⟩

theorem length_child (p name : Str) : (child p name).length = p.length + (name.length + 1) := by
  rw [child, List.length_append, List.length_cons]

theorem not_under_of_child (p name : Str) : ¬Under (child p name) p := by
  intro h
  have hle := h.length_le
  rw [length_child] at hle
  omega

/-- **Above an entry are the entry and what is above its directory.** -/
theorem under_child_iff {S p name : Str} (hname : '/' ∉ name) :
    Under S (child p name) ↔ S = child p name ∨ Under S p := by
  constructor
  · rintro ⟨t, heq, ht⟩
    rcases ht with rfl | ⟨u, rfl⟩
    · left
      rw [heq, List.append_nil]
    · right
      rcases List.append_eq_append_iff.mp heq with ⟨v, hS, hv⟩ | ⟨v, hp, hv⟩
      · -- the slash after `S` would be in the name
        cases v with
        | nil => exact ⟨[], by rw [hS, List.append_nil, List.append_nil], .nil⟩
        | cons c v =>
          rw [List.cons_append, List.cons.injEq] at hv
          exact absurd (hv.2 ▸ List.mem_append_right v List.mem_cons_self) hname
      · cases v with
        | nil => exact ⟨[], hp, .nil⟩
        | cons c v =>
          rw [List.cons_append, List.cons.injEq] at hv
          exact ⟨c :: v, hp, Or.inr ⟨v, by rw [hv.1]⟩⟩
  · rintro (rfl | h)
    · exact .refl _
    · exact h.trans (under_child p name)

/-! ## Carrying a subtree -/

/-- The pathname `P`, under `S`, after its beginning `S` has become `T`. -/
def rebase (S T P : Str) : Str := T ++ P.drop S.length

theorem rebase_append (S T t : Str) : rebase S T (S ++ t) = T ++ t := by
  rw [rebase, List.drop_left]

theorem rebase_self (S T : Str) : rebase S T S = T := by
  rw [rebase, List.drop_length, List.append_nil]

theorem under_rebase (T : Str) {S P : Str} (h : Under S P) : Under T (rebase S T P) := by
  obtain ⟨t, rfl, ht⟩ := h
  exact ⟨t, rebase_append S T t, ht⟩

theorem rebase_inj {S T P P' : Str} (h : Under S P) (h' : Under S P')
    (heq : rebase S T P = rebase S T P') : P = P' := by
  obtain ⟨t, rfl, -⟩ := h
  obtain ⟨t', rfl, -⟩ := h'
  rw [rebase_append, rebase_append] at heq
  rw [List.append_cancel_left heq]

/-- Above a pathname that has been carried there is nothing but what is above the new
place, and what has been carried with it. -/
theorem rebase_cases {S T P F : Str} (h : Under S P) (hF : Under F (rebase S T P)) :
    Under F T ∨ ∃ F', Under S F' ∧ Under F' P ∧ F = rebase S T F' := by
  obtain ⟨t, rfl, ht⟩ := h
  rw [rebase_append] at hF
  rcases hF.total ⟨t, rfl, ht⟩ with h | h
  · exact Or.inl h
  · right
    obtain ⟨v, rfl, hv⟩ := h
    obtain ⟨x, heq, hx⟩ := hF
    rw [List.append_assoc] at heq
    have ht : t = v ++ x := List.append_cancel_left heq
    refine ⟨S ++ v, ⟨v, rfl, hv⟩, ⟨x, ?_, hx⟩, (rebase_append S T v).symm⟩
    rw [ht, List.append_assoc]

end Tlpi.Pathname
