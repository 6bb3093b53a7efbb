/-
The **forest layer**: things that each have at most one thing above them, and the walk down
from one of them through lists of what is directly below. Nothing here is about this
repository.

`up x` is what is directly above `x`. That there is no endless way up (`Grounded`) is all that
is asked of it; that a way up meets nothing twice, and that two ways up from one place are one
a part of the other, follow. `Hangs` says of a table of lists that it is the table of what is
directly below, for the entries that it has. `walk_hangs` is then what the walk does: from
any entry it visits that entry and all that are below it, each once, and the depth of the
table is fuel enough.
-/
import Mathlib.Data.List.Nodup
import Mathlib.Logic.Relation
import Mathlib.Order.WellFounded
import Mathlib.Tactic.Common

set_option autoImplicit false

namespace Tlpi.Forest

universe u

variable {α : Type u} {up : α → Option α}

/-! ## The way up -/

/-- `y` is `x`, or is on the way up from it. -/
abbrev Above (up : α → Option α) : α → α → Prop :=
  Relation.ReflTransGen fun a b => up a = some b

/-- There is no endless way up. -/
def Grounded (up : α → Option α) : Prop := WellFounded fun p c => up c = some p

theorem Above.step {x y z : α} (h : up x = some y) (hz : Above up y z) : Above up x z :=
  Relation.ReflTransGen.head h hz

theorem above_iff {x z : α} : Above up x z ↔ x = z ∨ ∃ y, up x = some y ∧ Above up y z :=
  Relation.ReflTransGen.cases_head_iff

theorem above_iff_tail {x z : α} : Above up x z ↔ z = x ∨ ∃ y, Above up x y ∧ up y = some z :=
  Relation.ReflTransGen.cases_tail_iff _ _ _

theorem above_of_up {x p z : α} (h : up x = some p) : Above up x z ↔ z = x ∨ Above up p z := by
  rw [above_iff, h]
  constructor
  · rintro (rfl | ⟨y, hy, hz⟩)
    · exact .inl rfl
    · rw [Option.some.injEq] at hy
      exact .inr (hy ▸ hz)
  · rintro (rfl | hz)
    · exact .inl rfl
    · exact .inr ⟨p, rfl, hz⟩

/-- What has nothing above it is the end of every way up that meets it. -/
theorem above_of_top {x z : α} (h : up x = none) : Above up x z ↔ z = x := by
  rw [above_iff, h]
  constructor
  · rintro (rfl | ⟨y, hy, -⟩)
    · rfl
    · exact nomatch hy
  · rintro rfl
    exact .inl rfl

/-- A way up that has gone one step does not come back. -/
theorem Grounded.not_above (hup : Grounded up) {c p : α} (h : up c = some p) : ¬Above up p c := by
  intro hback
  have hdown : Relation.ReflTransGen (fun a b => up b = some a) c p :=
    Relation.reflTransGen_swap.mp hback
  have hcycle : Relation.TransGen (fun a b => up b = some a) p p :=
    Relation.TransGen.head' h hdown
  exact (WellFounded.transGen hup).irrefl.irrefl p hcycle

/-- Two ways up from one place are one a part of the other. -/
theorem Above.total {x y z : α} (hy : Above up x y) (hz : Above up x z) :
    Above up y z ∨ Above up z y := by
  refine Relation.ReflTransGen.total_of_right_unique ?_ hy hz
  intro a b c hb hc
  exact Option.some.inj (hb.symm.trans hc)

/-- Two things directly below the same thing have nothing below both of them. -/
theorem Grounded.siblings (hup : Grounded up) {x c c' y : α} (hc : up c = some x)
    (hc' : up c' = some x) (hy : Above up y c) (hy' : Above up y c') : c = c' := by
  -- if one were above the other, the way up would come back to it
  have hne : ∀ {a b : α}, up a = some x → up b = some x → Above up a b → a = b := by
    intro a b ha hb hab
    rcases above_iff.mp hab with he | ⟨z, hz, hzb⟩
    · exact he
    · rw [ha, Option.some.injEq] at hz
      subst hz
      exact absurd hzb (hup.not_above hb)
  rcases hy.total hy' with h | h
  · exact hne hc hc' h
  · exact (hne hc' hc h).symm

/-- The length of the way up. -/
noncomputable def Grounded.depth (hup : Grounded up) : α → ℕ :=
  hup.fix fun x rec => match h : up x with
    | none => 0
    | some p => rec p h + 1

theorem Grounded.depth_of_up (hup : Grounded up) {c p : α} (h : up c = some p) :
    hup.depth c = hup.depth p + 1 := by
  have hwf : WellFounded fun p c => up c = some p := hup
  rw [Grounded.depth, hwf.fix_eq]
  split
  · rename_i hnone
    rw [h] at hnone
    exact nomatch hnone
  · rename_i q hq
    rw [h, Option.some.injEq] at hq
    rw [hq]

theorem Grounded.depth_le (hup : Grounded up) {x y : α} (h : Above up x y) :
    hup.depth y ≤ hup.depth x := by
  induction h with
  | refl => exact le_rfl
  | tail _ hstep ih =>
    have := hup.depth_of_up hstep
    omega

/-- Every way up has an end. -/
theorem Grounded.exists_top (hup : Grounded up) (x : α) : ∃ t, Above up x t ∧ up t = none := by
  induction x using hup.induction with
  | _ x ih =>
    cases hx : up x with
    | none => exact ⟨x, .refl, hx⟩
    | some p =>
      obtain ⟨t, ht, htop⟩ := ih p hx
      exact ⟨t, ht.step hx, htop⟩

/-- The end of the way up is one. -/
theorem Above.top_unique {x t t' : α} (h : Above up x t) (ht : up t = none) (h' : Above up x t')
    (ht' : up t' = none) : t = t' := by
  rcases h.total h' with ha | ha
  · exact ((above_of_top ht).mp ha).symm
  · exact (above_of_top ht').mp ha

/-! ## The way down -/

/-- The table holds, for each of its entries, what is directly below. -/
structure Hangs (up : α → Option α) (children : α → Option (List α)) : Prop where
  mem : ∀ x cs, children x = some cs → ∀ c ∈ cs, (children c).isSome ∧ up c = some x
  nodup : ∀ x cs, children x = some cs → cs.Nodup
  linked : ∀ c x, (children c).isSome → up c = some x → ∃ cs, children x = some cs ∧ c ∈ cs

theorem Hangs.above {children : α → Option (List α)} (h : Hangs up children) {x y : α}
    (hx : (children x).isSome) (hxy : Above up x y) : (children y).isSome := by
  induction hxy with
  | refl => exact hx
  | tail _ hstep ih =>
    obtain ⟨cs, hcs, -⟩ := h.linked _ _ ih hstep
    rw [hcs]
    rfl

/-- Why a walk stops short. -/
inductive Stop where
  | outOfFuel
  /-- An entry that is not there. -/
  | missing
deriving Repr, DecidableEq

/-- The walk down, each entry before what is below it. -/
def walk (children : α → Option (List α)) : ℕ → α → Except Stop (List α)
  | 0, _ => .error .outOfFuel
  | fuel + 1, x =>
    match children x with
    | none => .error .missing
    | some cs => (cs.mapM (walk children fuel)).map fun ls => x :: ls.flatten

theorem mapM_ok {β : Type u} {ε : Type} {f : α → Except ε β} {Q : α → β → Prop} :
    ∀ {cs : List α}, (∀ c ∈ cs, ∃ b, f c = .ok b ∧ Q c b) →
      ∃ bs, cs.mapM f = .ok bs ∧ List.Forall₂ Q cs bs := by
  intro cs
  induction cs with
  | nil => intro _; exact ⟨[], rfl, .nil⟩
  | cons c cs ih =>
    intro h
    obtain ⟨b, hb, hQ⟩ := h c List.mem_cons_self
    obtain ⟨bs, hbs, hall⟩ := ih fun c' hc' => h c' (List.mem_cons_of_mem _ hc')
    refine ⟨b :: bs, ?_, .cons hQ hall⟩
    rw [List.mapM_cons, hb, hbs]
    rfl

theorem forall₂_of_mapM {β : Type u} {ε : Type} {f : α → Except ε β} :
    ∀ {cs : List α} {bs : List β}, cs.mapM f = .ok bs →
      List.Forall₂ (fun c b => f c = .ok b) cs bs := by
  intro cs
  induction cs with
  | nil =>
    intro bs h
    rw [List.mapM_nil] at h
    rw [← Except.ok.inj h]
    exact .nil
  | cons c cs ih =>
    intro bs h
    rw [List.mapM_cons] at h
    cases hc : f c with
    | error => rw [hc] at h; exact nomatch h
    | ok b =>
      cases hcs : cs.mapM f with
      | error => rw [hc, hcs] at h; exact nomatch h
      | ok bs' =>
        rw [hc, hcs] at h
        rw [← Except.ok.inj h]
        exact .cons hc (ih hcs)

theorem mapM_of_forall₂ {β : Type u} {ε : Type} {f : α → Except ε β} {cs : List α} {bs : List β}
    (h : List.Forall₂ (fun c b => f c = .ok b) cs bs) : cs.mapM f = .ok bs := by
  induction h with
  | nil => rfl
  | cons hc _ ih =>
    rw [List.mapM_cons, hc, ih]
    rfl

/-- `l` lists `c` and all that is below it in the table, each once. -/
def Lists (up : α → Option α) (children : α → Option (List α)) (c : α) (l : List α) : Prop :=
  l.Nodup ∧ ∀ y, y ∈ l ↔ (children y).isSome ∧ Above up y c

/-- Lists of what is below different things that have the same thing above them share nothing. -/
theorem lists_flatten {children : α → Option (List α)} (hup : Grounded up) {x : α} :
    ∀ {cs : List α} {ls : List (List α)}, List.Forall₂ (Lists up children) cs ls → cs.Nodup →
      (∀ c ∈ cs, up c = some x) →
      ls.flatten.Nodup ∧ ∀ y, y ∈ ls.flatten ↔ ∃ c ∈ cs, (children y).isSome ∧ Above up y c := by
  intro cs ls hall
  induction hall with
  | nil => simp
  | @cons c l cs ls hl hls ih =>
    intro hnodup hcs
    obtain ⟨hc, hnodup⟩ := List.nodup_cons.mp hnodup
    obtain ⟨hflat, hmem⟩ := ih hnodup fun c' hc' => hcs c' (List.mem_cons_of_mem _ hc')
    constructor
    · rw [List.flatten_cons, List.nodup_append]
      refine ⟨hl.1, hflat, ?_⟩
      rintro y hy z hz rfl
      obtain ⟨c', hc', -, hyc'⟩ := (hmem y).mp hz
      have hsame : c = c' := hup.siblings (hcs c List.mem_cons_self)
        (hcs c' (List.mem_cons_of_mem _ hc')) ((hl.2 y).mp hy).2 hyc'
      exact hc (hsame ▸ hc')
    · intro y
      simp only [List.flatten_cons, List.mem_append, hl.2 y, hmem y, List.mem_cons,
        exists_eq_or_imp]

/-- A walk down that starts with fuel for the depth of the table visits where it starts and
all that is below, each once. -/
theorem walk_hangs {children : α → Option (List α)} (hup : Grounded up)
    (hhangs : Hangs up children) {depth : ℕ}
    (hdepth : ∀ y, (children y).isSome → hup.depth y ≤ depth) :
    ∀ (fuel : ℕ) (x : α), (children x).isSome → depth < fuel + hup.depth x →
      ∃ l, walk children fuel x = .ok l ∧ Lists up children x l := by
  intro fuel
  induction fuel with
  | zero =>
    intro x hx hfuel
    have := hdepth x hx
    omega
  | succ fuel ih =>
    intro x hx hfuel
    obtain ⟨cs, hcs⟩ := Option.isSome_iff_exists.mp hx
    have hupc : ∀ c ∈ cs, up c = some x := fun c hc => (hhangs.mem x cs hcs c hc).2
    -- each of the walks from below has one step less to go
    have hbelow : ∀ c ∈ cs, ∃ l, walk children fuel c = .ok l ∧ Lists up children c l := by
      intro c hc
      have hd := hup.depth_of_up (hupc c hc)
      exact ih c (hhangs.mem x cs hcs c hc).1 (by omega)
    obtain ⟨ls, hls, hall⟩ := mapM_ok hbelow
    obtain ⟨hflat, hmem⟩ := lists_flatten hup hall (hhangs.nodup x cs hcs) hupc
    refine ⟨x :: ls.flatten, ?_, ?_, ?_⟩
    · rw [walk, hcs]
      simp only [hls]
      rfl
    · refine List.nodup_cons.mpr ⟨?_, hflat⟩
      intro hx'
      obtain ⟨c, hc, -, hxc⟩ := (hmem x).mp hx'
      exact hup.not_above (hupc c hc) hxc
    · intro y
      rw [List.mem_cons, hmem y]
      constructor
      · rintro (rfl | ⟨c, hc, hy, hyc⟩)
        · exact ⟨hx, .refl⟩
        · exact ⟨hy, hyc.tail (hupc c hc)⟩
      · rintro ⟨hy, hyx⟩
        rcases above_iff_tail.mp hyx with he | ⟨c, hyc, hc⟩
        · exact .inl he.symm
        · obtain ⟨cs', hcs', hmemc⟩ := hhangs.linked c x (hhangs.above hy hyc) hc
          rw [hcs, Option.some.injEq] at hcs'
          subst hcs'
          exact .inr ⟨c, hmemc, hy, hyc⟩

end Tlpi.Forest
