/-
`pipes/pipe_sync.c`: a parent that waits for its children by the end of file on a pipe.

Each process one call a step. A process is a number, `0` for the parent and `j` for the child of the `j`-th
argument; `writers` says who holds a descriptor for the write end, which is nobody's but that process's to
close, and which a child gets by `fork()`. Nobody writes, so the `read()` of the parent returns 0 when no
process holds one, and blocks until then. A process that a call fails in exits, which closes its
descriptors, and so does one that is killed. `worked` is a history variable: the child has done its work.

What the parent relies on is that it closes its own descriptor first, and that a child holds one from its
creation on, however late it runs.
-/
import Mathlib.Algebra.BigOperators.Intervals
import Mathlib.Logic.Function.Basic
import Tlpi.Parties
import Tlpi.Transition

set_option autoImplicit false

namespace Tlpi.PipeSync

open Tlpi.Parties Tlpi.Transition

/-! ## 1. The end of file -/

/-- None of these processes holds a descriptor for the write end. -/
def eof (writers : ℕ → Bool) (n : ℕ) : Bool := (List.range n).all fun i => !writers i

theorem eof_iff {writers : ℕ → Bool} {n : ℕ} : eof writers n = true ↔ ∀ i, i < n → writers i = false := by
  simp only [eof, List.all_eq_true, List.mem_range, Bool.not_eq_true']

/-! ## 2. The program -/

/-- The next call of the parent. -/
inductive Pc where
  | pipe
  | fork (j : ℕ)
  | close | read
  /-- `Parent ready to go` -/
  | ready
  | failed
deriving Repr, DecidableEq

/-- The next step of a child. -/
inductive ChildPc where
  | absent
  | closeRead | work | closeWrite
  /-- It carries on to do other things. -/
  | carryOn
  | dead
deriving Repr, DecidableEq

structure State where
  pc : Pc
  writers : ℕ → Bool
  child : ℕ → ChildPc
  worked : ℕ → Bool

def parentStep (argc : ℕ) (s : State) : Option State :=
  match s.pc with
  | .pipe => some { s with pc := .fork 1, writers := Function.update s.writers 0 true }
  | .fork j =>
    if j < argc then
      some { s with
        pc := .fork (j + 1)
        child := Function.update s.child j .closeRead
        writers := Function.update s.writers j (s.writers 0) }
    else some { s with pc := .close }
  | .close => some { s with pc := .read, writers := Function.update s.writers 0 false }
  | .read => if eof s.writers argc then some { s with pc := .ready } else none
  | .ready | .failed => none

/-- A call of the parent fails. -/
def parentFails (s : State) : Option State :=
  match s.pc with
  | .ready | .failed => none
  | _ => some { s with pc := .failed, writers := Function.update s.writers 0 false }

def childStep (j : ℕ) (s : State) : Option State :=
  match s.child j with
  | .closeRead => some { s with child := Function.update s.child j .work }
  | .work =>
    some { s with
      child := Function.update s.child j .closeWrite, worked := Function.update s.worked j true }
  | .closeWrite =>
    some { s with
      child := Function.update s.child j .carryOn, writers := Function.update s.writers j false }
  | .carryOn => some { s with child := Function.update s.child j .dead }
  | .absent | .dead => none

/-- A call of a child fails, or the child is killed. -/
def childFails (j : ℕ) (s : State) : Option State :=
  match s.child j with
  | .absent | .dead => none
  | _ =>
    some { s with
      child := Function.update s.child j .dead, writers := Function.update s.writers j false }

inductive Act where
  | parent | parentFails
  | child (j : ℕ)
  | childFails (j : ℕ)
deriving Repr, DecidableEq

def step (argc : ℕ) (s : State) : Act → Option State
  | .parent => parentStep argc s
  | .parentFails => parentFails s
  | .child j => childStep j s
  | .childFails j => childFails j s

def start : State where
  pc := .pipe
  writers _ := false
  child _ := .absent
  worked _ := false

/-- With a child for each argument. -/
def pipeSync (argc : ℕ) : System State Act where
  init s := s = start
  step := step argc

/-! ## 3. Who holds the write end -/

/-- The children that there are by now, below this. -/
def Pc.created (argc : ℕ) : Pc → ℕ
  | .pipe => 1
  | .fork j => j
  | _ => argc

/-- The parent has its descriptor. -/
def Pc.holds : Pc → Bool
  | .fork _ | .close => true
  | _ => false

def ChildPc.holds : ChildPc → Bool
  | .closeRead | .work | .closeWrite => true
  | _ => false

structure Inv (argc : ℕ) (s : State) : Prop where
  parent : s.writers 0 = s.pc.holds
  child : ∀ j, 0 < j → s.writers j = (s.child j).holds
  zero : s.child 0 = .absent
  created : s.pc ≠ .failed → 1 ≤ s.pc.created argc ∧ s.pc.created argc ≤ argc ∧
    ∀ j, 0 < j → (s.child j = .absent ↔ s.pc.created argc ≤ j)
  worked : ∀ j, s.child j = .closeWrite ∨ s.child j = .carryOn → s.worked j = true
  ready : s.pc = .ready → ∀ j, 0 < j → j < argc → (s.child j).holds = false

theorem inv_start {argc : ℕ} (h : 1 ≤ argc) : Inv argc start where
  parent := rfl
  child := fun _ _ => rfl
  zero := rfl
  created := fun _ => ⟨Nat.le_refl 1, h, fun _ hj => iff_of_true rfl hj⟩
  worked := fun _ hc => by rcases hc with hc | hc <;> cases hc
  ready := nofun

section Steps

variable {argc : ℕ} {s s' : State}

theorem Inv.parentStep (h : Inv argc s) (hs : parentStep argc s = some s') : Inv argc s' := by
  obtain ⟨pc, writers, child, worked⟩ := s
  cases pc with
  | pipe =>
    obtain rfl := Option.some.inj hs
    obtain ⟨h1, h2, h3⟩ := h.created nofun
    refine ⟨by simp only [Function.update_self, Pc.holds], fun j hj => ?_, h.zero,
      fun _ => ⟨h1, h2, h3⟩, h.worked, nofun⟩
    simp only
    rw [Function.update_of_ne (by omega)]
    exact h.child j hj
  | fork i =>
    obtain ⟨h1, h2, h3⟩ := h.created nofun
    simp only [Pc.created] at h1 h2 h3
    simp only [PipeSync.parentStep] at hs
    split at hs
    · rename_i hi
      obtain rfl := Option.some.inj hs
      have hparent := h.parent
      refine ⟨?_, fun j hj => ?_, ?_, fun _ => ⟨?_, ?_, fun j hj => ?_⟩, fun j hc => ?_, nofun⟩
      · simp only
        rw [Function.update_of_ne (by omega)]
        exact hparent
      · simp only
        rcases eq_or_ne j i with rfl | hne
        · rw [Function.update_self, Function.update_self]
          exact hparent
        · rw [Function.update_of_ne hne, Function.update_of_ne hne]
          exact h.child j hj
      · simp only
        rw [Function.update_of_ne (by omega)]
        exact h.zero
      · simp only [Pc.created]
        omega
      · simp only [Pc.created]
        omega
      · simp only [Pc.created]
        rcases eq_or_ne j i with rfl | hne
        · rw [Function.update_self]
          exact iff_of_false nofun (by omega)
        · rw [Function.update_of_ne hne, h3 j hj]
          omega
      · simp only at hc ⊢
        rcases eq_or_ne j i with rfl | hne
        · rw [Function.update_self] at hc
          rcases hc with hc | hc <;> cases hc
        · rw [Function.update_of_ne hne] at hc
          exact h.worked j hc
    · rename_i hi
      obtain rfl := Option.some.inj hs
      have harg : i = argc := by omega
      exact ⟨h.parent, h.child, h.zero, fun _ => ⟨by rw [harg] at h1; exact h1, Nat.le_refl _, harg ▸ h3⟩,
        h.worked, nofun⟩
  | close =>
    obtain rfl := Option.some.inj hs
    refine ⟨by simp only [Function.update_self, Pc.holds], fun j hj => ?_, h.zero,
      fun _ => h.created nofun, h.worked, nofun⟩
    simp only
    rw [Function.update_of_ne (by omega)]
    exact h.child j hj
  | read =>
    simp only [PipeSync.parentStep, Option.ite_none_right_eq_some] at hs
    obtain ⟨heof, hs⟩ := hs
    obtain rfl := Option.some.inj hs
    -- at the end of file no child holds a descriptor
    refine ⟨h.parent, h.child, h.zero, fun _ => h.created nofun, h.worked, fun _ j hj hlt => ?_⟩
    exact (h.child j hj).symm.trans (eof_iff.mp heof j hlt)
  | ready | failed => simp only [PipeSync.parentStep, reduceCtorEq] at hs

theorem Inv.parentFails (h : Inv argc s) (hs : parentFails s = some s') : Inv argc s' := by
  have hfailed : s' = { s with pc := .failed, writers := Function.update s.writers 0 false } := by
    unfold PipeSync.parentFails at hs
    split at hs
    · cases hs
    · cases hs
    · exact (Option.some.inj hs).symm
  subst hfailed
  refine ⟨by simp only [Function.update_self, Pc.holds], fun j hj => ?_, h.zero, fun hc => absurd rfl hc,
    h.worked, nofun⟩
  simp only
  rw [Function.update_of_ne (by omega)]
  exact h.child j hj

/-- A child goes on, and keeps its descriptor or gives it up. -/
theorem Inv.child_moves (h : Inv argc s) {j : ℕ} {pc : ChildPc} {writers worked : ℕ → Bool}
    (hfrom : s.child j ≠ .absent) (hpc : pc ≠ .absent)
    (hwriters : writers = Function.update s.writers j pc.holds)
    (hworked : ∀ i, s.worked i = true → worked i = true)
    (hdone : pc = .closeWrite ∨ pc = .carryOn → worked j = true)
    (hkeeps : pc.holds = true → (s.child j).holds = true) :
    Inv argc { s with child := Function.update s.child j pc, writers := writers, worked := worked } := by
  have hj : j ≠ 0 := fun hc => hfrom (hc ▸ h.zero)
  refine ⟨?_, fun i hi => ?_, ?_, fun hok => ?_, fun i hc => ?_, fun hready i hi hlt => ?_⟩
  · simp only
    rw [hwriters, Function.update_of_ne (Ne.symm hj)]
    exact h.parent
  · simp only
    rw [hwriters]
    rcases eq_or_ne i j with rfl | hne
    · rw [Function.update_self, Function.update_self]
    · rw [Function.update_of_ne hne, Function.update_of_ne hne]
      exact h.child i hi
  · simp only
    rw [Function.update_of_ne (Ne.symm hj)]
    exact h.zero
  · obtain ⟨h1, h2, h3⟩ := h.created hok
    refine ⟨h1, h2, fun i hi => ?_⟩
    simp only
    rcases eq_or_ne i j with rfl | hne
    · rw [Function.update_self]
      exact iff_of_false hpc fun hc => hfrom ((h3 i hi).mpr hc)
    · rw [Function.update_of_ne hne]
      exact h3 i hi
  · simp only at hc ⊢
    rcases eq_or_ne i j with rfl | hne
    · rw [Function.update_self] at hc
      exact hdone hc
    · rw [Function.update_of_ne hne] at hc
      exact hworked i (h.worked i hc)
  · simp only
    rcases eq_or_ne i j with rfl | hne
    · rw [Function.update_self, ← Bool.not_eq_true]
      intro hc
      have := h.ready hready i hi hlt
      rw [hkeeps hc] at this
      cases this
    · rw [Function.update_of_ne hne]
      exact h.ready hready i hi hlt

theorem Inv.childStep (h : Inv argc s) {j : ℕ} (hs : childStep j s = some s') : Inv argc s' := by
  -- a step that does not close anything
  have hsame : ∀ pc pc' : ChildPc, s.child j = pc → pc ≠ .absent → pc'.holds = pc.holds →
      s.writers = Function.update s.writers j pc'.holds := fun pc pc' hpc hne hholds => by
    have hj : 0 < j := Nat.pos_of_ne_zero fun hc => hne (by rw [← hpc, hc]; exact h.zero)
    rw [hholds, ← hpc, ← h.child j hj, Function.update_eq_self]
  cases hpc : s.child j with
  | absent | dead => simp only [PipeSync.childStep, hpc, reduceCtorEq] at hs
  | closeRead =>
    simp only [PipeSync.childStep, hpc, Option.some.injEq] at hs
    rw [← hs]
    exact h.child_moves (by rw [hpc]; nofun) nofun (hsame _ _ hpc nofun rfl) (fun _ hw => hw)
      (fun hc => by rcases hc with hc | hc <;> cases hc) fun _ => by rw [hpc]; rfl
  | work =>
    simp only [PipeSync.childStep, hpc, Option.some.injEq] at hs
    rw [← hs]
    refine h.child_moves (by rw [hpc]; nofun) nofun (hsame _ _ hpc nofun rfl) (fun i hw => ?_)
      (fun _ => Function.update_self ..) fun _ => by rw [hpc]; rfl
    rcases eq_or_ne i j with rfl | hne
    · exact Function.update_self ..
    · rw [Function.update_of_ne hne]
      exact hw
  | closeWrite =>
    simp only [PipeSync.childStep, hpc, Option.some.injEq] at hs
    rw [← hs]
    exact h.child_moves (by rw [hpc]; nofun) nofun rfl (fun _ hw => hw) (fun _ => h.worked j (.inl hpc)) nofun
  | carryOn =>
    simp only [PipeSync.childStep, hpc, Option.some.injEq] at hs
    rw [← hs]
    exact h.child_moves (by rw [hpc]; nofun) nofun (hsame _ _ hpc nofun rfl) (fun _ hw => hw)
      (fun hc => by rcases hc with hc | hc <;> cases hc) nofun

theorem Inv.childFails (h : Inv argc s) {j : ℕ} (hs : childFails j s = some s') : Inv argc s' := by
  have hdead : s.child j ≠ .absent ∧ s' = { s with
      child := Function.update s.child j .dead, writers := Function.update s.writers j false } := by
    unfold PipeSync.childFails at hs
    split at hs
    · cases hs
    · cases hs
    · rename_i habsent _
      exact ⟨habsent, (Option.some.inj hs).symm⟩
  obtain ⟨habsent, rfl⟩ := hdead
  exact h.child_moves habsent nofun rfl (fun _ hw => hw) (fun hc => by rcases hc with hc | hc <;> cases hc)
    nofun

theorem Inv.step {a : Act} (h : Inv argc s) (hs : step argc s a = some s') : Inv argc s' := by
  cases a with
  | parent => exact h.parentStep hs
  | parentFails => exact h.parentFails hs
  | child j => exact h.childStep hs
  | childFails j => exact h.childFails hs

end Steps

theorem inv_of_reaches {argc : ℕ} (hargc : 1 ≤ argc) {C : State → Act → Prop} {s : State}
    (h : Reaches (pipeSync argc) C s) : Inv argc s :=
  h.invariant (I := Inv argc) (fun _ hs => by cases hs; exact inv_start hargc) fun _ _ _ hi _ hs => hi.step hs

/-- **The parent is not ready before its children**: whenever it has seen the end of file, every child
either has done its work or is no more. -/
theorem ready_after_children {argc : ℕ} (hargc : 1 ≤ argc) {s : State} (h : Reachable (pipeSync argc) s)
    (hready : s.pc = .ready) {j : ℕ} (hj : 0 < j) (hlt : j < argc) :
    s.worked j = true ∨ s.child j = .dead := by
  have hi := inv_of_reaches hargc h
  have hholds := hi.ready hready j hj hlt
  have hcreated : s.child j ≠ .absent := by
    obtain ⟨-, -, h3⟩ := hi.created (by rw [hready]; nofun)
    rw [Ne, h3 j hj, hready]
    exact Nat.not_le.mpr hlt
  cases hpc : s.child j with
  | absent => exact absurd hpc hcreated
  | carryOn => exact .inl (hi.worked j (.inr hpc))
  | dead => exact .inr rfl
  | closeRead | work | closeWrite =>
    rw [hpc] at hholds
    cases hholds

/-- Two children, of which the second is killed. -/
theorem ready_after_children_killed : ∃ s : State, s.pc = .ready ∧ s.worked 2 = false ∧
    (s.worked 1 = true ∨ s.child 1 = .dead) := by
  have hrun : ((pipeSync 3).run start [.parent, .parent, .child 1, .parent, .parent, .childFails 2, .parent,
      .child 1, .child 1, .parent]).map (fun s => (s.pc, s.worked 2)) = some (.ready, false) := by decide
  obtain ⟨s, hs, hpc⟩ := Option.map_eq_some_iff.mp hrun
  rw [Prod.mk.injEq] at hpc
  exact ⟨s, hpc.1, hpc.2, ready_after_children (by decide) (System.reachable_of_run _ (.init rfl) hs) hpc.1
    (by decide) (by decide)⟩

/-! ## 4. The parent gets ready -/

/-- Nobody's call fails, and nobody is killed. -/
def Act.succeeds : Act → Bool
  | .parent | .child _ => true
  | .parentFails | .childFails _ => false

structure Going (argc : ℕ) (s : State) : Prop where
  inv : Inv argc s
  parent : s.pc ≠ .failed
  dead : ∀ j, s.child j = .dead → s.worked j = true

/-- The calls that the parent has left, with those of the children it has still to create. -/
def Pc.rank (argc : ℕ) : Pc → ℕ
  | .pipe => 5 * argc
  | .fork j => 5 * (argc - j) + 3
  | .close => 2
  | .read => 1
  | .ready | .failed => 0

def ChildPc.rank : ChildPc → ℕ
  | .closeRead => 4
  | .work => 3
  | .closeWrite => 2
  | .carryOn => 1
  | .absent | .dead => 0

def State.budget (argc : ℕ) (s : State) : ℕ :=
  s.pc.rank argc + ∑ j ∈ Finset.range argc, (s.child j).rank

section Steps

variable {argc : ℕ} {s s' : State}

theorem Going.parentStep (h : Going argc s) (hs : PipeSync.parentStep argc s = some s') :
    Going argc s' ∧ s'.budget argc < s.budget argc := by
  have hinv := h.inv.parentStep hs
  obtain ⟨h1, h2, h3⟩ := h.inv.created h.parent
  obtain ⟨pc, writers, child, worked⟩ := s
  cases pc with
  | pipe =>
    obtain rfl := Option.some.inj hs
    refine ⟨⟨hinv, nofun, h.dead⟩, ?_⟩
    simp only [State.budget, Pc.rank]
    simp only [Pc.created] at h2
    omega
  | fork i =>
    simp only [Pc.created] at h1 h3
    simp only [PipeSync.parentStep] at hs
    split at hs
    · rename_i hi
      obtain rfl := Option.some.inj hs
      have habsent : child i = .absent := (h3 i h1).mpr (Nat.le_refl i)
      refine ⟨⟨hinv, nofun, fun j hj => ?_⟩, ?_⟩
      · simp only at hj ⊢
        rcases eq_or_ne j i with rfl | hne
        · rw [Function.update_self] at hj
          cases hj
        · rw [Function.update_of_ne hne] at hj
          exact h.dead j hj
      · have hsum := sum_update_mem ChildPc.rank child .closeRead (Finset.mem_range.mpr hi)
        rw [habsent] at hsum
        simp only [State.budget, Pc.rank]
        simp only [ChildPc.rank] at hsum ⊢
        omega
    · obtain rfl := Option.some.inj hs
      refine ⟨⟨hinv, nofun, h.dead⟩, ?_⟩
      simp only [State.budget, Pc.rank]
      omega
  | close =>
    obtain rfl := Option.some.inj hs
    refine ⟨⟨hinv, nofun, h.dead⟩, ?_⟩
    simp only [State.budget, Pc.rank]
    omega
  | read =>
    simp only [PipeSync.parentStep, Option.ite_none_right_eq_some] at hs
    obtain rfl := Option.some.inj hs.2
    refine ⟨⟨hinv, nofun, h.dead⟩, ?_⟩
    simp only [State.budget, Pc.rank]
    omega
  | ready | failed => simp only [PipeSync.parentStep, reduceCtorEq] at hs

/-- What a step of a child changes: it goes on, and what it has done stays done. -/
theorem childStep_cases {j : ℕ} (hs : childStep j s = some s') :
    s.child j ≠ .absent ∧ ∃ pc, pc.rank < (s.child j).rank ∧ s'.pc = s.pc ∧
      s'.child = Function.update s.child j pc ∧ (∀ i, s.worked i = true → s'.worked i = true) ∧
      (pc = .dead → s.child j = .carryOn) := by
  cases hpc : s.child j with
  | absent | dead => simp only [childStep, hpc, reduceCtorEq] at hs
  | work =>
    simp only [childStep, hpc, Option.some.injEq] at hs
    rw [← hs]
    refine ⟨nofun, .closeWrite, by decide, rfl, rfl, fun i hi => ?_, nofun⟩
    simp only
    rcases eq_or_ne i j with rfl | hne
    · exact Function.update_self ..
    · rw [Function.update_of_ne hne]
      exact hi
  | closeRead | closeWrite | carryOn =>
    simp only [childStep, hpc, Option.some.injEq] at hs
    rw [← hs]
    exact ⟨nofun, _, by decide, rfl, rfl, fun _ hi => hi, by decide⟩

theorem Going.childStep (h : Going argc s) {j : ℕ} (hs : PipeSync.childStep j s = some s') :
    Going argc s' ∧ s'.budget argc < s.budget argc := by
  obtain ⟨hthere, pc, hrank, hsame, hchild, hworked, hdead⟩ := childStep_cases hs
  refine ⟨⟨h.inv.childStep hs, by rw [hsame]; exact h.parent, fun i hi => hworked i ?_⟩, ?_⟩
  · rw [hchild] at hi
    rcases eq_or_ne i j with rfl | hne
    · rw [Function.update_self] at hi
      exact h.inv.worked i (.inr (hdead hi))
    · rw [Function.update_of_ne hne] at hi
      exact h.dead i hi
  · -- only children that there are take steps
    have hlt : j < argc := by
      obtain ⟨-, hle, hiff⟩ := h.inv.created h.parent
      have hj : 0 < j := Nat.pos_of_ne_zero fun hc => hthere (hc ▸ h.inv.zero)
      rw [Ne, hiff j hj] at hthere
      omega
    have hsum := sum_update_mem ChildPc.rank s.child pc (Finset.mem_range.mpr hlt)
    simp only [State.budget, hsame, hchild]
    omega

theorem Going.step {a : Act} (h : Going argc s) (ha : a.succeeds = true) (hs : step argc s a = some s') :
    Going argc s' ∧ s'.budget argc < s.budget argc := by
  cases a with
  | parent => exact h.parentStep hs
  | child j => exact h.childStep hs
  | parentFails | childFails j => cases ha

/-- Where nothing more can happen, everything is done. -/
theorem Going.finished (h : Going argc s) (hrest : ∀ a, a.succeeds = true → PipeSync.step argc s a = none) :
    s.pc = .ready ∧ ∀ j, 0 < j → j < argc → s.worked j = true ∧ s.child j = .dead := by
  obtain ⟨-, -, hcreated⟩ := h.inv.created h.parent
  have hparent : PipeSync.parentStep argc s = none := hrest .parent rfl
  have hover : ∀ j, s.child j = .absent ∨ s.child j = .dead := fun j => by
    have hj : PipeSync.childStep j s = none := hrest (.child j) rfl
    cases hpc : s.child j with
    | absent => exact .inl rfl
    | dead => exact .inr rfl
    | closeRead | work | closeWrite | carryOn => simp only [PipeSync.childStep, hpc, reduceCtorEq] at hj
  have hready : s.pc = .ready := by
    cases hpc : s.pc with
    | ready => rfl
    | failed => exact absurd hpc h.parent
    | pipe | close => simp only [PipeSync.parentStep, hpc, reduceCtorEq] at hparent
    | fork i =>
      simp only [PipeSync.parentStep, hpc] at hparent
      split at hparent <;> cases hparent
    | read =>
      -- nobody holds a descriptor, so the `read()` returns
      have heof : eof s.writers argc = true := eof_iff.mpr fun i _ => by
        rcases Nat.eq_zero_or_pos i with rfl | hi
        · rw [h.inv.parent, hpc]
          rfl
        · rw [h.inv.child i hi]
          rcases hover i with hc | hc <;> rw [hc] <;> rfl
      simp only [PipeSync.parentStep, hpc, heof, if_pos, reduceCtorEq] at hparent
  refine ⟨hready, fun j hj hlt => ?_⟩
  have hdead : s.child j = .dead := (hover j).resolve_left fun hc => by
    rw [hcreated j hj, hready] at hc
    exact absurd hlt (Nat.not_lt.mpr hc)
  exact ⟨h.dead j hdead, hdead⟩

end Steps

/-- **Everybody gets to the end**: without failures a run has at most five steps for each argument, and
where nothing more can happen, the parent has seen the end of file and every child has done its work. -/
theorem always_ready {argc : ℕ} (hargc : 1 ≤ argc) (as : List Act) {s : State}
    (hrun : (pipeSync argc).runWith (fun _ a => a.succeeds = true) start as = some s) :
    as.length ≤ 5 * argc ∧ ((∀ a, a.succeeds = true → step argc s a = none) →
      s.pc = .ready ∧ ∀ j, 0 < j → j < argc → s.worked j = true ∧ s.child j = .dead) := by
  have hstart : start.budget argc = 5 * argc := by
    simp only [State.budget, start, Pc.rank, ChildPc.rank, Finset.sum_const_zero, Nat.add_zero]
  obtain ⟨hgoing, hle⟩ := System.runWith_measure (S := pipeSync argc) (I := Going argc)
    (m := State.budget argc) (fun _ _ _ h ha hs => h.step ha hs) as ⟨inv_start hargc, nofun, nofun⟩ hrun
  exact ⟨by omega, hgoing.finished⟩

/-- The `read()` of the parent before the one child has run. -/
theorem always_ready_one : ∃ s : State, s.pc = .ready ∧
    ∀ j, 0 < j → j < 2 → s.worked j = true ∧ s.child j = .dead := by
  have hrun : ((pipeSync 2).runWith (fun _ a => a.succeeds = true) start
      [.parent, .parent, .parent, .parent, .child 1, .child 1, .child 1, .parent, .child 1]).map
      (fun s => (s.pc, s.child 1)) = some (.ready, .dead) := by decide
  obtain ⟨s, hs, hpc⟩ := Option.map_eq_some_iff.mp hrun
  rw [Prod.mk.injEq] at hpc
  refine ⟨s, (always_ready (by decide) _ hs).2 fun a ha => ?_⟩
  cases a with
  | parent => simp only [step, parentStep, hpc.1]
  | parentFails | childFails j => cases ha
  | child j =>
    have hi : Inv 2 s := inv_of_reaches (by decide) (System.reaches_of_runWith _ (.init rfl) hs)
    obtain ⟨-, -, hcreated⟩ := hi.created (by rw [hpc.1]; nofun)
    have hpcj : s.child j = .absent ∨ s.child j = .dead := by
      rcases Nat.eq_zero_or_pos j with rfl | hj
      · exact .inl hi.zero
      · rcases Nat.lt_or_ge j 2 with hlt | hge
        · obtain rfl : j = 1 := by omega
          exact .inr hpc.2
        · exact .inl ((hcreated j hj).mpr (by rw [hpc.1]; exact hge))
    rcases hpcj with hc | hc <;> simp only [step, childStep, hc]

end Tlpi.PipeSync
