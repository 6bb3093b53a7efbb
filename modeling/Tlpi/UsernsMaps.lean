/-
`namespaces/userns_child_exec.c`: `main()`, `update_child_maps()` and `childFunc()`, with `update_map()` and
`proc_setgroups_write()` of `namespaces/userns_functions.c`.

The parent writes the maps of the child's user namespace while the child waits for the end of file on a
pipe, as in `pipe_sync.c`, and executes its command then. Each call is a step, and each process may fail
in any of its calls, or be killed, which closes its descriptor. `written` is a history variable: the
pathnames below `/proc` that have been written to, and what.

The end of file comes when the parent has closed its descriptor, but also when it has exited because a map
could not be written; the child cannot tell the two apart, and executes its command in both cases.
-/
import Mathlib.Logic.Function.Basic
import Tlpi.PipeSync
import Tlpi.UsernsChildExec

set_option autoImplicit false

namespace Tlpi.UsernsMaps

open Tlpi.CString Tlpi.Decimal Tlpi.Getopt Tlpi.Transition
open Tlpi.PipeSync (eof eof_iff)
open Tlpi.UsernsChildExec (CmdOptions)

/-! ## 1. What is written -/

/-- A file of the child below `/proc`. -/
inductive ProcFile where
  | uid_map | setgroups | gid_map | projid_map
deriving Repr, DecidableEq

def ProcFile.name : ProcFile → Word
  | .uid_map => bytes "/uid_map"
  | .setgroups => bytes "/setgroups"
  | .gid_map => bytes "/gid_map"
  | .projid_map => bytes "/projid_map"

structure Update where
  file : ProcFile
  text : Word
deriving Repr, DecidableEq

/-- `update_map()` writes its argument with newlines for the commas. -/
def mapText (mapping : Word) : Word := mapping.map fun c => if c = 44 then 10 else c

/-- `0 %ld 1` -/
def rootMap (id : ℤ) : Word := bytes "0 " ++ printInt id ++ bytes " 1"

/-- The options, and what the parent is told by its calls. -/
structure Setup where
  opts : CmdOptions
  uid : ℤ
  gid : ℤ
  childPid : ℕ
  /-- The kernel has `/proc/PID/setgroups`. -/
  hasSetgroups : Bool

namespace Setup

variable (setup : Setup)

def uidUpdates : List Update :=
  if setup.opts.createRootMappings then [⟨.uid_map, mapText (rootMap setup.uid)⟩]
  else setup.opts.uidMap.toList.map fun mapping => ⟨.uid_map, mapText mapping⟩

def gidUpdates : List Update :=
  if setup.opts.createRootMappings then [⟨.gid_map, mapText (rootMap setup.gid)⟩]
  else setup.opts.gidMap.toList.map fun mapping => ⟨.gid_map, mapText mapping⟩

def projidUpdates : List Update :=
  setup.opts.projidMap.toList.map fun mapping => ⟨.projid_map, mapText mapping⟩

/-- `update_child_maps()`: the files in the order in which they are opened. -/
def updateChildMaps : List Update :=
  setup.uidUpdates ++
    (if setup.opts.denySetgroups ∧ setup.gidUpdates ≠ [] then [⟨.setgroups, bytes "deny"⟩] else []) ++
    setup.gidUpdates ++ setup.projidUpdates

def path (file : ProcFile) : Word := bytes "/proc/" ++ decimal setup.childPid ++ file.name

/-- The `open()` of `proc_setgroups_write()` fails with ENOENT, which is no error. -/
def skips (u : Update) : Bool := u.file = .setgroups && !setup.hasSetgroups

/-- What these updates write. -/
def writes (todo : List Update) : List (Word × Word) :=
  (todo.filter fun u => !setup.skips u).map fun u => (setup.path u.file, u.text)

end Setup

/-! ## 2. The program -/

/-- The next call of the parent. -/
inductive Pc where
  | prctl | pipe | mmap | clone | munmap
  | openFile (u : Update) (todo : List Update)
  | writeFile (u : Update) (todo : List Update)
  | closeFile (todo : List Update)
  | closePipe | waitpid
  | done | failed
deriving Repr, DecidableEq

/-- The next step of the child. -/
inductive ChildPc where
  | absent
  | closeWrite | read | closeRead
  /-- `perform_repeatable_options()` -/
  | perform
  | execvp
  /-- The command runs. -/
  | command
  | dead
deriving Repr, DecidableEq

structure State where
  pc : Pc
  child : ChildPc
  /-- Who holds a descriptor for the write end: the parent is 0, the child 1. -/
  writers : ℕ → Bool
  written : List (Word × Word)

/-- The next file, if there is one. -/
def Pc.update : List Update → Pc
  | [] => .closePipe
  | u :: todo => .openFile u todo

def parentStep (setup : Setup) (s : State) : Option State :=
  match s.pc with
  | .prctl => some { s with pc := .pipe }
  | .pipe => some { s with pc := .mmap, writers := Function.update s.writers 0 true }
  | .mmap => some { s with pc := .clone }
  | .clone =>
    some { s with
      pc := .munmap, child := .closeWrite, writers := Function.update s.writers 1 (s.writers 0) }
  | .munmap => some { s with pc := .update setup.updateChildMaps }
  | .openFile u todo => some { s with pc := if setup.skips u then .update todo else .writeFile u todo }
  | .writeFile u todo =>
    some { s with pc := .closeFile todo, written := s.written ++ [(setup.path u.file, u.text)] }
  | .closeFile todo => some { s with pc := .update todo }
  | .closePipe => some { s with pc := .waitpid, writers := Function.update s.writers 0 false }
  | .waitpid => if s.child = .dead then some { s with pc := .done } else none
  | .done | .failed => none

/-- A call of the parent fails, or the parent is killed. -/
def parentFails (s : State) : Option State :=
  match s.pc with
  | .done | .failed => none
  | _ => some { s with pc := .failed, writers := Function.update s.writers 0 false }

def childStep (s : State) : Option State :=
  match s.child with
  | .closeWrite => some { s with child := .read, writers := Function.update s.writers 1 false }
  | .read => if eof s.writers 2 then some { s with child := .closeRead } else none
  | .closeRead => some { s with child := .perform }
  | .perform => some { s with child := .execvp }
  | .execvp => some { s with child := .command }
  | .command => some { s with child := .dead }
  | .absent | .dead => none

/-- A call of the child fails, or the child is killed. -/
def childFails (s : State) : Option State :=
  match s.child with
  | .absent | .dead => none
  | _ => some { s with child := .dead, writers := Function.update s.writers 1 false }

inductive Act where
  | parent | parentFails | child | childFails
deriving Repr, DecidableEq

def step (setup : Setup) (s : State) : Act → Option State
  | .parent => parentStep setup s
  | .parentFails => parentFails s
  | .child => childStep s
  | .childFails => childFails s

def start : State where
  pc := .prctl
  child := .absent
  writers _ := false
  written := []

def usernsChildExec (setup : Setup) : System State Act where
  init s := s = start
  step := step setup

/-! ## 3. Who is where -/

/-- The child has seen the end of file. -/
def ChildPc.passed : ChildPc → Bool
  | .closeRead | .perform | .execvp | .command => true
  | _ => false

/-- The parent has its descriptor. -/
def Pc.holds : Pc → Bool
  | .prctl | .pipe | .waitpid | .done | .failed => false
  | _ => true

def Pc.created : Pc → Bool
  | .prctl | .pipe | .mmap | .clone => false
  | _ => true

/-- The updates that the parent has still to make. -/
def Pc.todo (setup : Setup) : Pc → List Update
  | .prctl | .pipe | .mmap | .clone | .munmap => setup.updateChildMaps
  | .openFile u todo | .writeFile u todo => u :: todo
  | .closeFile todo => todo
  | .closePipe | .waitpid | .done | .failed => []

@[simp] theorem todo_update (setup : Setup) (todo : List Update) : (Pc.update todo).todo setup = todo := by
  cases todo <;> rfl

@[simp] theorem holds_update (todo : List Update) : (Pc.update todo).holds = true := by
  cases todo <;> rfl

@[simp] theorem created_update (todo : List Update) : (Pc.update todo).created = true := by
  cases todo <;> rfl

structure Inv (setup : Setup) (s : State) : Prop where
  parent : s.writers 0 = s.pc.holds
  child : s.writers 1 = decide (s.child = .closeWrite)
  created : s.pc ≠ .failed → (s.child = .absent ↔ s.pc.created = false)
  /-- What is written and what is left is the whole. -/
  books : s.pc ≠ .failed → s.written ++ setup.writes (s.pc.todo setup) = setup.writes setup.updateChildMaps
  begun : s.written <+: setup.writes setup.updateChildMaps
  writable : ∀ u todo, s.pc = .writeFile u todo → setup.skips u = false
  passed : s.child.passed = true → s.pc = .waitpid ∨ s.pc = .done ∨ s.pc = .failed
  reaped : s.pc = .done → s.child = .dead

theorem inv_start (setup : Setup) : Inv setup start where
  parent := rfl
  child := rfl
  created := fun _ => iff_of_true rfl rfl
  books := fun _ => rfl
  begun := List.nil_prefix
  writable := fun _ _ h => by cases h
  passed := fun h => by cases h
  reaped := fun h => by cases h

section Steps

variable {setup : Setup} {s s' : State}

theorem writes_cons (u : Update) (todo : List Update) :
    setup.writes (u :: todo) =
      if setup.skips u = true then setup.writes todo
      else (setup.path u.file, u.text) :: setup.writes todo := by
  rw [Setup.writes, List.filter_cons]
  cases h : setup.skips u with
  | true => rfl
  | false => rfl

/-- The parent goes on with neither the pipe nor the child. -/
theorem Inv.goes (h : Inv setup s) {pc : Pc} {written : List (Word × Word)} (hok : s.pc ≠ .failed)
    (hholds : pc.holds = s.pc.holds) (hcreated : pc.created = s.pc.created)
    (hbooks : written ++ setup.writes (pc.todo setup) = s.written ++ setup.writes (s.pc.todo setup))
    (hwritable : ∀ u todo, pc = .writeFile u todo → setup.skips u = false)
    (hpassed : s.child.passed = true → pc = .waitpid ∨ pc = .done ∨ pc = .failed)
    (hreaped : pc = .done → s.child = .dead) :
    Inv setup { s with pc := pc, written := written } where
  parent := h.parent.trans hholds.symm
  child := h.child
  created := fun _ => (h.created hok).trans (by rw [hcreated])
  books := fun _ => hbooks.trans (h.books hok)
  begun := by
    rw [← h.books hok, ← hbooks]
    exact List.prefix_append ..
  writable := hwritable
  passed := hpassed
  reaped := hreaped

/-- The child cannot have passed while the parent is still on its way. -/
theorem Inv.not_passed (h : Inv setup s) (hpc : s.pc ≠ .waitpid ∧ s.pc ≠ .done ∧ s.pc ≠ .failed) {P : Prop} :
    s.child.passed = true → P := fun hpassed => by
  rcases h.passed hpassed with hc | hc | hc
  · exact absurd hc hpc.1
  · exact absurd hc hpc.2.1
  · exact absurd hc hpc.2.2

/-- The parent goes on to the next file. -/
theorem Inv.goes_update (h : Inv setup s) {todo : List Update} {written : List (Word × Word)}
    (hpc : s.pc ≠ .waitpid ∧ s.pc ≠ .done ∧ s.pc ≠ .failed) (hholds : s.pc.holds = true)
    (hcreated : s.pc.created = true)
    (hbooks : written ++ setup.writes todo = s.written ++ setup.writes (s.pc.todo setup)) :
    Inv setup { s with pc := .update todo, written := written } := by
  have hnext : (∀ u todo', Pc.update todo ≠ .writeFile u todo') ∧ Pc.update todo ≠ .done := by
    cases todo <;> exact ⟨nofun, nofun⟩
  refine h.goes hpc.2.2 ?_ ?_ ?_ (fun u todo' hc => absurd hc (hnext.1 u todo')) (h.not_passed hpc)
    fun hc => absurd hc hnext.2
  · rw [hholds, holds_update]
  · rw [hcreated, created_update]
  · rw [todo_update, hbooks]

theorem Inv.parentStep (h : Inv setup s) (hs : parentStep setup s = some s') : Inv setup s' := by
  cases hpc : s.pc with
  | done | failed => simp only [UsernsMaps.parentStep, hpc, reduceCtorEq] at hs
  | prctl | mmap =>
    simp only [UsernsMaps.parentStep, hpc, Option.some.injEq] at hs
    rw [← hs]
    refine h.goes (by rw [hpc]; nofun) (by rw [hpc]; rfl) (by rw [hpc]; rfl) (by rw [hpc]; rfl) nofun
      (h.not_passed ?_) nofun
    rw [hpc]
    exact ⟨nofun, nofun, nofun⟩
  | pipe =>
    simp only [UsernsMaps.parentStep, hpc, Option.some.injEq] at hs
    rw [← hs]
    have hok : s.pc ≠ .failed := by rw [hpc]; nofun
    have hcreated := h.created hok
    have hbooks := h.books hok
    rw [hpc] at hcreated hbooks
    refine ⟨?_, ?_, fun _ => hcreated, fun _ => hbooks, h.begun, nofun,
      h.not_passed (by rw [hpc]; exact ⟨nofun, nofun, nofun⟩), nofun⟩
    · simp only [Function.update_self, Pc.holds]
    · simp only
      rw [Function.update_of_ne (by decide)]
      exact h.child
  | clone =>
    simp only [UsernsMaps.parentStep, hpc, Option.some.injEq] at hs
    rw [← hs]
    have hok : s.pc ≠ .failed := by rw [hpc]; nofun
    have hparent := h.parent
    have hbooks := h.books hok
    rw [hpc] at hparent hbooks
    refine ⟨?_, ?_, fun _ => iff_of_false nofun nofun, fun _ => hbooks, h.begun, nofun, nofun, nofun⟩
    · simp only
      rw [Function.update_of_ne (by decide)]
      exact hparent
    · simp only [Function.update_self, decide_true]
      exact hparent
  | munmap =>
    simp only [UsernsMaps.parentStep, hpc, Option.some.injEq] at hs
    rw [← hs]
    exact h.goes_update (by rw [hpc]; exact ⟨nofun, nofun, nofun⟩) (by rw [hpc]; rfl) (by rw [hpc]; rfl)
      (by rw [hpc]; rfl)
  | openFile u todo =>
    simp only [UsernsMaps.parentStep, hpc, Option.some.injEq] at hs
    rw [← hs]
    by_cases hskips : setup.skips u = true
    · rw [if_pos hskips]
      refine h.goes_update (by rw [hpc]; exact ⟨nofun, nofun, nofun⟩) (by rw [hpc]; rfl) (by rw [hpc]; rfl) ?_
      rw [hpc, Pc.todo, writes_cons, if_pos hskips]
    · rw [if_neg hskips]
      refine h.goes (by rw [hpc]; nofun) (by rw [hpc]; rfl) (by rw [hpc]; rfl) (by rw [hpc]; rfl) ?_
        (h.not_passed ?_) nofun
      · intro u' todo' hc
        cases hc
        exact Bool.not_eq_true _ ▸ hskips
      · rw [hpc]
        exact ⟨nofun, nofun, nofun⟩
  | writeFile u todo =>
    simp only [UsernsMaps.parentStep, hpc, Option.some.injEq] at hs
    rw [← hs]
    have hwrites := h.writable u todo hpc
    refine h.goes (by rw [hpc]; nofun) (by rw [hpc]; rfl) (by rw [hpc]; rfl) ?_ nofun (h.not_passed ?_) nofun
    · rw [hpc, Pc.todo, Pc.todo, writes_cons, hwrites, if_neg Bool.false_ne_true, List.append_assoc]
      rfl
    · rw [hpc]
      exact ⟨nofun, nofun, nofun⟩
  | closeFile todo =>
    simp only [UsernsMaps.parentStep, hpc, Option.some.injEq] at hs
    rw [← hs]
    exact h.goes_update (by rw [hpc]; exact ⟨nofun, nofun, nofun⟩) (by rw [hpc]; rfl) (by rw [hpc]; rfl)
      (by rw [hpc]; rfl)
  | closePipe =>
    simp only [UsernsMaps.parentStep, hpc, Option.some.injEq] at hs
    rw [← hs]
    have hok : s.pc ≠ .failed := by rw [hpc]; nofun
    have hcreated := h.created hok
    have hbooks := h.books hok
    rw [hpc] at hcreated hbooks
    refine ⟨?_, ?_, fun _ => hcreated, fun _ => hbooks, h.begun, nofun, fun _ => .inl rfl, nofun⟩
    · simp only [Function.update_self, Pc.holds]
    · simp only
      rw [Function.update_of_ne (by decide)]
      exact h.child
  | waitpid =>
    simp only [UsernsMaps.parentStep, hpc, Option.ite_none_right_eq_some, Option.some.injEq] at hs
    obtain ⟨hdead, rfl⟩ := hs
    exact h.goes (by rw [hpc]; nofun) (by rw [hpc]; rfl) (by rw [hpc]; rfl) (by rw [hpc]; rfl) nofun
      (fun _ => .inr (.inl rfl)) fun _ => hdead

theorem Inv.parentFails (h : Inv setup s) (hs : parentFails s = some s') : Inv setup s' := by
  have hfailed : s' = { s with pc := .failed, writers := Function.update s.writers 0 false } := by
    unfold UsernsMaps.parentFails at hs
    split at hs
    · cases hs
    · cases hs
    · exact (Option.some.inj hs).symm
  subst hfailed
  refine ⟨?_, ?_, fun hc => absurd rfl hc, fun hc => absurd rfl hc, h.begun, nofun,
    fun _ => .inr (.inr rfl), nofun⟩
  · simp only [Function.update_self, Pc.holds]
  · simp only
    rw [Function.update_of_ne (by decide)]
    exact h.child

/-- The child goes on without its descriptor. -/
theorem Inv.child_moves (h : Inv setup s) {pc : ChildPc} {writers : ℕ → Bool} (hfrom : s.child ≠ .absent)
    (hpc : pc ≠ .absent ∧ pc ≠ .closeWrite) (hwriters : writers = Function.update s.writers 1 false)
    (hpassed : pc.passed = true → s.pc = .waitpid ∨ s.pc = .done ∨ s.pc = .failed)
    (hreaped : s.child = .dead → pc = .dead) :
    Inv setup { s with child := pc, writers := writers } := by
  refine ⟨?_, ?_, fun hok => ?_, h.books, h.begun, h.writable, hpassed, fun hc => hreaped (h.reaped hc)⟩
  · simp only
    rw [hwriters, Function.update_of_ne (by decide)]
    exact h.parent
  · simp only
    rw [hwriters, Function.update_self, decide_eq_false hpc.2]
  · exact iff_of_false hpc.1 fun hc => hfrom ((h.created hok).mpr hc)

/-- Nobody holds a descriptor: the parent has closed its own, or has failed. -/
theorem Inv.eof (h : Inv setup s) (heof : eof s.writers 2 = true) (hthere : s.child ≠ .absent) :
    s.pc = .waitpid ∨ s.pc = .done ∨ s.pc = .failed := by
  have hholds := h.parent.symm.trans (eof_iff.mp heof 0 (by decide))
  cases hpc : s.pc with
  | waitpid => exact .inl rfl
  | done => exact .inr (.inl rfl)
  | failed => exact .inr (.inr rfl)
  | prctl | pipe => exact absurd ((h.created (by rw [hpc]; nofun)).mpr (by rw [hpc]; rfl)) hthere
  | _ =>
    rw [hpc] at hholds
    cases hholds

theorem Inv.childStep (h : Inv setup s) (hs : childStep s = some s') : Inv setup s' := by
  -- behind its first call it has no descriptor to give up
  have hsame : s.child ≠ .closeWrite → s.writers = Function.update s.writers 1 false := fun hne => by
    rw [← decide_eq_false hne, ← h.child, Function.update_eq_self]
  cases hpc : s.child with
  | absent | dead => simp only [UsernsMaps.childStep, hpc, reduceCtorEq] at hs
  | closeWrite =>
    simp only [UsernsMaps.childStep, hpc, Option.some.injEq] at hs
    rw [← hs]
    exact h.child_moves (by rw [hpc]; nofun) ⟨nofun, nofun⟩ rfl nofun (by rw [hpc]; nofun)
  | read =>
    simp only [UsernsMaps.childStep, hpc, Option.ite_none_right_eq_some, Option.some.injEq] at hs
    obtain ⟨heof, rfl⟩ := hs
    exact h.child_moves (by rw [hpc]; nofun) ⟨nofun, nofun⟩ (hsame (by rw [hpc]; nofun))
      (fun _ => h.eof heof (by rw [hpc]; nofun)) (by rw [hpc]; nofun)
  | closeRead | perform | execvp | command =>
    simp only [UsernsMaps.childStep, hpc, Option.some.injEq] at hs
    rw [← hs]
    exact h.child_moves (by rw [hpc]; nofun) ⟨nofun, nofun⟩ (hsame (by rw [hpc]; nofun))
      (fun _ => h.passed (by rw [hpc]; rfl)) (by rw [hpc]; nofun)

theorem Inv.childFails (h : Inv setup s) (hs : childFails s = some s') : Inv setup s' := by
  have hdead : s.child ≠ .absent ∧
      s' = { s with child := .dead, writers := Function.update s.writers 1 false } := by
    unfold UsernsMaps.childFails at hs
    split at hs
    · cases hs
    · cases hs
    · rename_i habsent _
      exact ⟨habsent, (Option.some.inj hs).symm⟩
  obtain ⟨habsent, rfl⟩ := hdead
  exact h.child_moves habsent ⟨nofun, nofun⟩ rfl nofun fun _ => rfl

theorem Inv.step {a : Act} (h : Inv setup s) (hs : step setup s a = some s') : Inv setup s' := by
  cases a with
  | parent => exact h.parentStep hs
  | parentFails => exact h.parentFails hs
  | child => exact h.childStep hs
  | childFails => exact h.childFails hs

end Steps

theorem inv_of_reachable {setup : Setup} {s : State} (h : Reachable (usernsChildExec setup) s) :
    Inv setup s :=
  h.invariant (I := Inv setup) (fun _ hs => by cases hs; exact inv_start setup)
    fun _ _ _ hi _ hs => hi.step hs

/-! ## 4. The maps come first -/

section Written

variable {setup : Setup}

theorem path_injective {file file' : ProcFile} (h : setup.path file = setup.path file') : file = file' := by
  have hname : ∀ file file' : ProcFile, file.name = file'.name → file = file' := by
    intro file file' h
    cases file <;> cases file' <;> first | rfl | exact absurd h (by decide)
  exact hname file file' (List.append_cancel_left h)

theorem mem_writes {file : ProcFile} {text : Word} {todo : List Update}
    (h : (setup.path file, text) ∈ setup.writes todo) : ∃ u ∈ todo, u.file = file := by
  obtain ⟨u, hu, heq⟩ := List.mem_map.mp h
  exact ⟨u, (List.mem_filter.mp hu).1, path_injective (Prod.mk.inj heq).1⟩

theorem writes_append (todo todo' : List Update) :
    setup.writes (todo ++ todo') = setup.writes todo ++ setup.writes todo' := by
  rw [Setup.writes, List.filter_append, List.map_append]
  rfl

theorem file_of_mem_uidUpdates {u : Update} (h : u ∈ setup.uidUpdates) : u.file = .uid_map := by
  unfold Setup.uidUpdates at h
  split at h
  · rw [List.mem_singleton.mp h]
  · obtain ⟨mapping, -, rfl⟩ := List.mem_map.mp h
    rfl

theorem file_of_mem_projidUpdates {u : Update} (h : u ∈ setup.projidUpdates) : u.file = .projid_map := by
  obtain ⟨mapping, -, rfl⟩ := List.mem_map.mp h
  rfl

/-- A beginning that goes on to `x` or behind it contains it. -/
theorem mem_of_prefix {α : Type} {l before after : List α} {x y : α} (h : l <+: before ++ x :: after)
    (hy : y ∈ l) (hbefore : y ∉ before) : x ∈ l := by
  obtain ⟨rest, hrest⟩ := h
  rcases List.append_eq_append_iff.mp hrest with ⟨mid, hmid, -⟩ | ⟨mid, rfl, hmid⟩
  · exact absurd (hmid ▸ List.mem_append_left mid hy) hbefore
  · cases mid with
    | nil =>
      rw [List.append_nil] at hy
      exact absurd hy hbefore
    | cons z mid =>
      obtain ⟨rfl, -⟩ := List.cons.inj hmid
      exact List.mem_append_right before List.mem_cons_self

/-- `setgroups` before `gid_map`, whatever has been written. -/
theorem denied_before_gid_map {written : List (Word × Word)}
    (hwritten : written <+: setup.writes setup.updateChildMaps) (hdeny : setup.opts.denySetgroups = true)
    (hhas : setup.hasSetgroups = true) {text : Word} (hgid : (setup.path .gid_map, text) ∈ written) :
    (setup.path .setgroups, bytes "deny") ∈ written := by
  have huid : (setup.path .gid_map, text) ∉ setup.writes setup.uidUpdates := fun hc => by
    obtain ⟨u, hu, hfile⟩ := mem_writes hc
    rw [file_of_mem_uidUpdates hu] at hfile
    cases hfile
  by_cases hnone : setup.gidUpdates = []
  · -- then `gid_map` is not among what is to be written
    obtain ⟨u, hu, hfile⟩ := mem_writes (hwritten.subset hgid)
    rw [Setup.updateChildMaps, hnone, if_neg (by simp), List.append_nil, List.append_nil,
      List.mem_append] at hu
    rcases hu with hu | hu
    · rw [file_of_mem_uidUpdates hu] at hfile
      cases hfile
    · rw [file_of_mem_projidUpdates hu] at hfile
      cases hfile
  · have hskips : setup.skips ⟨.setgroups, bytes "deny"⟩ ≠ true := by
      rw [Setup.skips, hhas]
      decide
    rw [Setup.updateChildMaps, if_pos ⟨hdeny, hnone⟩, List.append_assoc, List.append_assoc,
      List.singleton_append, writes_append, writes_cons, if_neg hskips] at hwritten
    exact mem_of_prefix hwritten hgid huid

end Written

/-- **The maps come before the command**: what has been written is a beginning of what
`update_child_maps()` is to write, with `setgroups` in front of `gid_map`; and whenever the child has seen
the end of file it is the whole, or the parent has failed. -/
theorem maps_before_command {setup : Setup} {s : State} (h : Reachable (usernsChildExec setup) s) :
    s.written <+: setup.writes setup.updateChildMaps ∧
      (s.child.passed = true → s.written = setup.writes setup.updateChildMaps ∨ s.pc = .failed) ∧
      (setup.opts.denySetgroups = true → setup.hasSetgroups = true → ∀ text,
        (setup.path .gid_map, text) ∈ s.written → (setup.path .setgroups, bytes "deny") ∈ s.written) := by
  have hi := inv_of_reachable h
  refine ⟨hi.begun, fun hpassed => ?_, fun hdeny hhas text hgid =>
    denied_before_gid_map hi.begun hdeny hhas hgid⟩
  by_cases hok : s.pc = .failed
  · exact .inr hok
  · have htodo : s.pc.todo setup = [] := by
      rcases hi.passed hpassed with hpc | hpc | hpc
      · rw [hpc]
        rfl
      · rw [hpc]
        rfl
      · exact absurd hpc hok
    have hbooks := hi.books hok
    rw [htodo] at hbooks
    exact .inl ((List.append_nil _).symm.trans hbooks)

/-- `-U -r`, as user 1000 of group 100; the `gid_map` cannot be written, and the command runs nevertheless. -/
def rootMappings : Setup where
  opts := { UsernsChildExec.initialOptions with createRootMappings := true }
  uid := 1000
  gid := 100
  childPid := 42
  hasSetgroups := true

theorem maps_before_command_failed : ∃ s : State, s.child = .command ∧
    s.written = [(bytes "/proc/42/uid_map", bytes "0 1000 1"), (bytes "/proc/42/setgroups", bytes "deny")] ∧
    (s.written = rootMappings.writes rootMappings.updateChildMaps ∨ s.pc = .failed) := by
  have hrun : ((usernsChildExec rootMappings).run start [.parent, .parent, .parent, .parent, .child, .parent,
      .parent, .parent, .parent, .parent, .parent, .parent, .parent, .parentFails, .child, .child, .child,
      .child]).map (fun s => (s.child, s.written)) = some (.command,
        [(bytes "/proc/42/uid_map", bytes "0 1000 1"), (bytes "/proc/42/setgroups", bytes "deny")]) := by
    decide +kernel
  obtain ⟨s, hs, heq⟩ := Option.map_eq_some_iff.mp hrun
  obtain ⟨hchild, hwritten⟩ := Prod.mk.inj heq
  exact ⟨s, hchild, hwritten,
    (maps_before_command (System.reachable_of_run _ (.init rfl) hs)).2.1 (by rw [hchild]; rfl)⟩

/-! ## 5. The command is executed -/

/-- Nobody's call fails, and nobody is killed. -/
def Act.succeeds : Act → Bool
  | .parent | .child => true
  | .parentFails | .childFails => false

/-- The calls that the parent has left, with those of the child while it has still to create it. -/
def Pc.rank (setup : Setup) : Pc → ℕ
  | .prctl => 3 * setup.updateChildMaps.length + 13
  | .pipe => 3 * setup.updateChildMaps.length + 12
  | .mmap => 3 * setup.updateChildMaps.length + 11
  | .clone => 3 * setup.updateChildMaps.length + 10
  | .munmap => 3 * setup.updateChildMaps.length + 3
  | .openFile _ todo => 3 * todo.length + 5
  | .writeFile _ todo => 3 * todo.length + 4
  | .closeFile todo => 3 * todo.length + 3
  | .closePipe => 2
  | .waitpid => 1
  | .done | .failed => 0

def ChildPc.rank : ChildPc → ℕ
  | .closeWrite => 6
  | .read => 5
  | .closeRead => 4
  | .perform => 3
  | .execvp => 2
  | .command => 1
  | .absent | .dead => 0

def State.budget (setup : Setup) (s : State) : ℕ := s.pc.rank setup + s.child.rank

theorem rank_update (setup : Setup) (todo : List Update) :
    (Pc.update todo).rank setup = 3 * todo.length + 2 := by
  cases todo with
  | nil => rfl
  | cons u todo =>
    simp only [Pc.update, Pc.rank, List.length_cons]
    omega

section Progress

variable {setup : Setup} {s s' : State}

theorem parentStep_budget (h : Inv setup s) (hok : s.pc ≠ .failed) (hs : parentStep setup s = some s') :
    s'.pc ≠ .failed ∧ s'.budget setup < s.budget setup := by
  have hupdate : ∀ todo, Pc.update todo ≠ .failed := fun todo => by cases todo <;> nofun
  cases hpc : s.pc with
  | done | failed => simp only [parentStep, hpc, reduceCtorEq] at hs
  | clone =>
    have habsent := (h.created hok).mpr (by rw [hpc]; rfl)
    simp only [parentStep, hpc, Option.some.injEq] at hs
    rw [← hs]
    refine ⟨nofun, ?_⟩
    simp only [State.budget, hpc, habsent, Pc.rank, ChildPc.rank]
    omega
  | munmap | closeFile todo =>
    simp only [parentStep, hpc, Option.some.injEq] at hs
    rw [← hs]
    refine ⟨hupdate _, ?_⟩
    simp only [State.budget, hpc]
    rw [rank_update, Pc.rank]
    omega
  | openFile u todo =>
    simp only [parentStep, hpc, Option.some.injEq] at hs
    rw [← hs]
    split
    · refine ⟨hupdate _, ?_⟩
      simp only [State.budget, hpc]
      rw [rank_update, Pc.rank]
      omega
    · refine ⟨nofun, ?_⟩
      simp only [State.budget, hpc, Pc.rank]
      omega
  | waitpid =>
    simp only [parentStep, hpc, Option.ite_none_right_eq_some, Option.some.injEq] at hs
    obtain ⟨-, rfl⟩ := hs
    refine ⟨nofun, ?_⟩
    simp only [State.budget, hpc, Pc.rank]
    omega
  | prctl | pipe | mmap | writeFile u todo | closePipe =>
    simp only [parentStep, hpc, Option.some.injEq] at hs
    rw [← hs]
    refine ⟨nofun, ?_⟩
    simp only [State.budget, hpc, Pc.rank]
    omega

theorem childStep_budget (setup : Setup) (hs : childStep s = some s') :
    s'.pc = s.pc ∧ s'.budget setup < s.budget setup := by
  cases hpc : s.child with
  | absent | dead => simp only [childStep, hpc, reduceCtorEq] at hs
  | read =>
    simp only [childStep, hpc, Option.ite_none_right_eq_some, Option.some.injEq] at hs
    obtain ⟨-, rfl⟩ := hs
    refine ⟨rfl, ?_⟩
    simp only [State.budget, hpc, ChildPc.rank]
    omega
  | closeWrite | closeRead | perform | execvp | command =>
    simp only [childStep, hpc, Option.some.injEq] at hs
    rw [← hs]
    refine ⟨rfl, ?_⟩
    simp only [State.budget, hpc, ChildPc.rank]
    omega

/-- Where nothing more can happen, both have ended: the child waits only for the parent, and the parent only
for the child's end. -/
theorem Inv.finished (h : Inv setup s) (hok : s.pc ≠ .failed) (hparent : UsernsMaps.parentStep setup s = none)
    (hchild : UsernsMaps.childStep s = none) : s.pc = .done := by
  have hchildPc : s.child = .absent ∨ s.child = .read ∨ s.child = .dead := by
    cases hpc : s.child with
    | absent => exact .inl rfl
    | read => exact .inr (.inl rfl)
    | dead => exact .inr (.inr rfl)
    | closeWrite | closeRead | perform | execvp | command =>
      simp only [UsernsMaps.childStep, hpc, reduceCtorEq] at hchild
  cases hpc : s.pc with
  | done => rfl
  | failed => exact absurd hpc hok
  | waitpid =>
    rcases hchildPc with hc | hc | hc
    · have hcreated := (h.created hok).mp hc
      rw [hpc] at hcreated
      cases hcreated
    · -- both have closed their descriptors, so the `read()` of the child returns
      have heof : PipeSync.eof s.writers 2 = true := eof_iff.mpr fun i hi => by
        rcases Nat.le_one_iff_eq_zero_or_eq_one.mp (Nat.le_of_lt_succ hi) with rfl | rfl
        · rw [h.parent, hpc]
          rfl
        · rw [h.child, hc]
          rfl
      simp only [UsernsMaps.childStep, hc, heof, if_true, reduceCtorEq] at hchild
    · simp only [UsernsMaps.parentStep, hpc, hc, if_true, reduceCtorEq] at hparent
  | prctl | pipe | mmap | clone | munmap | openFile u todo | writeFile u todo | closeFile todo | closePipe =>
    simp only [UsernsMaps.parentStep, hpc, reduceCtorEq] at hparent

end Progress

/-- **Both come to their end**: without failures a run has three calls for each file and thirteen more at
most, and where nothing more can happen, the parent has waited for the child, and the maps are written. -/
theorem child_exec_ends {setup : Setup} (as : List Act) {s : State}
    (hrun : (usernsChildExec setup).runWith (fun _ a => a.succeeds = true) start as = some s) :
    as.length ≤ 3 * setup.updateChildMaps.length + 13 ∧
      ((∀ a, a.succeeds = true → step setup s a = none) → s.pc = .done ∧ s.child = .dead ∧
        s.written = setup.writes setup.updateChildMaps) := by
  have hstart : start.budget setup = 3 * setup.updateChildMaps.length + 13 := rfl
  obtain ⟨⟨hi, hok⟩, hle⟩ := System.runWith_measure (S := usernsChildExec setup)
    (I := fun s => Inv setup s ∧ s.pc ≠ .failed) (m := State.budget setup) (fun s a s' ⟨hi, hok⟩ ha hs => by
      refine ⟨⟨hi.step hs, ?_⟩, ?_⟩
      · cases a with
        | parent => exact (parentStep_budget hi hok hs).1
        | child => exact (childStep_budget setup hs).1 ▸ hok
        | parentFails | childFails => cases ha
      · cases a with
        | parent => exact (parentStep_budget hi hok hs).2
        | child => exact (childStep_budget setup hs).2
        | parentFails | childFails => cases ha)
    as ⟨inv_start setup, nofun⟩ hrun
  refine ⟨by omega, fun hrest => ?_⟩
  have hdone := hi.finished hok (hrest .parent rfl) (hrest .child rfl)
  have hbooks := hi.books hok
  rw [hdone] at hbooks
  exact ⟨hdone, hi.reaped hdone, (List.append_nil _).symm.trans hbooks⟩

/-- The command ends before the parent waits. -/
theorem child_exec_ends_root : ∃ s : State, s.pc = .done ∧ s.child = .dead ∧
    s.written = rootMappings.writes rootMappings.updateChildMaps := by
  have hrun : ((usernsChildExec rootMappings).runWith (fun _ a => a.succeeds = true) start
      (List.replicate 15 .parent ++ List.replicate 6 .child ++ [.parent])).map (fun s => (s.pc, s.child)) =
      some (.done, .dead) := by decide +kernel
  obtain ⟨s, hs, heq⟩ := Option.map_eq_some_iff.mp hrun
  obtain ⟨hpc, hchild⟩ := Prod.mk.inj heq
  refine ⟨s, (child_exec_ends _ hs).2 fun a ha => ?_⟩
  cases a with
  | parent => simp only [step, parentStep, hpc]
  | child => simp only [step, childStep, hchild]
  | parentFails | childFails => cases ha

end Tlpi.UsernsMaps
