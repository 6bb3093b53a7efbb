/-
`filelock/create_pid_file.c`: a PID file that is locked for as long as its owner runs.

## What is modelled

Any number of processes call `createPidFile()` on one pathname, each system call of it a
step of its own, and afterwards do what the comment above the function asks of its caller:
delete the file just before they terminate. A process can also end at any other moment,
which covers every call that fails and every diagnostic that terminates. `fcntl()` locks
belong to the pair of a process and an inode; a successful `open(O_CREAT)` makes a new
inode when the name is absent.

## The shape of the argument

The lock is on the inode and the exclusion that is wanted is on the name, so the argument
holds as far as the two stay together. `Inv.named` says that they do: every process that
has got its lock and has not deleted the file locks *the inode the name stands for*. Of
such processes there is therefore at most one, and since only such a process deletes the
file, no other can separate the name from its inode.

Two steps can break this, and `Orderly` rules out exactly these: a process gets the lock
on a file that was deleted after it had opened it, and a process returns while another,
which has deleted its file, has not yet terminated. Both are in the runs of the program,
see `two_instances`.
-/
import Mathlib.Logic.Function.Basic
import Tlpi.Transition

set_option autoImplicit false

namespace Tlpi.CreatePidFile

open Tlpi.Transition

abbrev CPF_CLOEXEC : BitVec 32 := 1#32
abbrev FD_CLOEXEC : BitVec 32 := 1#32

/-! ## Processes and files -/

/-- The call of `createPidFile()` that a process makes next, and what comes after it. -/
inductive Pc where
  | start | getfd | setfd | lock | truncate | write
  | returned | unlinked | dead
deriving Repr, DecidableEq

/-- A process: where it stands, the inode its descriptor refers to, the descriptor's
flags, and the local `flags`. -/
structure Proc where
  pc : Pc
  ino : ℕ
  fdFlags : BitVec 32
  flags : BitVec 32
deriving Repr, DecidableEq

/-- The inode the pathname stands for, if it is there; the next inode number; which
process has each inode locked, and what each file contains. -/
structure State where
  name : Option ℕ
  nextIno : ℕ
  locks : ℕ → Option ℕ
  content : ℕ → List Char
  procs : ℕ → Proc

def State.set (s : State) (p : ℕ) (proc : Proc) : State :=
  { s with procs := Function.update s.procs p proc }

/-- `lockRegion(fd, F_WRLCK, SEEK_SET, 0, 0)`: the whole file, without waiting; `none` is
`EAGAIN`. -/
def lockRegion (locks : ℕ → Option ℕ) (p ino : ℕ) : Option (ℕ → Option ℕ) :=
  if locks ino = none ∨ locks ino = some p then some (Function.update locks ino (some p)) else none

/-- The end of a process: its locks are released. -/
def State.exit (s : State) (p : ℕ) : State :=
  { s with
    locks := fun ino => if s.locks ino = some p then none else s.locks ino
    procs := Function.update s.procs p { s.procs p with pc := .dead } }

/-- `open(pidFile, O_RDWR | O_CREAT, ...)`, the first call. -/
def State.openPidFile (s : State) (p : ℕ) (flags : BitVec 32) : Option State :=
  if (s.procs p).pc = .start then
    let pc := if flags &&& CPF_CLOEXEC ≠ 0 then Pc.getfd else Pc.lock
    match s.name with
    | some ino => some (s.set p { pc := pc, ino := ino, fdFlags := 0, flags := flags })
    | none =>
      some ({ s with name := some s.nextIno, nextIno := s.nextIno + 1 }.set p
        { pc := pc, ino := s.nextIno, fdFlags := 0, flags := flags })
  else none

/-- `snprintf(buf, BUF_SIZE, "%ld\n", (long) getpid())` -/
def pidText (p : ℕ) : List Char := (toString p).toList ++ ['\n']

/-- The calls after the first. -/
def State.createPidFile (s : State) (p : ℕ) : Option State :=
  let proc := s.procs p
  match proc.pc with
  | .getfd => some (s.set p { proc with flags := proc.fdFlags, pc := .setfd })
  | .setfd =>
    some (s.set p
      { proc with flags := proc.flags ||| FD_CLOEXEC, fdFlags := proc.flags ||| FD_CLOEXEC, pc := .lock })
  | .lock =>
    match lockRegion s.locks p proc.ino with
    | some locks => some ({ s with locks := locks }.set p { proc with pc := .truncate })
    | none => some (s.exit p)
  | .truncate =>
    some ({ s with content := Function.update s.content proc.ino [] }.set p { proc with pc := .write })
  | .write =>
    -- at offset 0, over what is there
    some ({ s with
      content := Function.update s.content proc.ino
        (pidText p ++ (s.content proc.ino).drop (pidText p).length) }.set p { proc with pc := .returned })
  | _ => none

/-- The caller's `unlink(pidFile)`. -/
def State.unlinkPidFile (s : State) (p : ℕ) : Option State :=
  if (s.procs p).pc = .returned then
    some ({ s with name := none }.set p { s.procs p with pc := .unlinked })
  else none

inductive Act where
  | openPidFile (p : ℕ) (flags : BitVec 32)
  | createPidFile (p : ℕ)
  | unlinkPidFile (p : ℕ)
  | exit (p : ℕ)
deriving Repr, DecidableEq

def step (s : State) : Act → Option State
  | .openPidFile p flags => s.openPidFile p flags
  | .createPidFile p => s.createPidFile p
  | .unlinkPidFile p => s.unlinkPidFile p
  | .exit p => if (s.procs p).pc = .dead then none else some (s.exit p)

/-- No process has called yet, and nothing is locked. A file may be left from before. -/
def pidFiles : System State Act where
  init s := (∀ p, (s.procs p).pc = .start) ∧ (∀ ino, s.locks ino = none) ∧
    ∀ ino, s.name = some ino → ino < s.nextIno
  step := step

/-- `createPidFile()` has returned to this process, and it has not terminated. -/
def Pc.succeeded : Pc → Bool
  | .returned | .unlinked => true
  | _ => false

/-! ## The invariant -/

/-- It has got its lock and has not deleted the file. -/
def Pc.holding : Pc → Bool
  | .truncate | .write | .returned => true
  | _ => false

/-- **The condition on a step.** A lock is only got on the file that still has the name, and
`createPidFile()` only returns when every process that deleted its file has terminated. -/
def Orderly (s : State) : Act → Prop
  | .createPidFile p =>
    ((s.procs p).pc = .lock → lockRegion s.locks p (s.procs p).ino ≠ none →
        s.name = some (s.procs p).ino) ∧
      ((s.procs p).pc = .write → ∀ q, (s.procs q).pc ≠ .unlinked)
  | _ => True

structure Inv (s : State) : Prop where
  /-- The lock is on the inode the name stands for. -/
  named : ∀ p, (s.procs p).pc.holding →
    s.name = some (s.procs p).ino ∧ s.locks (s.procs p).ino = some p
  single : ∀ p q, (s.procs p).pc.succeeded → (s.procs q).pc.succeeded → p = q

theorem Inv.lone {s : State} (h : Inv s) {p q : ℕ} (hp : (s.procs p).pc.holding)
    (hq : (s.procs q).pc.holding) : p = q := by
  obtain ⟨hnp, hlp⟩ := h.named p hp
  obtain ⟨hnq, hlq⟩ := h.named q hq
  rw [hnp, Option.some.injEq] at hnq
  rw [hnq, hlq, Option.some.injEq] at hlp
  exact hlp.symm

/-- **What a step of one process has to show**: that it leaves the name and the locks of
the other holders alone, and that its own new place is justified. -/
theorem Inv.of_set {s s' : State} {p : ℕ} {proc : Proc} (h : Inv s)
    (hprocs : s'.procs = Function.update s.procs p proc)
    (hother : ∀ q, q ≠ p → (s.procs q).pc.holding →
      s'.name = s.name ∧ s'.locks (s.procs q).ino = s.locks (s.procs q).ino)
    (hself : proc.pc.holding → s'.name = some proc.ino ∧ s'.locks proc.ino = some p)
    (hsucc : proc.pc.succeeded → ∀ q, q ≠ p → ¬(s.procs q).pc.succeeded) : Inv s' := by
  have hat : s'.procs p = proc := by rw [hprocs, Function.update_self]
  have hne : ∀ q, q ≠ p → s'.procs q = s.procs q := by
    intro q hq
    rw [hprocs, Function.update_of_ne hq]
  refine ⟨?_, ?_⟩
  · intro q hq
    by_cases hqp : q = p
    · rw [hqp] at hq ⊢
      rw [hat] at hq ⊢
      exact hself hq
    · rw [hne q hqp] at hq ⊢
      obtain ⟨hname, hlock⟩ := hother q hqp hq
      rw [hname, hlock]
      exact h.named q hq
  · intro q r hq hr
    by_cases hqp : q = p
    · by_cases hrp : r = p
      · rw [hqp, hrp]
      · rw [hqp, hat] at hq
        rw [hne r hrp] at hr
        exact absurd hr (hsucc hq r hrp)
    · rw [hne q hqp] at hq
      by_cases hrp : r = p
      · rw [hrp, hat] at hr
        exact absurd hq (hsucc hr q hqp)
      · rw [hne r hrp] at hr
        exact h.single q r hq hr

theorem inv_open {s s' : State} {p : ℕ} {flags : BitVec 32} (h : Inv s)
    (hs : s.openPidFile p flags = some s') : Inv s' := by
  unfold State.openPidFile at hs
  split at hs
  · -- it has opened the file and nothing more
    have hpc : ∀ pc : Pc, pc = (if flags &&& CPF_CLOEXEC ≠ 0 then Pc.getfd else Pc.lock) →
        pc.holding = false ∧ pc.succeeded = false := by
      intro pc hpc
      rw [hpc]
      split <;> exact ⟨rfl, rfl⟩
    obtain ⟨hhold, hsucc⟩ := hpc _ rfl
    cases hname : s.name with
    | some ino =>
      simp only [hname, Option.some.injEq] at hs
      subst hs
      apply h.of_set rfl
      · intro q _ _
        exact ⟨rfl, rfl⟩
      · intro hp
        exact absurd hp (Bool.eq_false_iff.mp hhold)
      · intro hp
        exact absurd hp (Bool.eq_false_iff.mp hsucc)
    | none =>
      -- the name is absent, so nobody holds its inode
      simp only [hname, Option.some.injEq] at hs
      subst hs
      apply h.of_set rfl
      · intro q _ hq
        have hq := (h.named q hq).1
        rw [hname] at hq
        exact nomatch hq
      · intro hp
        exact absurd hp (Bool.eq_false_iff.mp hhold)
      · intro hp
        exact absurd hp (Bool.eq_false_iff.mp hsucc)
  · exact nomatch hs

theorem inv_exit {s : State} (p : ℕ) (h : Inv s) : Inv (s.exit p) := by
  apply h.of_set (p := p) rfl
  · intro q hq hhold
    have hlock := (h.named q hhold).2
    refine ⟨rfl, ?_⟩
    simp only [State.exit, hlock, Option.some.injEq]
    rw [if_neg hq]
  · intro hp
    exact absurd hp Bool.false_ne_true
  · intro hp
    exact absurd hp Bool.false_ne_true

/-- Getting the lock: another holder would have it already. -/
theorem inv_lock {s s' : State} {p : ℕ} (h : Inv s) (hpc : (s.procs p).pc = .lock)
    (hname : lockRegion s.locks p (s.procs p).ino ≠ none → s.name = some (s.procs p).ino)
    (hs : s.createPidFile p = some s') : Inv s' := by
  simp only [State.createPidFile, hpc] at hs
  cases hl : lockRegion s.locks p (s.procs p).ino with
  | none =>
    simp only [hl, Option.some.injEq] at hs
    rw [← hs]
    exact inv_exit p h
  | some locks =>
    simp only [hl, Option.some.injEq] at hs
    subst hs
    rw [hl] at hname
    unfold lockRegion at hl
    split at hl
    · rename_i hfree
      rw [Option.some.injEq] at hl
      subst hl
      apply h.of_set rfl
      · intro q hq hhold
        refine ⟨rfl, ?_⟩
        obtain ⟨hnq, hlq⟩ := h.named q hhold
        -- a holder of the lock on this inode would have made the call fail
        have hino : (s.procs q).ino ≠ (s.procs p).ino := by
          intro heq
          rw [← heq, hlq, Option.some.injEq] at hfree
          rcases hfree with hfree | hfree
          · exact nomatch hfree
          · exact hq hfree
        exact Function.update_of_ne hino ..
      · intro _
        exact ⟨hname (Option.some_ne_none _), Function.update_self ..⟩
      · intro hp
        exact absurd hp Bool.false_ne_true
    · exact nomatch hl

/-- Returning: nobody else has returned and not terminated. -/
theorem inv_write {s s' : State} {p : ℕ} (h : Inv s) (hpc : (s.procs p).pc = .write)
    (hunlinked : ∀ q, (s.procs q).pc ≠ .unlinked) (hs : s.createPidFile p = some s') : Inv s' := by
  have hp : (s.procs p).pc.holding := by rw [hpc]; rfl
  simp only [State.createPidFile, hpc, Option.some.injEq] at hs
  subst hs
  apply h.of_set rfl
  · intro q _ _
    exact ⟨rfl, rfl⟩
  · intro _
    exact h.named p hp
  · intro _ q hq hsucc
    have hret : (s.procs q).pc = .returned := by
      have hnot := hunlinked q
      revert hsucc hnot
      cases (s.procs q).pc <;> decide
    exact hq (h.lone (by rw [hret]; rfl) hp)

theorem inv_createPidFile {s s' : State} {p : ℕ} (h : Inv s) (ho : Orderly s (.createPidFile p))
    (hs : s.createPidFile p = some s') : Inv s' := by
  cases hpc : (s.procs p).pc with
  | lock => exact inv_lock h hpc (ho.1 hpc) hs
  | write => exact inv_write h hpc (ho.2 hpc) hs
  | truncate =>
    -- the process has its lock already, and the call touches neither the name nor a lock
    have hp : (s.procs p).pc.holding := by rw [hpc]; rfl
    simp only [State.createPidFile, hpc, Option.some.injEq] at hs
    subst hs
    apply h.of_set rfl
    · intro q _ _
      exact ⟨rfl, rfl⟩
    · intro _
      exact h.named p hp
    · intro hp
      exact absurd hp Bool.false_ne_true
  | getfd =>
    simp only [State.createPidFile, hpc, Option.some.injEq] at hs
    subst hs
    exact h.of_set rfl (fun _ _ _ => ⟨rfl, rfl⟩) (fun hp => absurd hp Bool.false_ne_true)
      fun hp => absurd hp Bool.false_ne_true
  | setfd =>
    simp only [State.createPidFile, hpc, Option.some.injEq] at hs
    subst hs
    exact h.of_set rfl (fun _ _ _ => ⟨rfl, rfl⟩) (fun hp => absurd hp Bool.false_ne_true)
      fun hp => absurd hp Bool.false_ne_true
  | start => simp only [State.createPidFile, hpc, reduceCtorEq] at hs
  | returned => simp only [State.createPidFile, hpc, reduceCtorEq] at hs
  | unlinked => simp only [State.createPidFile, hpc, reduceCtorEq] at hs
  | dead => simp only [State.createPidFile, hpc, reduceCtorEq] at hs

/-- Deleting the file: the one holder takes the name with it. -/
theorem inv_unlink {s s' : State} {p : ℕ} (h : Inv s) (hs : s.unlinkPidFile p = some s') :
    Inv s' := by
  unfold State.unlinkPidFile at hs
  split at hs
  · rename_i hpc
    rw [Option.some.injEq] at hs
    subst hs
    apply h.of_set rfl
    · intro q hq hhold
      exact absurd (h.lone hhold (by rw [hpc]; rfl)) hq
    · intro hp
      exact absurd hp Bool.false_ne_true
    · intro _ q hq hsucc
      exact hq (h.single q p hsucc (by rw [hpc]; rfl))
  · exact nomatch hs

theorem inv_of_orderly {s : State} (h : Reaches pidFiles Orderly s) : Inv s := by
  apply h.invariant
  · rintro s ⟨hstart, -, -⟩
    refine ⟨fun p hp => ?_, fun p q hp _ => ?_⟩
    · rw [hstart p] at hp
      exact absurd hp Bool.false_ne_true
    · rw [hstart p] at hp
      exact absurd hp Bool.false_ne_true
  · intro s a s' hi ho hs
    cases a with
    | openPidFile p flags => exact inv_open hi hs
    | createPidFile p => exact inv_createPidFile hi ho hs
    | unlinkPidFile p => exact inv_unlink hi hs
    | exit p =>
      simp only [pidFiles, step] at hs
      split at hs
      · exact nomatch hs
      · rw [Option.some.injEq] at hs
        rw [← hs]
        exact inv_exit p hi

/-- Nobody has called, and there is no file. -/
def fresh : State :=
  { name := none, nextIno := 0, locks := fun _ => none, content := fun _ => []
    procs := fun _ => { pc := .start, ino := 0, fdFlags := 0, flags := 0 } }

theorem fresh_init : pidFiles.init fresh := ⟨fun _ => rfl, fun _ => rfl, nofun⟩

/-- **A single instance**, in every state of every orderly run. -/
theorem single_instance (s : State) (h : Reaches pidFiles Orderly s) (p q : ℕ)
    (hp : (s.procs p).pc.succeeded) (hq : (s.procs q).pc.succeeded) : p = q :=
  (inv_of_orderly h).single p q hp hq

/-- Process 7 starts, and 8 after it, while 7 is running. -/
theorem single_instance_two_starts : ∃ s, Reaches pidFiles Orderly s ∧ (s.procs 7).pc = .returned ∧
    ∀ q, (s.procs q).pc.succeeded → 7 = q := by
  have h₀ : Reaches pidFiles Orderly fresh := .init fresh_init
  have h₁ := Reaches.step (a := Act.openPidFile 7 0) h₀ trivial rfl
  have h₂ := Reaches.step (a := Act.createPidFile 7) h₁ ⟨fun _ _ => rfl, nofun⟩ rfl
  have h₃ := Reaches.step (a := Act.openPidFile 8 1) h₂ trivial rfl
  have h₄ := Reaches.step (a := Act.createPidFile 7) h₃ ⟨nofun, nofun⟩ rfl
  have hnone : ∀ (pc : Pc) (q : ℕ), pc ≠ .unlinked → (Function.update (Function.update
      (Function.update (Function.update fresh.procs 7 ⟨.lock, 0, 0, 0⟩) 7 ⟨.truncate, 0, 0, 0⟩) 8
      ⟨.getfd, 0, 0, 1⟩) 7 ⟨pc, 0, 0, 0⟩ q).pc ≠ .unlinked := by
    intro pc q hpc
    simp only [Function.update, fresh]
    split
    · rename_i heq
      subst heq
      exact hpc
    · split <;> simp
  have h₅ := Reaches.step (a := Act.createPidFile 7) h₄ ⟨nofun, fun _ q => hnone .write q nofun⟩ rfl
  exact ⟨_, h₅, rfl, fun q hq => single_instance _ h₅ 7 q rfl hq⟩

/-- Process 2 opens the file of 1, which deletes it and ends; 2 gets the lock on a file
without a name, and 3 makes a new one. -/
theorem two_instances : ¬ ∀ s, Reachable pidFiles s → ∀ p q, (s.procs p).pc.succeeded →
    (s.procs q).pc.succeeded → p = q := by
  intro hall
  have hrun : (pidFiles.run fresh
      [.openPidFile 1 0, .createPidFile 1, .createPidFile 1, .createPidFile 1, .openPidFile 2 0,
        .unlinkPidFile 1, .exit 1, .createPidFile 2, .createPidFile 2, .createPidFile 2,
        .openPidFile 3 0, .createPidFile 3, .createPidFile 3, .createPidFile 3]).map
      (fun s => ((s.procs 2).pc, (s.procs 3).pc)) = some (.returned, .returned) := by decide
  obtain ⟨s, hs, hpc⟩ := Option.map_eq_some_iff.mp hrun
  rw [Prod.mk.injEq] at hpc
  have hreach := System.reachable_of_run _ (.init fresh_init) hs
  exact absurd (hall s hreach 2 3 (by rw [hpc.1]; rfl) (by rw [hpc.2]; rfl)) (by decide)

end Tlpi.CreatePidFile
