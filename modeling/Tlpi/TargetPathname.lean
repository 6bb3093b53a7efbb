/-
`seccomp/seccomp_functions.c`: `getTargetPathname()`, which fetches a pathname from the memory of the
process that caused a seccomp notification, while that process and all others go on.

## What is modelled

Each system call of the function is a step of its own, and so is each byte that `pread()` copies: it
may stop after any of them. Between any two steps a process may be interrupted out of the call that it
is blocked in, exit, begin under a PID that is free, be blocked in a new call, or have its memory
changed. Processes are numbered by when they began, so a number is not used again, unlike a PID.
A notification is valid while the process that caused it is blocked in that call; its ID is not given
again. A descriptor for `/proc/PID/mem` is one for the memory of the process that has the PID when it
is opened.

`accesses` is a history variable: what was read, where, and whether the process was blocked in the
call of the notification just then. The function does not read it.

## The shape of the argument

Everything that the function relies on is a statement of the form "if the notification is valid now":
the process of the descriptor is then the target, and all the accesses so far were made while it was
blocked. Such a statement is kept by every step of the others, because a notification that is valid
was valid before (`mem_blocked_change`); and a check that succeeds takes the "if" away.
-/
import Mathlib.Data.List.Basic
import Mathlib.Logic.Function.Basic
import Mathlib.Tactic.Common
import Tlpi.SeccompFilters
import Tlpi.Transition

set_option autoImplicit false

namespace Tlpi.TargetPathname

open Tlpi.Transition Tlpi.SeccompFilters

/-! ## 1. Processes -/

/-- `struct seccomp_notif` -/
structure SeccompNotif where
  id : ℕ
  pid : ℕ
  data : SeccompData

structure Kernel where
  /-- The process that has a PID. -/
  owner : ℕ → Option ℕ
  /-- The memory of each process, where it has any. -/
  mem : ℕ → ℕ → Option UInt8
  /-- The processes that are blocked in a call, with the ID of the notification. -/
  blocked : List (ℕ × ℕ)
  nextProc : ℕ
  nextId : ℕ

/-- What may happen at any time. -/
inductive Change where
  /-- A signal handler is run, and the call is not gone on with. -/
  | interrupt (p : ℕ)
  | exit (p : ℕ)
  /-- A new process is given a PID that is free. -/
  | fork (pid : ℕ)
  /-- A byte is stored, or is mapped no longer. -/
  | store (p addr : ℕ) (byte : Option UInt8)
  /-- The process that has the PID makes a call that causes a notification. -/
  | notify (pid : ℕ)
deriving Repr, DecidableEq

namespace Kernel

def change (k : Kernel) : Change → Kernel
  | .interrupt p => { k with blocked := k.blocked.filter fun b => b.1 ≠ p }
  | .exit p =>
    { k with
      owner := fun pid => if k.owner pid = some p then none else k.owner pid
      mem := Function.update k.mem p fun _ => none
      blocked := k.blocked.filter fun b => b.1 ≠ p }
  | .fork pid =>
    if k.owner pid = none then
      { k with owner := Function.update k.owner pid (some k.nextProc), nextProc := k.nextProc + 1 }
    else k
  | .store p addr byte => { k with mem := Function.update k.mem p (Function.update (k.mem p) addr byte) }
  | .notify pid =>
    match k.owner pid with
    | none => k
    | some p =>
      if k.blocked.any fun b => b.1 = p then k
      else { k with blocked := (p, k.nextId) :: k.blocked, nextId := k.nextId + 1 }

/-- `ioctl(notifyFd, SECCOMP_IOCTL_NOTIF_ID_VALID, &id) == 0` -/
def cookieIsValid (k : Kernel) (id : ℕ) : Bool := k.blocked.any fun b => b.2 = id

end Kernel

/-! ## 2. The function -/

/-- Error opening or reading `/proc/PID/mem`. -/
abbrev GTP_BAD_READ : ℤ := -1

/-- The check of the notification ID failed. -/
abbrev GTP_ID_NOT_VALID : ℤ := -2

/-- The pathname has no null byte. -/
abbrev GTP_BAD_PATH : ℤ := -3

/-- Where the function stands: the call it makes next. -/
inductive Pc where
  | open
  | check (procMemFd : ℕ)
  /-- `close()` after the first check has failed. -/
  | closeInvalid (procMemFd : ℕ)
  /-- `pread()`, of which `n` bytes have been copied. -/
  | pread (procMemFd n : ℕ)
  | close (procMemFd : ℕ) (nread : ℤ)
  | checkAgain (nread : ℕ)
  | strnlen (nread : ℕ)
  | returned (r : ℤ)
deriving Repr, DecidableEq

/-- A byte was read from the memory of a process; `blocked` says whether the process was blocked in
the call of the notification. -/
structure Access where
  proc : ℕ
  addr : ℕ
  byte : UInt8
  blocked : Bool
deriving Repr, DecidableEq

/-- The function and its process. -/
structure Frame where
  /-- The descriptors of `/proc/PID/mem` files, with the processes whose memory they are for. -/
  fds : List (ℕ × ℕ)
  path : ℕ → UInt8
  pc : Pc
  accesses : List Access

structure State where
  kernel : Kernel
  frame : Frame

inductive Act where
  | change (c : Change)
  /-- `open()` gives this descriptor, or fails. -/
  | open (fd : Option ℕ)
  /-- `pread()` copies one more byte. -/
  | copy
  /-- `pread()` returns: what it has copied, or, with nothing copied, 0 or -1. -/
  | preadReturns (fails : Bool)
  /-- One of the other calls. -/
  | call
deriving Repr, DecidableEq

def close (fds : List (ℕ × ℕ)) (fd : ℕ) : List (ℕ × ℕ) := fds.filter fun f => f.1 ≠ fd

def strnlen (path : ℕ → UInt8) (maxlen : ℕ) : ℕ :=
  ((List.range maxlen).find? fun i => path i = 0).getD maxlen

section Step

variable (req : SeccompNotif) (argNum : Fin 6) (len : ℕ)

/-- The address of the pathname. -/
abbrev address : ℕ := (req.data.args argNum).toNat

/-- `open()` gives the descriptor `fd`, or fails. -/
def openMem (k : Kernel) (f : Frame) (fd : Option ℕ) : Option Frame :=
  match f.pc with
  | .open =>
    match fd with
    | none => some { f with pc := .returned GTP_BAD_READ }
    | some fd =>
      match k.owner req.pid with
      | none => none
      | some p =>
        if f.fds.any fun g => g.1 = fd then none
        else some { f with fds := (fd, p) :: f.fds, pc := .check fd }
  | _ => none

/-- The calls of which the outcome is not a matter of choice. -/
def call (k : Kernel) (f : Frame) : Option Frame :=
  match f.pc with
  | .check fd =>
    if k.cookieIsValid req.id then some { f with pc := .pread fd 0 }
    else some { f with pc := .closeInvalid fd }
  | .closeInvalid fd => some { f with fds := close f.fds fd, pc := .returned GTP_ID_NOT_VALID }
  | .close fd nread =>
    some { f with
      fds := close f.fds fd
      pc := if nread ≤ 0 then .returned GTP_BAD_READ else .checkAgain nread.toNat }
  | .checkAgain nread =>
    some { f with
      pc := if k.cookieIsValid req.id then .strnlen nread else .returned GTP_ID_NOT_VALID }
  | .strnlen nread =>
    some { f with pc := .returned (if strnlen f.path nread < nread then 0 else GTP_BAD_PATH) }
  | _ => none

/-- One byte is copied from the memory that the descriptor is for, if it is there. -/
def copy (k : Kernel) (f : Frame) : Option Frame :=
  match f.pc with
  | .pread fd n =>
    match f.fds.find? fun g => g.1 = fd with
    | none => none
    | some (_, p) =>
      match k.mem p (address req argNum + n) with
      | none => none
      | some byte =>
        if n < len then
          some { f with
            path := Function.update f.path n byte
            pc := .pread fd (n + 1)
            accesses := f.accesses ++ [⟨p, address req argNum + n, byte, (p, req.id) ∈ k.blocked⟩] }
        else none
  | _ => none

def step (s : State) : Act → Option State
  | .change c => some { s with kernel := s.kernel.change c }
  | .open fd => (openMem req s.kernel s.frame fd).map fun f => { s with frame := f }
  | .copy => (copy req argNum len s.kernel s.frame).map fun f => { s with frame := f }
  | .preadReturns fails =>
    match s.frame.pc with
    | .pread fd n =>
      let nread : ℤ := if n = 0 ∧ fails then -1 else n
      some { s with frame := { s.frame with pc := .close fd nread } }
    | _ => none
  | .call => (call req s.kernel s.frame).map fun f => { s with frame := f }

/-- The call of `getTargetPathname()` for a notification that `target` has caused, with the
descriptors `fds` open. -/
def getTargetPathname (target : ℕ) (fds : List (ℕ × ℕ)) : System State Act where
  init s := s.frame.pc = .open ∧ s.frame.fds = fds ∧ s.frame.accesses = [] ∧
    s.kernel.owner req.pid = some target ∧ (target, req.id) ∈ s.kernel.blocked ∧
    (∀ p, (p, req.id) ∈ s.kernel.blocked → p = target) ∧ req.id < s.kernel.nextId
  step := step req argNum len

/-- **The pathname is the target's**: the bytes were read at the address of the argument, one after
the other, from the memory of the target while it was blocked in the call, and one is null. -/
def Fetched (target : ℕ) (f : Frame) : Prop :=
  ∃ n ≤ len, f.accesses.length = n ∧
    (∀ i < n, f.accesses[i]? = some ⟨target, address req argNum + i, f.path i, true⟩) ∧
    ∃ i < n, f.path i = 0

end Step

/-! ## 3. The notification -/

section Proofs

variable {req : SeccompNotif} {argNum : Fin 6} {len target : ℕ} {fds : List (ℕ × ℕ)}

/-- The target is blocked in the call of the notification. -/
abbrev Blocked (req : SeccompNotif) (target : ℕ) (k : Kernel) : Prop := (target, req.id) ∈ k.blocked

/-- What is true of the notification as long as there is a target. -/
structure Notified (req : SeccompNotif) (target : ℕ) (k : Kernel) : Prop where
  fresh : req.id < k.nextId
  unique : ∀ p, (p, req.id) ∈ k.blocked → p = target
  owner : Blocked req target k → k.owner req.pid = some target

/-- **A notification that is valid was valid before.** -/
theorem mem_blocked_change {k : Kernel} (h : req.id < k.nextId) {c : Change} {p : ℕ}
    (hp : (p, req.id) ∈ (k.change c).blocked) : (p, req.id) ∈ k.blocked := by
  cases c with
  | interrupt q => exact List.mem_of_mem_filter hp
  | exit q => exact List.mem_of_mem_filter hp
  | fork pid =>
    rw [Kernel.change] at hp
    split at hp <;> exact hp
  | store q addr byte => exact hp
  | notify pid =>
    rw [Kernel.change] at hp
    split at hp
    · exact hp
    · split at hp
      · exact hp
      · -- the ID of another call is a new one
        rcases List.mem_cons.mp hp with hp | hp
        · have hid : req.id = k.nextId := congrArg Prod.snd hp
          omega
        · exact hp

theorem Notified.change {k : Kernel} (h : Notified req target k) (c : Change) :
    Notified req target (k.change c) := by
  refine ⟨?_, fun p hp => h.unique p (mem_blocked_change h.fresh hp), fun hblocked => ?_⟩
  · have hfresh := h.fresh
    cases c with
    | notify pid =>
      rw [Kernel.change]
      split
      · exact hfresh
      · split
        · exact hfresh
        · exact Nat.lt_succ_of_lt hfresh
    | fork pid =>
      rw [Kernel.change]
      split <;> exact hfresh
    | interrupt p => exact hfresh
    | exit p => exact hfresh
    | store p addr byte => exact hfresh
  · have howner := h.owner (mem_blocked_change h.fresh hblocked)
    cases c with
    | exit p =>
      -- the target is still blocked, so it is another process that exits
      have hne : target ≠ p := by
        simpa using (List.mem_filter.mp hblocked).2
      rw [Kernel.change]
      simp only [howner, Option.some.injEq, if_neg hne]
    | fork pid =>
      rw [Kernel.change]
      split
      · rename_i hfree
        have hne : req.pid ≠ pid := by
          rintro rfl
          exact nomatch howner.symm.trans hfree
        exact (Function.update_of_ne hne _ _).trans howner
      · exact howner
    | notify pid =>
      rw [Kernel.change]
      split
      · exact howner
      · split <;> exact howner
    | interrupt p => exact howner
    | store p addr byte => exact howner

/-- The check asks whether the target is blocked. -/
theorem Notified.cookieIsValid {k : Kernel} (h : Notified req target k) :
    k.cookieIsValid req.id = true ↔ Blocked req target k := by
  rw [Kernel.cookieIsValid, List.any_eq_true]
  constructor
  · rintro ⟨⟨p, id⟩, hmem, hid⟩
    obtain rfl : id = req.id := of_decide_eq_true hid
    exact h.unique p hmem ▸ hmem
  · exact fun hblocked => ⟨_, hblocked, decide_eq_true rfl⟩

/-! ## 4. The invariant -/

/-- The bytes copied so far are the target's, and if it is blocked now it was all the time. -/
structure Copied (req : SeccompNotif) (argNum : Fin 6) (target : ℕ) (blocked : Prop) (f : Frame)
    (n : ℕ) : Prop where
  length : f.accesses.length = n
  access : ∀ i < n, ∃ b, f.accesses[i]? = some ⟨target, address req argNum + i, f.path i, b⟩ ∧
    (blocked → b = true)

/-- The descriptor is open, beside those that were open before. -/
def Opened (fds : List (ℕ × ℕ)) (f : Frame) (fd p : ℕ) : Prop :=
  f.fds = (fd, p) :: fds ∧ ∀ g ∈ fds, g.1 ≠ fd

/-- What is true where the function stands, if `blocked` says whether the target is blocked. -/
def At (req : SeccompNotif) (argNum : Fin 6) (len target : ℕ) (fds : List (ℕ × ℕ)) (blocked : Prop)
    (f : Frame) : Prop :=
  match f.pc with
  | .open => f.fds = fds ∧ f.accesses = []
  | .check fd => (∃ p, Opened fds f fd p ∧ (blocked → p = target)) ∧ f.accesses = []
  | .closeInvalid fd => ∃ p, Opened fds f fd p
  | .pread fd n => Opened fds f fd target ∧ n ≤ len ∧ Copied req argNum target blocked f n
  | .close fd nread => Opened fds f fd target ∧
    (0 < nread → nread.toNat ≤ len ∧ Copied req argNum target blocked f nread.toNat)
  | .checkAgain nread => f.fds = fds ∧ nread ≤ len ∧ Copied req argNum target blocked f nread
  | .strnlen nread => f.fds = fds ∧ nread ≤ len ∧ Copied req argNum target True f nread
  | .returned r => f.fds = fds ∧ (r = 0 → Fetched req argNum len target f)

theorem Copied.mono {b b' : Prop} (hb : b' → b) {f : Frame} {n : ℕ}
    (h : Copied req argNum target b f n) : Copied req argNum target b' f n := by
  refine ⟨h.length, fun i hi => ?_⟩
  obtain ⟨flag, haccess, hflag⟩ := h.access i hi
  exact ⟨flag, haccess, fun hb' => hflag (hb hb')⟩

/-- What is said of a target that is blocked is said of fewer and fewer. -/
theorem At.mono {b b' : Prop} (hb : b' → b) {f : Frame} (h : At req argNum len target fds b f) :
    At req argNum len target fds b' f := by
  unfold At at h ⊢
  split at h
  · exact h
  · obtain ⟨⟨p, hopened, hp⟩, hnone⟩ := h
    exact ⟨⟨p, hopened, fun hb' => hp (hb hb')⟩, hnone⟩
  · exact h
  · exact ⟨h.1, h.2.1, h.2.2.mono hb⟩
  · exact ⟨h.1, fun hpos => ⟨(h.2 hpos).1, (h.2 hpos).2.mono hb⟩⟩
  · exact ⟨h.1, h.2.1, h.2.2.mono hb⟩
  · exact h
  · exact h

theorem Opened.close {f : Frame} {fd p : ℕ} (h : Opened fds f fd p) : close f.fds fd = fds := by
  rw [TargetPathname.close, h.1, List.filter_cons_of_neg (by simp), List.filter_eq_self]
  exact fun g hg => decide_eq_true (h.2 g hg)

/-- A null byte stands before the end. -/
theorem strnlen_lt {path : ℕ → UInt8} {n : ℕ} : strnlen path n < n ↔ ∃ i < n, path i = 0 := by
  rw [strnlen]
  cases hfind : (List.range n).find? fun i => path i = 0 with
  | none =>
    refine iff_of_false (Nat.lt_irrefl n) ?_
    rintro ⟨i, hi, hzero⟩
    have hnot := List.find?_eq_none.mp hfind i (List.mem_range.mpr hi)
    exact hnot (decide_eq_true hzero)
  | some i =>
    have hi := List.mem_range.mp (List.mem_of_find?_eq_some hfind)
    have hzero := List.find?_some hfind
    exact iff_of_true hi ⟨i, hi, of_decide_eq_true hzero⟩

/-! ## 5. The steps of the function -/

/-- If the target is blocked it has the PID, and the descriptor is for its memory. -/
theorem At.openMem {k : Kernel} (hn : Notified req target k) {f f' : Frame} {fd : Option ℕ}
    (h : At req argNum len target fds (Blocked req target k) f)
    (hopen : openMem req k f fd = some f') :
    At req argNum len target fds (Blocked req target k) f' := by
  unfold TargetPathname.openMem at hopen
  unfold At at h
  split at hopen
  · rename_i hpc
    rw [hpc] at h
    cases fd with
    | none =>
      rw [← Option.some.inj hopen]
      -- `open()` failed, and the function returns with nothing open
      exact ⟨h.1, fun hzero => absurd hzero (by decide)⟩
    | some fd =>
      cases howner : k.owner req.pid with
      | none =>
        rw [howner] at hopen
        exact nomatch hopen
      | some p =>
        rw [howner] at hopen
        obtain ⟨hfree, hopen⟩ := Option.ite_none_left_eq_some.mp hopen
        rw [← Option.some.inj hopen]
        refine ⟨⟨p, ⟨congrArg ((fd, p) :: ·) h.1, ?_⟩, ?_⟩, h.2⟩
        · intro g hg heq
          exact hfree (List.any_eq_true.mpr ⟨g, h.1 ▸ hg, decide_eq_true heq⟩)
        · -- whoever has the PID now is the target, as long as that has not gone on
          intro hblocked
          exact Option.some.inj (howner.symm.trans (hn.owner hblocked))
  · exact nomatch hopen

/-- The checks, the two calls of `close()`, and the last look at the bytes. -/
theorem At.call {k : Kernel} (hn : Notified req target k) {f f' : Frame}
    (h : At req argNum len target fds (Blocked req target k) f) (hcall : call req k f = some f') :
    At req argNum len target fds (Blocked req target k) f' := by
  unfold TargetPathname.call at hcall
  unfold At at h
  cases hpc : f.pc with
  | «open» =>
    rw [hpc] at hcall
    exact nomatch hcall
  | check fd =>
    rw [hpc] at h hcall
    obtain ⟨⟨p, hopened, hp⟩, hnone⟩ := h
    simp only at hcall
    split at hcall
    · rename_i hvalid
      rw [← Option.some.inj hcall]
      -- the process of the descriptor is the target, whatever comes
      rw [hp (hn.cookieIsValid.mp hvalid)] at hopened
      refine ⟨hopened, Nat.zero_le _, ?_, fun i hi => absurd hi (Nat.not_lt_zero i)⟩
      exact congrArg List.length hnone
    · rw [← Option.some.inj hcall]
      exact ⟨p, hopened⟩
  | closeInvalid fd =>
    rw [hpc] at h hcall
    obtain ⟨p, hopened⟩ := h
    rw [← Option.some.inj hcall]
    exact ⟨hopened.close, fun hzero => absurd hzero (by decide)⟩
  | pread fd n =>
    rw [hpc] at hcall
    exact nomatch hcall
  | close fd nread =>
    rw [hpc] at h hcall
    rw [← Option.some.inj hcall]
    unfold At
    by_cases hnread : nread ≤ 0
    · simp only [if_pos hnread]
      exact ⟨h.1.close, fun hzero => absurd hzero (by decide)⟩
    · simp only [if_neg hnread]
      obtain ⟨hle, hcopied⟩ := h.2 (by omega)
      exact ⟨h.1.close, hle, hcopied.length, hcopied.access⟩
  | checkAgain nread =>
    rw [hpc] at h hcall
    obtain ⟨hfds, hle, hcopied⟩ := h
    rw [← Option.some.inj hcall]
    unfold At
    by_cases hvalid : k.cookieIsValid req.id = true
    · simp only [if_pos hvalid]
      exact ⟨hfds, hle, hcopied.length, (hcopied.mono fun _ => hn.cookieIsValid.mp hvalid).access⟩
    · simp only [if_neg hvalid]
      exact ⟨hfds, fun hzero => absurd hzero (by decide)⟩
  | strnlen nread =>
    rw [hpc] at h hcall
    obtain ⟨hfds, hle, hcopied⟩ := h
    rw [← Option.some.inj hcall]
    refine ⟨hfds, fun hzero => ?_⟩
    by_cases hlt : strnlen f.path nread < nread
    · refine ⟨nread, hle, hcopied.length, fun i hi => ?_, strnlen_lt.mp hlt⟩
      obtain ⟨b, haccess, hb⟩ := hcopied.access i hi
      rw [← hb trivial]
      exact haccess
    · rw [if_neg hlt] at hzero
      exact absurd hzero (by decide)
  | returned r =>
    rw [hpc] at hcall
    exact nomatch hcall

theorem Copied.snoc {b : Prop} {f f' : Frame} {n : ℕ} (h : Copied req argNum target b f n)
    {byte : UInt8} {flag : Bool} (hpath : f'.path = Function.update f.path n byte)
    (haccesses : f'.accesses = f.accesses ++ [⟨target, address req argNum + n, byte, flag⟩])
    (hflag : b → flag = true) : Copied req argNum target b f' (n + 1) := by
  refine ⟨?_, fun i hi => ?_⟩
  · rw [haccesses, List.length_append, h.length, List.length_singleton]
  · rw [haccesses, hpath]
    rcases Nat.lt_succ_iff_lt_or_eq.mp hi with hi | rfl
    · rw [List.getElem?_append_left (by rw [h.length]; exact hi),
        Function.update_of_ne (Nat.ne_of_lt hi)]
      exact h.access i hi
    · rw [List.getElem?_append_right (by rw [h.length]), h.length, Nat.sub_self, Function.update_self]
      exact ⟨flag, rfl, hflag⟩

/-- One more byte of the target's memory. -/
theorem At.copy {k : Kernel} {f f' : Frame}
    (h : At req argNum len target fds (Blocked req target k) f)
    (hcopy : copy req argNum len k f = some f') :
    At req argNum len target fds (Blocked req target k) f' := by
  unfold TargetPathname.copy at hcopy
  unfold At at h
  split at hcopy
  · rename_i fd n hpc
    rw [hpc] at h
    obtain ⟨hopened, hle, hcopied⟩ := h
    have hfind : (f.fds.find? fun g => g.1 = fd) = some (fd, target) := by
      rw [hopened.1]
      exact List.find?_cons_of_pos (decide_eq_true rfl)
    rw [hfind] at hcopy
    simp only at hcopy
    split at hcopy
    · exact nomatch hcopy
    · rename_i byte hbyte
      obtain ⟨hlt, hcopy⟩ := Option.ite_none_right_eq_some.mp hcopy
      rw [← Option.some.inj hcopy]
      exact ⟨hopened, hlt, hcopied.snoc rfl rfl decide_eq_true⟩
  · exact nomatch hcopy

theorem inv_step {s s' : State} {a : Act} (hn : Notified req target s.kernel)
    (h : At req argNum len target fds (Blocked req target s.kernel) s.frame)
    (hstep : step req argNum len s a = some s') :
    Notified req target s'.kernel ∧
      At req argNum len target fds (Blocked req target s'.kernel) s'.frame := by
  cases a with
  | change c =>
    rw [← Option.some.inj hstep]
    -- a target that is blocked afterwards was blocked before: what was proved is still of use
    exact ⟨hn.change c, h.mono (mem_blocked_change hn.fresh)⟩
  | «open» fd =>
    obtain ⟨f, hopen, rfl⟩ := Option.map_eq_some_iff.mp hstep
    exact ⟨hn, h.openMem hn hopen⟩
  | copy =>
    obtain ⟨f, hcopy, rfl⟩ := Option.map_eq_some_iff.mp hstep
    exact ⟨hn, h.copy hcopy⟩
  | preadReturns fails =>
    unfold At at h
    rw [step] at hstep
    split at hstep
    · rename_i fd n hpc
      rw [hpc] at h
      obtain ⟨hopened, hle, hcopied⟩ := h
      rw [← Option.some.inj hstep]
      refine ⟨hn, hopened, fun hpos => ?_⟩
      split at hpos
      · exact absurd hpos (by decide)
      · rename_i hnread
        rw [if_neg hnread, Int.toNat_natCast]
        exact ⟨hle, hcopied.length, hcopied.access⟩
    · exact nomatch hstep
  | call =>
    obtain ⟨f, hcall, rfl⟩ := Option.map_eq_some_iff.mp hstep
    exact ⟨hn, h.call hn hcall⟩

end Proofs

/-- **There is no race**: whatever the target and the others do in between, a pathname that is
returned was the target's, read while the target was blocked in the call, and no descriptor is left
open by any return. -/
theorem getTargetPathname_no_race (req : SeccompNotif) (argNum : Fin 6) (len target : ℕ)
    (fds : List (ℕ × ℕ)) (s : State)
    (h : Reachable (getTargetPathname req argNum len target fds) s) (r : ℤ)
    (hr : s.frame.pc = .returned r) :
    (r = 0 → Fetched req argNum len target s.frame) ∧ s.frame.fds = fds := by
  have hinv : Notified req target s.kernel ∧
      At req argNum len target fds (Blocked req target s.kernel) s.frame := by
    refine @Reaches.invariant _ _ _ _ (fun s => Notified req target s.kernel ∧
      At req argNum len target fds (Blocked req target s.kernel) s.frame) ?_ ?_ _ h
    · rintro s ⟨hpc, hfds, hnone, howner, hblocked, hunique, hfresh⟩
      refine ⟨⟨hfresh, hunique, fun _ => howner⟩, ?_⟩
      unfold At
      rw [hpc]
      exact ⟨hfds, hnone⟩
    · exact fun s a s' hinv _ hstep => inv_step hinv.1 hinv.2 hstep
  have hat := hinv.2
  unfold At at hat
  rw [hr] at hat
  exact ⟨hat.2, hat.1⟩

/-- Process 7 has caused notification 9 with the pathname `x` at address 100. -/
def mkdirX : SeccompNotif where
  id := 9
  pid := 5
  data := ⟨83, 0xc000003e#32, 0, fun _ => 100⟩

/-- The function begins. -/
def atStart : State where
  kernel :=
    { owner := fun pid => if pid = 5 then some 7 else none
      mem := fun _ addr => if addr = 100 then some 0x78 else if addr = 101 then some 0 else none
      blocked := [(7, 9)]
      nextProc := 8
      nextId := 10 }
  frame := { fds := [], path := fun _ => 0xff, pc := .open, accesses := [] }

/-- The pathname is fetched, while a byte after it is stored and another process begins. -/
theorem getTargetPathname_no_race_mkdir : ∃ s, Reachable (getTargetPathname mkdirX 0 4 7 []) s ∧
    s.frame.pc = .returned 0 ∧ Fetched mkdirX 0 4 7 s.frame := by
  have hinit : (getTargetPathname mkdirX 0 4 7 []).init atStart := by
    refine ⟨rfl, rfl, rfl, rfl, by decide, ?_, by decide⟩
    intro p hp
    exact congrArg Prod.fst (List.mem_singleton.mp hp)
  obtain ⟨s, hs, hpc⟩ : ∃ s, (getTargetPathname mkdirX 0 4 7 []).run atStart
      [.open (some 3), .call, .copy, .change (.store 7 102 (some 1)), .copy, .preadReturns false, .call,
        .change (.fork 6), .call, .call] = some s ∧ s.frame.pc = .returned 0 := ⟨_, rfl, rfl⟩
  have hreach := System.reachable_of_run _ (.init hinit) hs
  exact ⟨s, hreach, hpc, (getTargetPathname_no_race mkdirX 0 4 7 [] s hreach 0 hpc).1 rfl⟩

end Tlpi.TargetPathname
