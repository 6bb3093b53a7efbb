/-
`namespaces/ns_capable.c`: whether a process may have capabilities in a user namespace.

## What is modelled

`main()` and all that it calls to find out, over a kernel that is any forest of user namespaces:
what each `ioctl()` on a namespace gives, what each pathname opens, the lines of
`/proc/PID/status`, and which descriptor number a call that opens something returns, which may
depend on all that has happened before. Two namespaces are the same where `fstat()` gives the same
device and inode number.

A function that ends in `systmErr()` or `custmErr()` terminates the program; what it leaves instead
of a result is the message.

## The shape of the argument

`isAncestorUserns()` looks at a descriptor `child`, which is the caller's own at first and later one
that the loop has opened. `Walking` says of a turn that the descriptors open are those of the
caller, with `child` in front of them unless it is the caller's, and that it is still the same to
ask whether the source is above `child` as it was for the target. The number of namespaces above
`child` becomes smaller with each turn.
-/
import Tlpi.CString
import Tlpi.Decimal
import Tlpi.FdTable
import Tlpi.Forest
import Tlpi.Loop

set_option autoImplicit false

namespace Tlpi.NsCapable

open Tlpi.CString Tlpi.Decimal Tlpi.FdTable Tlpi.Forest Tlpi.Loop Tlpi.Strtol

/-! ## The kernel -/

/-- What `fstat()` tells of a file. -/
@[ext] structure Inode where
  st_dev : ℕ
  st_ino : ℕ
deriving Repr, DecidableEq

/-- What `ioctl(NS_GET_NSTYPE)` tells of a namespace, as far as the program looks at it. -/
inductive NsType where
  | CLONE_NEWUSER
  | other
deriving Repr, DecidableEq

/-- A line of `/proc/PID/status`: the record of the four user IDs, or another one. -/
inductive StatusLine where
  | uid (real effective saved filesystem : UInt32)
  | other (text : List UInt8)
deriving Repr, DecidableEq

/-- A file is a namespace or has lines to read. -/
inductive Content where
  | ns (type : NsType)
  | lines (ls : List StatusLine)
deriving Repr, DecidableEq

inductive Errno where
  | EPERM | EBADF | EINVAL | ENOTTY
deriving Repr, DecidableEq

/-- `"/proc/%ld/status"` -/
def statusPath (pid : ℤ) : List UInt8 := bytes "/proc/" ++ printInt pid ++ bytes "/status"

/-- `"/proc/%ld/ns/user"` -/
def usernsPath (pid : ℤ) : List UInt8 := bytes "/proc/" ++ printInt pid ++ bytes "/ns/user"

/-- The kernel that the program runs on. What is above a user namespace is one of a lower level. -/
structure Kernel where
  content : Inode → Content
  /-- What a pathname opens. -/
  path : List UInt8 → Option Inode
  /-- `NS_GET_PARENT`; `none` is `EPERM`. -/
  parent : Inode → Option Inode
  level : Inode → ℕ
  /-- `NS_GET_USERNS`; `none` is `EPERM`. -/
  owner : Inode → Option Inode
  /-- `NS_GET_OWNER_UID`. -/
  ownerUid : Inode → UInt32
  /-- `cap_get_pid()` and `cap_to_text()`. -/
  caps : ℤ → Option (List UInt8)
  numbers : Numbering Inode
  content_parent : ∀ c p, parent c = some p → content p = .ns .CLONE_NEWUSER
  content_owner : ∀ i u, owner i = some u → content u = .ns .CLONE_NEWUSER
  content_path : ∀ pid i, path (usernsPath pid) = some i → content i = .ns .CLONE_NEWUSER
  level_parent : ∀ c p, parent c = some p → level p < level c

abbrev Fds := Table Inode

variable (k : Kernel)

/-- `ioctl(fd, NS_GET_PARENT)` -/
def nsGetParent (fd : ℕ) (t : Fds) : Except Errno (ℕ × Fds) :=
  match t.file fd with
  | none => .error .EBADF
  | some i =>
    match k.content i with
    | .lines _ => .error .ENOTTY
    | .ns .other => .error .EINVAL
    | .ns .CLONE_NEWUSER =>
      match k.parent i with
      | none => .error .EPERM
      | some p => .ok (t.openFile k.numbers p)

/-! ## The functions -/

/-- The result of a function, or the message with which the program terminates. -/
abbrev Result (α : Type) := Except String α

def displayProcessCapabilities (pid : ℤ) : Result (List UInt8) :=
  match k.caps pid with
  | none => .error "cap_get_proc"
  | some text => .ok text

/-- `fgets()` until there is the record of the user IDs; the effective one is the second. -/
def scanUid : List StatusLine → Option UInt32
  | [] => none
  | .uid _ effective _ _ :: _ => some effective
  | .other _ :: ls => scanUid ls

def euidOfProcess (pid : ℤ) (t : Fds) : Result (UInt32 × Fds) :=
  match k.path (statusPath pid) with
  | none => .error "fopen-/proc/PID/status"
  | some i =>
    let (fp, t) := t.openFile k.numbers i
    match k.content i with
    | .ns _ => .error "Failure scanning for 'Uid:'"
    | .lines ls =>
      match scanUid ls with
      | none => .error "Failure scanning for 'Uid:'"
      | some uid =>
        -- `fclose(fp)`, the result of which is not looked at
        .ok (uid, (t.close fp).getD t)

def nsEqual (nsfd1 nsfd2 : ℕ) (t : Fds) : Result Bool :=
  match t.file nsfd1, t.file nsfd2 with
  | none, _ => .error "fstat-nsfd1"
  | some _, none => .error "fstat-nsfd2"
  | some sb1, some sb2 => .ok (sb1.st_dev = sb2.st_dev && sb1.st_ino = sb2.st_ino)

/-- One turn of the loop in `is_ancestor_userns()`; the result is the descriptor that is returned,
`none` for -1. -/
def isAncestorBody (source_userns target_userns : ℕ) (s : ℕ × Fds) :
    Iter (ℕ × Fds) (Result (Option ℕ × Fds)) :=
  let (child, t) := s
  match nsGetParent k child t with
  | .error e =>
    if e ≠ .EPERM then .done (.error "ioctl-NS_GET_PARENT")
    else if child ≠ target_userns then
      match t.close child with
      | none => .done (.error "close(child)")
      | some t => .done (.ok (none, t))
    else .done (.ok (none, t))
  | .ok (parent, t) =>
    match nsEqual parent source_userns t with
    | .error msg => .done (.error msg)
    | .ok true =>
      match t.close parent with
      | none => .done (.error "close(parent)")
      | some t => .done (.ok (some child, t))
    | .ok false =>
      if child ≠ target_userns then
        match t.close child with
        | none => .done (.error "close(child) [loop]")
        | some t => .next (parent, t)
      else .next (parent, t)

/-- How far the namespace of a descriptor is from the initial one. -/
def levelOf (s : ℕ × Fds) : ℕ :=
  match s.2.file s.1 with
  | none => 0
  | some i => k.level i

def isAncestorUserns (source_userns target_userns : ℕ) (t : Fds) :
    Option (Result (Option ℕ × Fds)) :=
  exec (isAncestorBody k source_userns target_userns) (levelOf k) (target_userns, t)

def usernsFromPid (pid : ℤ) (t : Fds) : Result (ℕ × Fds) :=
  match k.path (usernsPath pid) with
  | none => .error "open-pid-userns"
  | some i => .ok (t.openFile k.numbers i)

def getUsernsFrom (arg : List UInt8) (t : Fds) : Result (ℕ × Fds) :=
  if arg.head?.any isdigit then usernsFromPid k (atoi arg) t
  else
    match k.path arg with
    | none => .error "open-ns-file"
    | some i =>
      let (ns, t) := t.openFile k.numbers i
      match k.content i with
      | .lines _ => .error "ioctl-NS_GET_NSTYPE"
      | .ns .CLONE_NEWUSER => .ok (ns, t)
      | .ns .other =>
        match k.owner i with
        | none => .error "ioctl-NS_GET_USERNS"
        | some u =>
          let (userns, t) := t.openFile k.numbers u
          match t.close ns with
          | none => .error "close-ns"
          | some t => .ok (userns, t)

/-- What is printed: the verdict, with the capabilities of the process where they decide. -/
inductive Report where
  | inTarget (caps : List UInt8)
  | notInAncestor
  | isOwner
  | isNotOwner (caps : List UInt8)
deriving Repr, DecidableEq

/-- `ioctl(userns_fd, NS_GET_OWNER_UID, &owner_uid)` -/
def uidOfUserns (userns_fd : ℕ) (t : Fds) : Result UInt32 :=
  match t.file userns_fd with
  | none => .error "ioctl-NS_GET_OWNER_UID"
  | some i =>
    match k.content i with
    | .ns .CLONE_NEWUSER => .ok (k.ownerUid i)
    | _ => .error "ioctl-NS_GET_OWNER_UID"

/-- The branch of `main()` for a process in an ancestor of the target namespace. -/
def inAncestor (pid : ℤ) (child_userns target_userns : ℕ) (t : Fds) : Result (Report × Fds) := do
  let (euid, t) ← euidOfProcess k pid t
  let uid ← uidOfUserns k child_userns t
  let report ←
    if euid = uid then .ok .isOwner else (displayProcessCapabilities k pid).map .isNotOwner
  if child_userns ≠ target_userns then
    match t.close child_userns with
    | none => .error "close-child_userns"
    | some t => .ok (report, t)
  else .ok (report, t)

/-- The end of `main()`. -/
def cleanUp (source_userns target_userns : ℕ) (report : Report) (t : Fds) : Result (Report × Fds) :=
  match t.close target_userns with
  | none => .error "close-target_userns"
  | some t =>
    match t.close source_userns with
    | none => .error "close-source_userns"
    | some t => .ok (report, t)

/-- What `main()` does with the two descriptors; `none` is a run that does not come to its end. -/
def compare (pid : ℤ) (source_userns target_userns : ℕ) (t : Fds) : Option (Result (Report × Fds)) :=
  match nsEqual source_userns target_userns t with
  | .error msg => some (.error msg)
  | .ok true => some ((displayProcessCapabilities k pid).map fun caps => (.inTarget caps, t))
  | .ok false =>
    match isAncestorUserns k source_userns target_userns t with
    | none => none
    | some (.error msg) => some (.error msg)
    | some (.ok (none, t)) => some (.ok (.notInAncestor, t))
    | some (.ok (some child_userns, t)) => some (inAncestor k pid child_userns target_userns t)

def main (argv : List (List UInt8)) (t : Fds) : Option (Result (Report × Fds)) :=
  match argv with
  | [_, source, target] =>
    let pid := atoi source
    match usernsFromPid k pid t with
    | .error msg => some (.error msg)
    | .ok (source_userns, t) =>
      match getUsernsFrom k target t with
      | .error msg => some (.error msg)
      | .ok (target_userns, t) =>
        match compare k pid source_userns target_userns t with
        | none => none
        | some (.error msg) => some (.error msg)
        | some (.ok (report, t)) => some (cleanUp source_userns target_userns report t)
  | _ => some (.error "Usage")

/-! ## What it is for -/

/-- A user namespace is a proper ancestor of another. -/
abbrev IsAncestor (s i : Inode) : Prop := Relation.TransGen (fun a b => k.parent a = some b) i s

/-- The descriptors of the caller are open, and besides at most the one that is returned. -/
def Kept (target_userns : ℕ) (t : Fds) (r : Option ℕ) (t' : Fds) : Prop :=
  ((r = none ∨ r = some target_userns) ∧ t'.fds = t.fds) ∨
    ∃ d, r = some d.fd ∧ d.fd ≠ target_userns ∧ t'.fds = d :: t.fds

/-- What `isAncestorUserns()` is to do with the namespaces `s` and `i` of its two descriptors, and
with the descriptors that it opens. -/
structure Walked (s i : Inode) (target_userns : ℕ) (t : Fds) (r : Option ℕ) (t' : Fds) : Prop where
  notAncestor : r = none ↔ ¬IsAncestor k s i
  /-- The one namespace on the way up that is directly below the source. -/
  child : ∀ fd, r = some fd →
    ∃ c, t'.file fd = some c ∧ ∀ c', Above k.parent i c' ∧ k.parent c' = some s ↔ c' = c
  target : r = some target_userns ↔ k.parent i = some s
  kept : Kept target_userns t r t'
  /-- What has been opened is closed, unless it is what is returned. -/
  closed : ∀ n, t.opened ≤ n → n < t'.opened →
    (n ∈ t'.closed ↔ ¬∃ d ∈ t'.fds, d.serial = n ∧ r = some d.fd)
  once : t'.closed.Nodup

/-- The same descriptors are open as before, and all that were opened are closed, each once. -/
structure Restored (t t' : Fds) : Prop where
  fds : t'.fds = t.fds
  closed : ∀ n, t.opened ≤ n → n < t'.opened → n ∈ t'.closed
  once : t'.closed.Nodup

/-- The messages about a descriptor that could not be closed. -/
def closeErrors : List String :=
  ["close(child)", "close(parent)", "close(child) [loop]", "close-ns", "close-child_userns",
    "close-target_userns", "close-source_userns"]

/-- The argument denotes a user namespace. -/
def Denotes (arg : List UInt8) : Prop :=
  if arg.head?.any isdigit then (k.path (usernsPath (atoi arg))).isSome = true
  else ∃ i, k.path arg = some i ∧
    (k.content i = .ns .CLONE_NEWUSER ∨ (k.content i = .ns .other ∧ (k.owner i).isSome))

/-- What `main()` looks at is there. -/
structure Ready (pidArg nsArg : List UInt8) : Prop where
  source : (k.path (usernsPath (atoi pidArg))).isSome
  target : Denotes k nsArg
  status : ∃ i ls uid, k.path (statusPath (atoi pidArg)) = some i ∧ k.content i = .lines ls ∧
    scanUid ls = some uid
  caps : (k.caps (atoi pidArg)).isSome

/-- The user namespace that the argument denotes: of the process, of the file, or the owner of the
namespace that the file is. -/
def TargetUserns (arg : List UInt8) (i : Inode) : Prop :=
  if arg.head?.any isdigit then k.path (usernsPath (atoi arg)) = some i
  else ∃ j, k.path arg = some j ∧
    (k.content j = .ns .CLONE_NEWUSER ∧ j = i ∨ k.content j = .ns .other ∧ k.owner j = some i)

/-- The effective user ID of the process. -/
def EffectiveUid (pid : ℤ) (euid : UInt32) : Prop :=
  ∃ i ls, k.path (statusPath pid) = some i ∧ k.content i = .lines ls ∧ scanUid ls = some euid

/-- The verdict on a process in the user namespace directly above `c`. -/
def OwnerVerdict (pid : ℤ) (c : Inode) (report : Report) : Prop :=
  ∃ euid, EffectiveUid k pid euid ∧
    (euid = k.ownerUid c ∧ report = .isOwner ∨
      euid ≠ k.ownerUid c ∧ ∃ caps, k.caps pid = some caps ∧ report = .isNotOwner caps)

/-- The verdict on a process in the user namespace `s`, for one that `i` is. -/
def Verdict (pid : ℤ) (s i : Inode) (report : Report) : Prop :=
  (s = i ∧ ∃ caps, k.caps pid = some caps ∧ report = .inTarget caps) ∨
    (s ≠ i ∧ ¬IsAncestor k s i ∧ report = .notInAncestor) ∨
    (s ≠ i ∧ ∃ c, Above k.parent i c ∧ k.parent c = some s ∧ OwnerVerdict k pid c report)

/-- What `main()` reports is the verdict on its arguments. -/
def Reports (pidArg nsArg : List UInt8) (report : Report) : Prop :=
  ∃ s i, k.path (usernsPath (atoi pidArg)) = some s ∧ TargetUserns k nsArg i ∧
    Verdict k (atoi pidArg) s i report

/-! ## The calls -/

theorem grounded : Grounded k.parent :=
  Subrelation.wf (fun {_ _} h => k.level_parent _ _ h) (InvImage.wf k.level Nat.lt_wfRel.wf)

variable {k} {t : Fds}

theorem nsEqual_of {a b : ℕ} {i j : Inode} (ha : t.file a = some i) (hb : t.file b = some j) :
    nsEqual a b t = .ok (decide (i = j)) := by
  simp only [nsEqual, ha, hb, Inode.ext_iff, Bool.decide_and]

theorem nsGetParent_top {fd : ℕ} {i : Inode} (hfd : t.file fd = some i)
    (hi : k.content i = .ns .CLONE_NEWUSER) (hp : k.parent i = none) :
    nsGetParent k fd t = .error .EPERM := by
  simp only [nsGetParent, hfd, hi, hp]

theorem nsGetParent_up {fd : ℕ} {i p : Inode} (hfd : t.file fd = some i)
    (hi : k.content i = .ns .CLONE_NEWUSER) (hp : k.parent i = some p) :
    nsGetParent k fd t = .ok (t.openFile k.numbers p) := by
  simp only [nsGetParent, hfd, hi, hp]

/-- What `NS_GET_PARENT` returns a descriptor of. -/
theorem of_nsGetParent {fd fd' : ℕ} {t' : Fds} (h : nsGetParent k fd t = .ok (fd', t')) :
    ∃ i p, t.file fd = some i ∧ k.parent i = some p ∧ t.openFile k.numbers p = (fd', t') := by
  rw [nsGetParent] at h
  split at h
  · exact nomatch h
  · rename_i i hi
    split at h
    · exact nomatch h
    · exact nomatch h
    · split at h
      · exact nomatch h
      · rename_i p hp
        exact ⟨i, p, hi, hp, Except.ok.inj h⟩

/-! ## The walk -/

/-- What a turn that goes on leaves: a descriptor of what is above. -/
theorem of_isAncestorBody {source target : ℕ} {st st' : ℕ × Fds}
    (h : isAncestorBody k source target st = .next st') :
    ∃ i p, st.2.file st.1 = some i ∧ k.parent i = some p ∧ st'.2.file st'.1 = some p := by
  obtain ⟨child, t⟩ := st
  rw [isAncestorBody] at h
  split at h
  · -- the turns in which there is nothing above are the last ones
    split at h
    · exact nomatch h
    · split at h
      · split at h <;> exact nomatch h
      · exact nomatch h
  · rename_i parent t₁ hget
    obtain ⟨i, p, hi, hp, hopen⟩ := of_nsGetParent hget
    obtain ⟨d, t₂, hd, hfds, -, -, hfile⟩ := t.openFile_spec k.numbers p
    rw [hopen, Prod.mk.injEq] at hd
    obtain ⟨rfl, rfl⟩ := hd
    have hmem : d ∈ t₁.fds := hfds ▸ List.mem_cons_self
    refine ⟨i, p, hi, hp, ?_⟩
    split at h
    · exact nomatch h
    · split at h <;> exact nomatch h
    · split at h
      · split at h
        · exact nomatch h
        · rename_i t₂ hclose
          obtain rfl := Iter.next.inj h
          -- what is closed is another descriptor, which was open before
          obtain ⟨c, hc, hcfd, -⟩ := t.file_eq_some_iff.mp hi
          have hcmem : c ∈ t₁.fds := hfds ▸ List.mem_cons_of_mem _ hc
          obtain ⟨t₃, hclose', hfds', -⟩ := t₁.close_spec hcmem
          rw [hcfd, hclose, Option.some.injEq] at hclose'
          subst hclose'
          have hne : d ≠ c := by
            rintro rfl
            have hnodup := t₁.distinct
            rw [hfds] at hnodup
            exact (List.nodup_cons.mp hnodup).1 (List.mem_map_of_mem hc)
          have hmem' : d ∈ t₂.fds := hfds' ▸ (List.mem_erase_of_ne hne).mpr hmem
          exact hfile ▸ t₂.file_of_mem hmem'
      · obtain rfl := Iter.next.inj h
        exact hfile ▸ t₁.file_of_mem hmem

theorem levelOf_lt {source target : ℕ} {st st' : ℕ × Fds}
    (h : isAncestorBody k source target st = .next st') : levelOf k st' < levelOf k st := by
  obtain ⟨i, p, hi, hp, hp'⟩ := of_isAncestorBody h
  simp only [levelOf, hi, hp']
  exact k.level_parent i p hp

/-- The descriptors open during the walk. -/
def Held (target : ℕ) (t : Fds) (st : ℕ × Fds) : Prop :=
  (st.1 = target ∧ st.2.fds = t.fds) ∨
    (st.1 ≠ target ∧ ∃ d, d.fd = st.1 ∧ st.2.fds = d :: t.fds)

/-- What each turn of the walk starts from. -/
structure Walking (k : Kernel) (s i : Inode) (target : ℕ) (t : Fds) (st : ℕ × Fds) : Prop where
  held : Held target t st
  here : ∃ c, st.2.file st.1 = some c ∧ k.content c = .ns .CLONE_NEWUSER ∧ Above k.parent i c ∧
    (IsAncestor k s i ↔ IsAncestor k s c) ∧ (st.1 = target → c = i)
  passed : st.1 ≠ target → k.parent i ≠ some s

theorem Held.mono {target : ℕ} {st : ℕ × Fds} (h : Held target t st) : ∀ d ∈ t.fds, d ∈ st.2.fds := by
  intro d hd
  rcases h with ⟨-, hfds⟩ | ⟨-, d', -, hfds⟩
  · exact hfds ▸ hd
  · exact hfds ▸ List.mem_cons_of_mem _ hd

/-- **The descriptor looked at is done with**, if it is not the caller's. -/
theorem Held.close {target : ℕ} {st : ℕ × Fds} (h : Held target t st) (hne : st.1 ≠ target) :
    ∃ t', st.2.close st.1 = some t' ∧ t'.fds = t.fds ∧ t'.opened = st.2.opened := by
  rcases h with ⟨heq, -⟩ | ⟨-, d, hfd, hfds⟩
  · exact absurd heq hne
  · rw [← hfd]
    exact st.2.close_head hfds

/-- The same with a descriptor for what is above in front of it. -/
theorem Held.close_behind {target : ℕ} {st : ℕ × Fds} {t₁ : Fds} {d : Desc Inode}
    (h : Held target t st) (hne : st.1 ≠ target) (hfds₁ : t₁.fds = d :: st.2.fds) :
    ∃ t', t₁.close st.1 = some t' ∧ t'.fds = d :: t.fds ∧ t'.opened = t₁.opened := by
  rcases h with ⟨heq, -⟩ | ⟨-, c, hfd, hfds⟩
  · exact absurd heq hne
  · rw [← hfd]
    rw [hfds] at hfds₁
    exact t₁.close_second hfds₁

theorem isAncestor_of_parent {s c p : Inode} (hp : k.parent c = some p) (hne : p ≠ s) :
    IsAncestor k s c ↔ IsAncestor k s p := by
  constructor
  · intro h
    rcases Relation.TransGen.head'_iff.mp h with ⟨p', hp', habove⟩
    obtain rfl := Option.some.inj (hp.symm.trans hp')
    rcases Relation.reflTransGen_iff_eq_or_transGen.mp habove with heq | habove
    · exact absurd heq.symm hne
    · exact habove
  · exact Relation.TransGen.head hp

/-- What is closed when the walk is over. -/
theorem Kept.closed {target : ℕ} {t' : Fds} {r : Option ℕ} (h : Kept target t r t') :
    ∀ n, t.opened ≤ n → n < t'.opened →
      (n ∈ t'.closed ↔ ¬∃ d ∈ t'.fds, d.serial = n ∧ r = some d.fd) := by
  intro n hn hlt
  rcases h with ⟨-, hfds⟩ | ⟨d, rfl, -, hfds⟩
  · rw [Table.mem_closed_of_fds_eq hfds hn, iff_true_left hlt]
    rintro ⟨d, hd, rfl, -⟩
    rw [hfds] at hd
    have := t.serial_lt hd
    omega
  · rw [Table.mem_closed_of_fds_cons hfds hn, and_iff_right hlt, not_iff_not]
    constructor
    · rintro rfl
      exact ⟨d, hfds ▸ List.mem_cons_self, rfl, rfl⟩
    · rintro ⟨d', hd', rfl, -⟩
      rw [hfds, List.mem_cons] at hd'
      rcases hd' with rfl | hd'
      · rfl
      · have := t.serial_lt hd'
        omega

section

variable {s i : Inode} {source target : ℕ} {st : ℕ × Fds}

theorem Held.own (h : Held target t st) (heq : st.1 = target) : st.2.fds = t.fds := by
  rcases h with ⟨-, hfds⟩ | ⟨hne, -⟩
  · exact hfds
  · exact absurd heq hne

/-- A descriptor that is opened during the walk is not the caller's. -/
theorem Held.opened_ne (h : Held target t st) (htarget : t.file target = some i) {u : Fds}
    {d : Desc Inode} (hfds : u.fds = d :: st.2.fds) : d.fd ≠ target := by
  obtain ⟨d', hd', hfd', -⟩ := t.file_eq_some_iff.mp htarget
  intro hsame
  have hnodup := u.distinct
  rw [hfds] at hnodup
  refine (List.nodup_cons.mp hnodup).1 ?_
  rw [hsame, ← hfd']
  exact List.mem_map_of_mem (h.mono d' hd')

/-- At the top, the walk ends without the source. -/
theorem Walking.turn_top (h : Walking k s i target t st) {c : Inode}
    (hfile : st.2.file st.1 = some c) (hc : k.content c = .ns .CLONE_NEWUSER)
    (hp : k.parent c = none) :
    ∃ t', isAncestorBody k source target st = .done (.ok (none, t')) ∧ t'.fds = t.fds := by
  have hget := nsGetParent_top hfile hc hp
  by_cases hne : st.1 = target
  · refine ⟨st.2, ?_, h.held.own hne⟩
    rw [hne] at hget
    simp only [isAncestorBody, hget, ne_eq, hne, not_true_eq_false, if_false]
  · obtain ⟨u', hclose, hfds, -⟩ := h.held.close hne
    refine ⟨u', ?_, hfds⟩
    simp only [isAncestorBody, hget, hclose, hne, ne_eq, not_true_eq_false, not_false_eq_true,
      if_false, if_true]

/-- The walk goes on from what is above, if that is not the source. -/
theorem Walking.up (h : Walking k s i target t st) {c p : Inode} (hfile : st.2.file st.1 = some c)
    (hp : k.parent c = some p) (hps : p ≠ s) {u : Fds} {d : Desc Inode} (hnew : d.fd ≠ target)
    (hdfile : d.file = p) (hfds : u.fds = d :: t.fds) : Walking k s i target t (d.fd, u) := by
  obtain ⟨c', hfile', -, habove, hiff, hown⟩ := h.here
  obtain rfl := Option.some.inj (hfile.symm.trans hfile')
  refine ⟨.inr ⟨hnew, d, rfl, hfds⟩, ⟨p, ?_, k.content_parent c p hp, habove.tail hp,
    hiff.trans (isAncestor_of_parent hp hps), fun hsame => absurd hsame hnew⟩, fun _ => ?_⟩
  · exact hdfile ▸ u.file_of_mem (hfds ▸ List.mem_cons_self)
  · by_cases hne : st.1 = target
    · rw [← hown hne, hp]
      exact fun hsame => hps (Option.some.inj hsame)
    · exact h.passed hne

/-- What a turn of the walk does: it ends at the initial namespace, it finds the source, or it goes
on from what is above. -/
theorem Walking.turn (h : Walking k s i target t st) (hs : t.file source = some s)
    (htarget : t.file target = some i) :
    (∃ t', isAncestorBody k source target st = .done (.ok (none, t')) ∧ t'.fds = t.fds ∧
      ¬IsAncestor k s i) ∨
    (∃ c t', isAncestorBody k source target st = .done (.ok (some st.1, t')) ∧
      t'.fds = st.2.fds ∧ st.2.file st.1 = some c ∧ Above k.parent i c ∧ k.parent c = some s) ∨
    ∃ st', isAncestorBody k source target st = .next st' ∧ Walking k s i target t st' := by
  obtain ⟨c, hfile, hc, habove, hiff, -⟩ := h.here
  cases hp : k.parent c with
  | none =>
    obtain ⟨t', hbody, hfds⟩ := h.turn_top hfile hc hp
    refine .inl ⟨t', hbody, hfds, fun hanc => ?_⟩
    obtain ⟨p, hp', -⟩ := Relation.TransGen.head'_iff.mp (hiff.mp hanc)
    exact nomatch hp.symm.trans hp'
  | some p =>
    have hget := nsGetParent_up hfile hc hp
    obtain ⟨d, u₁, hopen, hfds₁, -, -, hdfile⟩ := st.2.openFile_spec k.numbers p
    have hfilep : u₁.file d.fd = some p := hdfile ▸ u₁.file_of_mem (hfds₁ ▸ List.mem_cons_self)
    -- the source is still open, as it was when the walk began
    have hsource : u₁.file source = some s := by
      refine Table.file_mono (fun d' hd' => ?_) hs
      exact hfds₁ ▸ List.mem_cons_of_mem _ (h.held.mono d' hd')
    have heq := nsEqual_of hfilep hsource
    rw [hopen] at hget
    by_cases hps : p = s
    · obtain ⟨u₂, hclose, hfds₂, -⟩ := u₁.close_head hfds₁
      refine .inr (.inl ⟨c, u₂, ?_, hfds₂, hfile, habove, hps ▸ hp⟩)
      simp only [isAncestorBody, hget, heq, hps, decide_true, hclose]
    · have hnew := h.held.opened_ne htarget hfds₁
      refine .inr (.inr ?_)
      by_cases hne : st.1 = target
      · have hfds : u₁.fds = d :: t.fds := by rw [hfds₁, h.held.own hne]
        refine ⟨(d.fd, u₁), ?_, h.up hfile hp hps hnew hdfile hfds⟩
        rw [hne] at hget
        simp only [isAncestorBody, hget, heq, hps, decide_false, hne, ne_eq, not_true_eq_false,
          if_false]
      · obtain ⟨u₂, hclose, hfds₂, -⟩ := h.held.close_behind hne hfds₁
        refine ⟨(d.fd, u₂), ?_, h.up hfile hp hps hnew hdfile hfds₂⟩
        simp only [isAncestorBody, hget, heq, hps, decide_false, hclose, ne_eq, hne,
          not_false_eq_true, if_true]

/-- What the walk has come to. -/
theorem Walking.found (h : Walking k s i target t st) {c : Inode}
    {t' : Fds} (hfds : t'.fds = st.2.fds) (hfile : st.2.file st.1 = some c)
    (habove : Above k.parent i c) (hc : k.parent c = some s) :
    Walked k s i target t (some st.1) t' := by
  have hanc : IsAncestor k s i := Relation.TransGen.tail' habove hc
  have hmono : ∀ d ∈ st.2.fds, d ∈ t'.fds := fun d hd => hfds ▸ hd
  have hkept : Kept target t (some st.1) t' := by
    rcases h.held with ⟨hown, hfds'⟩ | ⟨hne, d, hfd, hfds'⟩
    · exact .inl ⟨.inr (congrArg some hown), hfds.trans hfds'⟩
    · exact .inr ⟨d, by rw [hfd], hfd ▸ hne, hfds.trans hfds'⟩
  refine ⟨iff_of_false (Option.some_ne_none _) (not_not_intro hanc), ?_, ?_, hkept, hkept.closed,
    t'.nodup_closed⟩
  · rintro fd ⟨⟩
    refine ⟨c, Table.file_mono hmono hfile, fun c' => ⟨?_, ?_⟩⟩
    · rintro ⟨habove', hc'⟩
      exact (grounded k).siblings hc' hc habove' habove
    · rintro rfl
      exact ⟨habove, hc⟩
  · rw [Option.some.injEq]
    constructor
    · intro hown
      obtain ⟨c', hfile', -, -, -, hown'⟩ := h.here
      obtain rfl := Option.some.inj (hfile.symm.trans hfile')
      rw [← hown' hown]
      exact hc
    · intro hi
      by_contra hne
      exact h.passed hne hi

theorem Walking.next (h : Walking k s i target t st) (hs : t.file source = some s)
    (htarget : t.file target = some i) {st' : ℕ × Fds}
    (hbody : isAncestorBody k source target st = .next st') : Walking k s i target t st' := by
  rcases h.turn hs htarget with ⟨_, hturn, -⟩ | ⟨_, _, hturn, -⟩ | ⟨st'', hturn, hnext⟩
  · exact nomatch hbody.symm.trans hturn
  · exact nomatch hbody.symm.trans hturn
  · obtain rfl := Iter.next.inj (hturn.symm.trans hbody)
    exact hnext

theorem Walking.done (h : Walking k s i target t st) (hs : t.file source = some s)
    (htarget : t.file target = some i) {res : Result (Option ℕ × Fds)}
    (hbody : isAncestorBody k source target st = .done res) :
    ∃ r t', res = .ok (r, t') ∧ Walked k s i target t r t' := by
  rcases h.turn hs htarget with ⟨t', hturn, hfds, hnot⟩ | ⟨c, t', hturn, hfds, hfile, habove, hc⟩ |
    ⟨st', hturn, -⟩
  · obtain rfl := Iter.done.inj (hturn.symm.trans hbody)
    have hparent : k.parent i ≠ some s := fun hi => hnot (.single hi)
    have hkept : Kept target t none t' := .inl ⟨.inl rfl, hfds⟩
    exact ⟨none, t', rfl, iff_of_true rfl hnot, nofun, iff_of_false nofun hparent, hkept,
      hkept.closed, t'.nodup_closed⟩
  · obtain rfl := Iter.done.inj (hturn.symm.trans hbody)
    exact ⟨some st.1, t', rfl, h.found hfds hfile habove hc⟩
  · exact nomatch hbody.symm.trans hturn

theorem Walking.ne_blocked (h : Walking k s i target t st) (hs : t.file source = some s)
    (htarget : t.file target = some i) : isAncestorBody k source target st ≠ .blocked := by
  intro hbody
  rcases h.turn hs htarget with ⟨_, hturn, -⟩ | ⟨_, _, hturn, -⟩ | ⟨_, hturn, -⟩ <;>
    exact nomatch hbody.symm.trans hturn

/-- **The walk**: it comes to its end, and to the right one. -/
theorem isAncestorUserns_spec (hs : t.file source = some s) (htarget : t.file target = some i)
    (hi : k.content i = .ns .CLONE_NEWUSER) :
    ∃ r t', isAncestorUserns k source target t = some (.ok (r, t')) ∧ Walked k s i target t r t' := by
  have hstart : Walking k s i target t (target, t) :=
    ⟨.inl ⟨rfl, rfl⟩, ⟨i, htarget, hi, .refl, .rfl, fun _ => rfl⟩, fun hne => absurd rfl hne⟩
  obtain ⟨res, hres, r, t', rfl, hwalked⟩ := exec_rule (fun _ _ => levelOf_lt)
    (fun _ _ hst => hst.next hs htarget) (fun _ _ hst => hst.done hs htarget)
    (fun _ hst => hst.ne_blocked hs htarget) hstart
  exact ⟨r, t', hres, hwalked⟩

end

/-! ## The program -/

/-- What a part of the program comes to: it has left the descriptors that `P` says, or what it looks
at is not there, and it has terminated with another message than one about a descriptor that could
not be closed. -/
def Comes {α : Type} (there : Prop) (P : α → Prop) (r : Result α) : Prop :=
  (∃ a, r = .ok a ∧ P a) ∨ (¬there ∧ ∃ msg, r = .error msg ∧ msg ∉ closeErrors)

/-- A descriptor of the user namespace has been opened. -/
def Opened (userns : Inode → Prop) (t : Fds) (a : ℕ × Fds) : Prop :=
  ∃ d, d.fd = a.1 ∧ a.2.fds = d :: t.fds ∧ k.content d.file = .ns .CLONE_NEWUSER ∧ userns d.file

/-- The descriptors are the same, and more is known of the report. -/
theorem Comes.imp {there : Prop} {t : Fds} {P Q : Report → Prop} {r : Result (Report × Fds)}
    (h : Comes there (fun a => a.2.fds = t.fds ∧ P a.1) r) (himp : ∀ report, P report → Q report) :
    Comes there (fun a => a.2.fds = t.fds ∧ Q a.1) r := by
  rcases h with ⟨a, ha, hfds, hP⟩ | herror
  · exact .inl ⟨a, ha, hfds, himp a.1 hP⟩
  · exact .inr herror

theorem usernsFromPid_comes (pid : ℤ) (t : Fds) :
    Comes (k.path (usernsPath pid)).isSome
      (Opened (k := k) (fun i => k.path (usernsPath pid) = some i) t) (usernsFromPid k pid t) := by
  rw [usernsFromPid]
  cases hpath : k.path (usernsPath pid) with
  | none => exact .inr ⟨nofun, _, rfl, by decide⟩
  | some i =>
    obtain ⟨d, t', hopen, hfds, -, -, hfile⟩ := t.openFile_spec k.numbers i
    exact .inl ⟨_, rfl, d, by rw [hopen], by rw [hopen, hfds], by rw [hfile, k.content_path pid i hpath],
      by rw [hfile]⟩

theorem getUsernsFrom_comes (arg : List UInt8) (t : Fds) :
    Comes (Denotes k arg) (Opened (k := k) (TargetUserns k arg) t) (getUsernsFrom k arg t) := by
  have htarget : TargetUserns k arg = fun i => if arg.head?.any isdigit then
      k.path (usernsPath (atoi arg)) = some i else ∃ j, k.path arg = some j ∧
        (k.content j = .ns .CLONE_NEWUSER ∧ j = i ∨ k.content j = .ns .other ∧ k.owner j = some i) := rfl
  rw [getUsernsFrom, Denotes, htarget]
  by_cases hdigit : arg.head?.any isdigit = true
  · simp only [if_pos hdigit]
    exact usernsFromPid_comes (atoi arg) t
  · simp only [if_neg hdigit]
    cases hpath : k.path arg with
    | none =>
      refine .inr ⟨?_, _, rfl, by decide⟩
      rintro ⟨i, hi, -⟩
      exact nomatch hi
    | some i =>
      obtain ⟨d, t₁, hopen, hfds, -, -, hfile⟩ := t.openFile_spec k.numbers i
      simp only [hopen]
      cases hi : k.content i with
      | lines ls =>
        refine .inr ⟨?_, _, rfl, by decide⟩
        rintro ⟨i', hi', htype⟩
        obtain rfl := Option.some.inj hi'
        rw [hi] at htype
        exact htype.elim nofun fun h => nomatch h.1
      | ns type =>
        cases type with
        | CLONE_NEWUSER => exact .inl ⟨_, rfl, d, rfl, hfds, by rw [hfile, hi], i, rfl, .inl ⟨hi, hfile.symm⟩⟩
        | other =>
          cases howner : k.owner i with
          | none =>
            refine .inr ⟨?_, _, rfl, by decide⟩
            rintro ⟨i', hi', htype⟩
            obtain rfl := Option.some.inj hi'
            rw [hi, howner] at htype
            exact htype.elim nofun fun h => nomatch h.2
          | some u =>
            -- the descriptor of the namespace itself is behind that of its owner
            obtain ⟨d', t₂, hopen', hfds', -, -, hfile'⟩ := t₁.openFile_spec k.numbers u
            rw [hfds] at hfds'
            obtain ⟨t₃, hclose, hfds₃, -⟩ := t₂.close_second hfds'
            simp only [hopen', hclose]
            exact .inl ⟨_, rfl, d', rfl, hfds₃, by rw [hfile', k.content_owner i u howner], i, rfl,
              .inr ⟨hi, by rw [howner, hfile']⟩⟩

/-- `/proc/PID/status` has the record of the user IDs. -/
def HasUid (k : Kernel) (pid : ℤ) : Prop :=
  ∃ i ls uid, k.path (statusPath pid) = some i ∧ k.content i = .lines ls ∧ scanUid ls = some uid

theorem euidOfProcess_comes (pid : ℤ) (t : Fds) :
    Comes (HasUid k pid) (fun a => a.2.fds = t.fds ∧ EffectiveUid k pid a.1) (euidOfProcess k pid t) := by
  rw [euidOfProcess]
  cases hpath : k.path (statusPath pid) with
  | none =>
    refine .inr ⟨?_, _, rfl, by decide⟩
    rintro ⟨i, ls, uid, hi, -⟩
    exact nomatch hpath.symm.trans hi
  | some i =>
    obtain ⟨d, t', hopen, hfds, -⟩ := t.openFile_spec k.numbers i
    obtain ⟨t'', hclose, hfds', -⟩ := t'.close_head hfds
    simp only [hopen]
    cases hi : k.content i with
    | ns type =>
      refine .inr ⟨?_, _, rfl, by decide⟩
      rintro ⟨i', ls, uid, hi', hls, -⟩
      obtain rfl := Option.some.inj (hpath.symm.trans hi')
      exact nomatch hi.symm.trans hls
    | lines ls =>
      cases hscan : scanUid ls with
      | none =>
        simp only [hscan]
        refine .inr ⟨?_, _, rfl, by decide⟩
        rintro ⟨i', ls', uid, hi', hls, huid⟩
        obtain rfl := Option.some.inj (hpath.symm.trans hi')
        obtain rfl := Content.lines.inj (hi.symm.trans hls)
        exact nomatch hscan.symm.trans huid
      | some uid =>
        simp only [hscan, hclose, Option.getD_some]
        exact .inl ⟨_, rfl, hfds', i, ls, hpath, hi, hscan⟩

theorem displayProcessCapabilities_comes (pid : ℤ) :
    Comes ((k.caps pid).isSome = true) (fun text => k.caps pid = some text)
      (displayProcessCapabilities k pid) := by
  rw [displayProcessCapabilities]
  cases k.caps pid with
  | none => exact .inr ⟨nofun, _, rfl, by decide⟩
  | some text => exact .inl ⟨text, rfl, rfl⟩

/-- What `compare()` looks at is there. -/
def Known (k : Kernel) (pid : ℤ) : Prop := HasUid k pid ∧ (k.caps pid).isSome = true

theorem inAncestor_comes (pid : ℤ) {child target : ℕ} {u : Fds} {c : Inode}
    (hheld : Held target t (child, u)) (hfile : u.file child = some c)
    (hc : k.content c = .ns .CLONE_NEWUSER) :
    Comes (Known k pid) (fun a => a.2.fds = t.fds ∧ OwnerVerdict k pid c a.1)
      (inAncestor k pid child target u) := by
  rw [inAncestor]
  rcases euidOfProcess_comes (k := k) pid u with
    ⟨⟨euid, u₁⟩, heuid, hfds, heffective⟩ | ⟨hno, msg, hmsg, herr⟩
  · dsimp only at hfds
    have hfile₁ : u₁.file child = some c := Table.file_mono (fun d hd => hfds ▸ hd) hfile
    have huid : uidOfUserns k child u₁ = .ok (k.ownerUid c) := by
      simp only [uidOfUserns, hfile₁, hc]
    -- what is done in the end, whatever has been printed
    have hend : ∀ report : Report, OwnerVerdict k pid c report →
        Comes (Known k pid) (fun a => a.2.fds = t.fds ∧ OwnerVerdict k pid c a.1)
        (if child ≠ target then
          match u₁.close child with
          | none => .error "close-child_userns"
          | some t => .ok (report, t)
        else .ok (report, u₁)) := by
      intro report hverdict
      rcases hheld with ⟨hown, hfds'⟩ | ⟨hne, d, hfd, hfds'⟩
      · rw [if_neg (not_not_intro hown)]
        exact .inl ⟨_, rfl, hfds.trans hfds', hverdict⟩
      · obtain ⟨u₂, hclose, hfds₂, -⟩ := u₁.close_head (hfds.trans hfds')
        rw [hfd] at hclose
        rw [if_pos hne, hclose]
        exact .inl ⟨_, rfl, hfds₂, hverdict⟩
    simp only [heuid, huid, bind, Except.bind]
    by_cases howner : euid = k.ownerUid c
    · rw [if_pos howner]
      exact hend .isOwner ⟨euid, heffective, .inl ⟨howner, rfl⟩⟩
    · rw [if_neg howner]
      rcases displayProcessCapabilities_comes (k := k) pid with
        ⟨text, htext, hcaps⟩ | ⟨hno, msg, hmsg, herr⟩
      · rw [htext]
        exact hend (.isNotOwner text) ⟨euid, heffective, .inr ⟨howner, text, hcaps, rfl⟩⟩
      · rw [hmsg]
        exact .inr ⟨fun h => hno h.2, msg, rfl, herr⟩
  · simp only [hmsg, bind, Except.bind]
    exact .inr ⟨fun h => hno h.1, msg, rfl, herr⟩

/-- All that is above a user namespace is a user namespace. -/
theorem content_of_above {i c : Inode} (hi : k.content i = .ns .CLONE_NEWUSER)
    (h : Above k.parent i c) : k.content c = .ns .CLONE_NEWUSER := by
  rcases above_iff_tail.mp h with rfl | ⟨b, -, hb⟩
  · exact hi
  · exact k.content_parent b c hb

theorem compare_comes (pid : ℤ) {source target : ℕ} {s i : Inode} (hs : t.file source = some s)
    (htarget : t.file target = some i) (hi : k.content i = .ns .CLONE_NEWUSER) :
    ∃ r, compare k pid source target t = some r ∧
      Comes (Known k pid) (fun a => a.2.fds = t.fds ∧ Verdict k pid s i a.1) r := by
  rw [compare, nsEqual_of hs htarget]
  by_cases hsame : s = i
  · simp only [hsame, decide_true]
    refine ⟨_, rfl, ?_⟩
    rcases displayProcessCapabilities_comes (k := k) pid with
      ⟨text, htext, hcaps⟩ | ⟨hno, msg, hmsg, herr⟩
    · rw [htext]
      exact .inl ⟨_, rfl, rfl, .inl ⟨rfl, text, hcaps, rfl⟩⟩
    · rw [hmsg]
      exact .inr ⟨fun h => hno h.2, msg, rfl, herr⟩
  · obtain ⟨r, t', hrun, hwalked⟩ := isAncestorUserns_spec hs htarget hi
    simp only [hsame, decide_false, hrun]
    cases r with
    | none =>
      refine ⟨_, rfl, .inl ⟨_, rfl, ?_, .inr (.inl ⟨hsame, hwalked.notAncestor.mp rfl, rfl⟩)⟩⟩
      rcases hwalked.kept with ⟨-, hfds⟩ | ⟨d, hd, -⟩
      · exact hfds
      · exact nomatch hd
    | some child =>
      obtain ⟨c, hfile, hchild⟩ := hwalked.child child rfl
      have hc := content_of_above hi ((hchild c).mpr rfl).1
      have hbelow := (hchild c).mpr rfl
      refine ⟨_, rfl, (inAncestor_comes pid ?_ hfile hc).imp fun report hverdict =>
        .inr (.inr ⟨hsame, c, hbelow.1, hbelow.2, hverdict⟩)⟩
      rcases hwalked.kept with ⟨hown, hfds⟩ | ⟨d, hd, hne, hfds⟩
      · exact .inl ⟨Option.some.inj (hown.resolve_left nofun), hfds⟩
      · obtain rfl := Option.some.inj hd
        exact .inr ⟨hne, d, rfl, hfds⟩

/-- **The program**: it comes to its end, and has closed all that it has opened. -/
theorem main_comes (argv0 pidArg nsArg : List UInt8) (t : Fds) :
    ∃ r, main k [argv0, pidArg, nsArg] t = some r ∧
      Comes (Ready k pidArg nsArg) (fun a => a.2.fds = t.fds ∧ Reports k pidArg nsArg a.1) r := by
  rw [main]
  rcases usernsFromPid_comes (k := k) (atoi pidArg) t with
    ⟨⟨source, t₁⟩, hrun₁, d, hd, hfds₁, -, hpath⟩ | ⟨hno, msg, hmsg, herr⟩
  · dsimp only at hd hfds₁
    subst hd
    rcases getUsernsFrom_comes (k := k) nsArg t₁ with
      ⟨⟨target, t₂⟩, hrun₂, d', hd', hfds₂, hcontent, hdenoted⟩ | ⟨hno, msg, hmsg, herr⟩
    · dsimp only at hd' hfds₂
      subst hd'
      have hsource := t₂.file_of_mem (hfds₂ ▸ List.mem_cons_of_mem d' (hfds₁ ▸ List.mem_cons_self))
      have htarget := t₂.file_of_mem (hfds₂ ▸ List.mem_cons_self)
      obtain ⟨r, hrun, hr⟩ := compare_comes (atoi pidArg) hsource htarget hcontent
      simp only [hrun₁, hrun₂, hrun]
      rcases hr with ⟨⟨report, t₃⟩, rfl, hfds₃, hverdict⟩ | ⟨hno, msg, rfl, herr⟩
      · dsimp only at hfds₃
        -- the two descriptors are closed, the one opened last first
        obtain ⟨t₄, hclose₄, hfds₄, -⟩ := t₃.close_head (hfds₃.trans hfds₂)
        obtain ⟨t₅, hclose₅, hfds₅, -⟩ := t₄.close_head (hfds₄.trans hfds₁)
        refine ⟨_, rfl, .inl ⟨(report, t₅), ?_, hfds₅, d.file, d'.file, hpath, hdenoted, hverdict⟩⟩
        simp only [cleanUp, hclose₄, hclose₅]
      · exact ⟨_, rfl, .inr ⟨fun h => hno ⟨h.status, h.caps⟩, msg, rfl, herr⟩⟩
    · simp only [hrun₁, hmsg]
      exact ⟨_, rfl, .inr ⟨fun h => hno h.target, msg, rfl, herr⟩⟩
  · simp only [hmsg]
    exact ⟨_, rfl, .inr ⟨fun h => hno h.source, msg, rfl, herr⟩⟩

theorem restored_of_fds {t' : Fds} (h : t'.fds = t.fds) : Restored t t' :=
  ⟨h, fun _ hn hlt => (Table.mem_closed_of_fds_eq h hn).mpr hlt, t'.nodup_closed⟩

/-- **`isAncestorUserns()`** comes to its end for every chain of user namespaces and every numbering
of the descriptors, it finds the namespace directly below the source exactly if the source is above
the target, and it leaves no descriptor open but the one that it returns. **`main()`** comes to its
end as well, with the verdict on the two user namespaces that its arguments denote, and then each
descriptor that was opened has been closed once; it terminates with a message only where something that it looks at is not there, and never because it closes a
descriptor that is not open. -/
theorem isAncestorUserns_cleanUp (k : Kernel) (t : Fds) :
    (∀ source target s i, t.file source = some s → t.file target = some i →
      k.content i = .ns .CLONE_NEWUSER →
      ∃ r t', isAncestorUserns k source target t = some (.ok (r, t')) ∧
        Walked k s i target t r t') ∧
    ∀ argv0 pidArg nsArg, ∃ r, main k [argv0, pidArg, nsArg] t = some r ∧
      (∀ report t', r = .ok (report, t') → Restored t t' ∧ Reports k pidArg nsArg report) ∧
      ∀ msg, r = .error msg → msg ∉ closeErrors ∧ ¬Ready k pidArg nsArg := by
  refine ⟨fun source target s i hs htarget hi => isAncestorUserns_spec hs htarget hi, ?_⟩
  intro argv0 pidArg nsArg
  obtain ⟨r, hrun, hr⟩ := main_comes (k := k) argv0 pidArg nsArg t
  refine ⟨r, hrun, ?_, ?_⟩
  · rintro report t' rfl
    rcases hr with ⟨a, ha, hfds, hreports⟩ | ⟨-, msg, hmsg, -⟩
    · obtain rfl := Except.ok.inj ha
      exact ⟨restored_of_fds hfds, hreports⟩
    · exact nomatch hmsg
  · rintro msg rfl
    rcases hr with ⟨a, ha, -⟩ | ⟨hno, msg', hmsg, herr⟩
    · exact nomatch ha
    · obtain rfl := Except.error.inj hmsg
      exact ⟨herr, hno⟩

/-- Three user namespaces, each the parent of the next; process 5 is in the first one and process 6
in the last one. -/
def threeLevels : Kernel where
  content i := if i.st_ino ≤ 3 then .ns .CLONE_NEWUSER else .lines [.other [], .uid 0 0 0 0]
  path p :=
    if p.getLast? = some 115 then some ⟨0, 4⟩
    else if p = usernsPath 5 then some ⟨0, 1⟩ else some ⟨0, 3⟩
  parent i := if 1 < i.st_ino ∧ i.st_ino ≤ 3 then some ⟨0, i.st_ino - 1⟩ else none
  level i := i.st_ino
  owner _ := none
  ownerUid _ := 0
  caps _ := some []
  numbers := .above Inode
  content_parent := by
    intro c p h
    split at h
    · obtain rfl := Option.some.inj h
      rw [if_pos (by dsimp only; omega)]
    · exact nomatch h
  content_owner := nofun
  content_path := by
    intro pid i h
    have hlast : (usernsPath pid).getLast? = some 114 := by
      rw [usernsPath, List.getLast?_append]
      rfl
    rw [hlast, if_neg (by decide)] at h
    split at h <;> obtain rfl := Option.some.inj h <;> rfl
  level_parent := by
    intro c p h
    split at h
    · obtain rfl := Option.some.inj h
      dsimp only
      omega
    · exact nomatch h

theorem isAncestorUserns_cleanUp_threeLevels :
    (∃ r t', isAncestorUserns threeLevels 1 2
        ((Table.empty.openFile threeLevels.numbers ⟨0, 1⟩).2.openFile threeLevels.numbers ⟨0, 3⟩).2 =
          some (.ok (r, t')) ∧
      Walked threeLevels ⟨0, 1⟩ ⟨0, 3⟩ 2
        ((Table.empty.openFile threeLevels.numbers ⟨0, 1⟩).2.openFile threeLevels.numbers ⟨0, 3⟩).2
        r t') ∧
    ∃ report t', main threeLevels [[], [53], [54]] Table.empty = some (.ok (report, t')) ∧
      Restored Table.empty t' ∧ Reports threeLevels [53] [54] report := by
  refine ⟨(isAncestorUserns_cleanUp threeLevels _).1 1 2 _ _ rfl rfl rfl, ?_⟩
  obtain ⟨r, hrun, hok, herr⟩ := (isAncestorUserns_cleanUp threeLevels Table.empty).2 [] [53] [54]
  have hready : Ready threeLevels [53] [54] := by
    refine ⟨by decide, ?_, ⟨⟨0, 4⟩, [.other [], .uid 0 0 0 0], 0, by decide, rfl, rfl⟩, rfl⟩
    rw [Denotes, if_pos (by decide)]
    decide
  cases r with
  | ok a => exact ⟨a.1, a.2, hrun, hok a.1 a.2 rfl⟩
  | error msg => exact absurd hready (herr msg rfl).2

end Tlpi.NsCapable
