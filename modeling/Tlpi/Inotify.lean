/-
The kernel's side of **inotify**, for directories: which directories there are, which of them
are watched, and the events that are queued.

## What is modelled

A directory has an inode number, which stays, and a pathname, which changes when it or a
directory above it is renamed. The pathname is the one string under which the directory is
reached. A watch belongs to an inode. `mkdir()`, `rmdir()` and `rename()` change
the tree and queue their events for the directories that are watched at that moment, in the
order and with the masks of `inotify(7)`:

* `IN_CREATE` on the parent of a new directory;
* `IN_DELETE_SELF` and then `IN_IGNORED` on a directory that goes away, with its watch;
* `IN_MOVED_FROM` on the old parent and `IN_MOVED_TO` on the new one, with one cookie that
  no other rename has; when an empty directory was replaced, its own events follow.

Watch descriptors of one inotify instance are numbered from 1 and not used again. An overflow of
the queue is not modelled, and an event that is the same as the one before it, which the kernel may
merge with that one, stays an event of its own.

`place` is a history variable of the queue: the pathname, at the time of the event, of the
directory that was made, removed or renamed.
-/
import Mathlib.Logic.Function.Basic
import Tlpi.Pathname

set_option autoImplicit false

namespace Tlpi.Inotify

open Tlpi.Pathname

abbrev IN_MOVED_FROM : BitVec 32 := 0x00000040#32
abbrev IN_MOVED_TO : BitVec 32 := 0x00000080#32
abbrev IN_CREATE : BitVec 32 := 0x00000100#32
abbrev IN_DELETE_SELF : BitVec 32 := 0x00000400#32
abbrev IN_MOVE_SELF : BitVec 32 := 0x00000800#32
abbrev IN_UNMOUNT : BitVec 32 := 0x00002000#32
abbrev IN_Q_OVERFLOW : BitVec 32 := 0x00004000#32
abbrev IN_IGNORED : BitVec 32 := 0x00008000#32
abbrev IN_ISDIR : BitVec 32 := 0x40000000#32

/-- `mask & flags`, as a condition. -/
def has (mask flags : BitVec 32) : Bool := mask &&& flags != 0

/-- `struct inotify_event` -/
structure Event where
  wd : ℤ
  mask : BitVec 32
  cookie : ℕ
  name : Str
deriving Repr, DecidableEq

structure Queued where
  ev : Event
  place : Str
deriving Repr, DecidableEq

structure Dir where
  ino : ℕ
  path : Str
deriving Repr, DecidableEq

structure Kernel where
  dirs : List Dir
  nextIno : ℕ
  watch : ℕ → Option ℤ
  nextWd : ℤ
  nextCookie : ℕ
  queue : List Queued

/-! ## Lookups -/

/-- The directory at a pathname. -/
def Kernel.find (k : Kernel) (P : Str) : Option Dir := k.dirs.find? fun d => d.path = P

/-- The watch descriptor of the directory at a pathname. -/
def Kernel.wdAt (k : Kernel) (P : Str) : Option ℤ := (k.find P).bind fun d => k.watch d.ino

/-- `nftw(P, ..., FTW_PHYS)`: the pathnames of the directories it visits, none when `P` does
not exist. -/
def Kernel.nftw (k : Kernel) (P : Str) : List Str :=
  if (k.find P).isSome then (k.dirs.filter fun d => Under P d.path).map Dir.path else []

/-! ## Watches -/

/-- `inotify_init()`, after the descriptor before it has been closed. -/
def Kernel.inotifyInit (k : Kernel) : Kernel :=
  { k with watch := fun _ => none, nextWd := 1, queue := [] }

/-- `inotify_add_watch()`; `none` is `ENOENT`. -/
def Kernel.inotifyAddWatch (k : Kernel) (P : Str) : Option (Kernel × ℤ) :=
  match k.find P with
  | none => none
  | some d =>
    match k.watch d.ino with
    | some wd => some (k, wd)
    | none =>
      some ({ k with watch := Function.update k.watch d.ino (some k.nextWd), nextWd := k.nextWd + 1 },
        k.nextWd)

/-- `inotify_rm_watch()`; `none` is `EINVAL`. -/
def Kernel.inotifyRmWatch (k : Kernel) (wd : ℤ) : Option Kernel :=
  if k.dirs.any fun d => k.watch d.ino = some wd then
    some { k with
      watch := fun i => if k.watch i = some wd then none else k.watch i
      queue := k.queue ++ [⟨⟨wd, IN_IGNORED, 0, []⟩, []⟩] }
  else none

/-! ## Operations on the tree -/

/-- An event for the watch on a directory, if there is one. -/
def notify (wd : Option ℤ) (mask : BitVec 32) (cookie : ℕ) (name place : Str) : List Queued :=
  match wd with
  | none => []
  | some wd => [⟨⟨wd, mask, cookie, name⟩, place⟩]

/-- The events of a directory that goes away. -/
def notifySelf (wd : Option ℤ) (place : Str) : List Queued :=
  match wd with
  | none => []
  | some wd => [⟨⟨wd, IN_DELETE_SELF, 0, []⟩, place⟩, ⟨⟨wd, IN_IGNORED, 0, []⟩, []⟩]

/-- The directory at `P`, if there is one, goes away. -/
def Kernel.vacate (k : Kernel) (P : Str) : Kernel :=
  { k with
    dirs := k.dirs.filter fun d => d.path ≠ P
    watch := fun i => if k.dirs.any fun d => d.ino = i ∧ d.path = P then none else k.watch i
    queue := k.queue ++ notifySelf (k.wdAt P) P }

/-- `P` is a directory with nothing in it, or is not there. -/
def Kernel.Empty (k : Kernel) (P : Str) : Prop := ∀ d ∈ k.dirs, Under P d.path → d.path = P

instance (k : Kernel) (P : Str) : Decidable (k.Empty P) :=
  inferInstanceAs (Decidable (∀ d ∈ k.dirs, Under P d.path → d.path = P))

def Kernel.mkdir (k : Kernel) (p name : Str) : Option Kernel :=
  if ValidName name ∧ (k.find p).isSome ∧ k.find (child p name) = none then
    some { k with
      dirs := k.dirs ++ [⟨k.nextIno, child p name⟩], nextIno := k.nextIno + 1
      queue := k.queue ++ notify (k.wdAt p) (IN_CREATE ||| IN_ISDIR) 0 name (child p name) }
  else none

/-- `rmdir()`, of anything but the directories `roots`. -/
def Kernel.rmdir (roots : List Str) (k : Kernel) (P : Str) : Option Kernel :=
  if (k.find P).isSome ∧ k.Empty P ∧ P ∉ roots then some (k.vacate P) else none

/-- `rename(p/name, p'/name')`, which leaves the directories `roots` where they are. -/
def Kernel.rename (roots : List Str) (k : Kernel) (p name p' name' : Str) : Option Kernel :=
  let S := child p name
  let T := child p' name'
  if (ValidName name ∧ ValidName name') ∧
      ((k.find p).isSome ∧ (k.find p').isSome ∧ (k.find S).isSome) ∧
      (¬Under S T ∧ k.Empty T) ∧ (T ∉ roots ∧ ∀ r ∈ roots, ¬Under S r) then
    let moving := { k with
      nextCookie := k.nextCookie + 1
      queue := k.queue ++
        (notify (k.wdAt p) (IN_MOVED_FROM ||| IN_ISDIR) k.nextCookie name S ++
          notify (k.wdAt p') (IN_MOVED_TO ||| IN_ISDIR) k.nextCookie name' T) }
    let vacated := moving.vacate T
    some { vacated with
      dirs := vacated.dirs.map fun d =>
        if Under S d.path then { d with path := rebase S T d.path } else d }
  else none

end Tlpi.Inotify
