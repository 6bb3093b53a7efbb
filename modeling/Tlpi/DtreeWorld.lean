/-
`inotify/inotify_dtree.c` in a world that does as it likes.

Where `Tlpi.InotifyDtree` runs the program over one tree of directories, here nothing is known
of the file system but what the kernel promises about watches. Other processes may at any
time, also in the middle of a walk or between two `inotify_rm_watch()` calls, cause an event for
a watch or make the kernel drop one (`Change`); `nftw()` may come upon any pathnames and find
any inodes there; and `inotify_rm_watch()` may fail as it pleases (`World`).

What the kernel does promise: it gives a watch descriptor that it has not given before on this
inotify instance (`Numbering`), and the one that an inode has if it is watched already; a watch
that it drops, because the directory or its file system is gone, is announced by an
`IN_DELETE_SELF` or `IN_UNMOUNT` and then an `IN_IGNORED`, unless the queue overflows.

`gone` is a history variable: the watches that the kernel has dropped and whose own event has
not been handled yet. `issued` is the numbers given so far. Neither is read by the program.

The options `-a`, `-x` and `-d` are not given, log messages are left out, and pathnames are
not cut at `PATH_MAX` characters.
-/
import Mathlib.Data.List.Perm.Basic
import Tlpi.InotifyDtree

set_option autoImplicit false

namespace Tlpi.DtreeWorld

open Tlpi.Pathname Tlpi.Inotify Tlpi.InotifyDtree

/-! ## 1. The kernel -/

/-- What the kernel knows of one inotify instance. -/
structure Instance where
  /-- The inodes that are watched, with their watch descriptors. -/
  watches : List (ℕ × ℤ) := []
  issued : List ℤ := []
  queue : List Event := []
  gone : List ℤ := []

/-- How new watch descriptors are numbered: by a number that was not used before. -/
structure Numbering where
  next : List ℤ → ℤ
  nonneg : ∀ issued, 0 ≤ next issued
  fresh : ∀ issued, next issued ∉ issued

/-- The numbering of a kernel that counts. -/
def counting : Numbering where
  next issued := issued.foldr max 0 + 1
  nonneg issued := by
    have hmax : 0 ≤ issued.foldr max 0 := by
      induction issued with
      | nil => exact Int.le_refl 0
      | cons wd issued ih => exact Int.le_trans ih (Int.le_max_right _ _)
    omega
  fresh issued hmem := by
    have hle : ∀ wd ∈ issued, wd ≤ issued.foldr max 0 := by
      clear hmem
      induction issued with
      | nil => exact fun wd hwd => nomatch hwd
      | cons wd issued ih =>
        intro wd' hwd'
        rcases List.mem_cons.mp hwd' with rfl | hwd'
        · exact Int.le_max_left _ _
        · exact Int.le_trans (ih wd' hwd') (Int.le_max_right _ _)
    have := hle _ hmem
    omega

namespace Instance

/-- The watch is active. -/
def active (k : Instance) (wd : ℤ) : Bool := k.watches.any fun w => w.2 = wd

def inotifyAddWatch (num : Numbering) (k : Instance) (ino : ℕ) : Instance × ℤ :=
  match k.watches.find? fun w => w.1 = ino with
  -- the inode is watched already, perhaps under another pathname
  | some w => (k, w.2)
  | none =>
    let wd := num.next k.issued
    ({ k with watches := (ino, wd) :: k.watches, issued := wd :: k.issued }, wd)

/-- `inotify_rm_watch()`; `none` is `EINVAL`. -/
def inotifyRmWatch (k : Instance) (wd : ℤ) : Option Instance :=
  if k.active wd then
    some { k with
      watches := k.watches.filter fun w => w.2 ≠ wd
      queue := k.queue ++ [⟨wd, IN_IGNORED, 0, []⟩] }
  else none

end Instance

/-- The masks of the event of a watch that the kernel drops. -/
def selfMasks : List (BitVec 32) :=
  [IN_DELETE_SELF, IN_DELETE_SELF ||| IN_ISDIR, IN_UNMOUNT, IN_UNMOUNT ||| IN_ISDIR]

/-- The event is that of a watch that the kernel has dropped. -/
def isSelf (ev : Event) : Bool := has ev.mask (IN_DELETE_SELF ||| IN_UNMOUNT)

/-- The mask is that of an event that leaves the watch as it is. -/
def isPlain (mask : BitVec 32) : Bool :=
  !has mask (IN_DELETE_SELF ||| IN_UNMOUNT ||| IN_Q_OVERFLOW ||| IN_IGNORED)

/-- What may happen at any time. -/
inductive Change where
  /-- Something happens in a watched directory, or it is moved. -/
  | notify (ev : Event)
  /-- A watched directory is deleted, or its file system is unmounted. -/
  | drop (wd : ℤ) (mask : BitVec 32)
  /-- The queue overflows, -/
  | overflow
  /-- and an event is lost. -/
  | lose (i : ℕ)
  /-- Events of different directories may come in any order. -/
  | reorder (queue : List Event)
deriving Repr, DecidableEq

/-- A change that is not possible does nothing. -/
def Instance.change (k : Instance) : Change → Instance
  | .notify ev =>
    if k.active ev.wd ∧ isPlain ev.mask then { k with queue := k.queue ++ [ev] } else k
  | .drop wd mask =>
    if k.active wd ∧ mask ∈ selfMasks then
      -- the watch is gone at once; the program learns of it when it gets to the first event
      { k with
        watches := k.watches.filter fun w => w.2 ≠ wd
        gone := wd :: k.gone
        queue := k.queue ++ [⟨wd, mask, 0, []⟩, ⟨wd, IN_IGNORED, 0, []⟩] }
    else k
  | .overflow => { k with queue := k.queue ++ [⟨-1, IN_Q_OVERFLOW, 0, []⟩] }
  | .lose i => { k with queue := k.queue.eraseIdx i }
  | .reorder queue => if queue.Perm k.queue then { k with queue := queue } else k

/-- What `nftw()` comes upon: a pathname, whether a directory was there, and the inode that
`inotify_add_watch()` then finds there (`none` is `ENOENT`), after `changes`. -/
structure Visit where
  changes : List Change
  pathname : Str
  isDir : Bool
  ino : Option ℕ

/-- What a call of the program meets with. -/
structure World where
  /-- What `nftw()` visits from a pathname. -/
  nftw : Str → List Visit
  /-- What happens before an `inotify_rm_watch()`, and whether it fails in any case. -/
  rmWatch : ℤ → List Change × Bool

/-! ## 2. The program -/

/-- The inotify instance and the program's global variables. -/
structure State where
  inotify : Instance
  rootDirPaths : List (Option Str)
  wlCache : List Watch

def State.changes (s : State) (cs : List Change) : State :=
  { s with inotify := cs.foldl Instance.change s.inotify }

def isRootDirPath (s : State) (path : Str) : Bool := s.rootDirPaths.contains (some path)

/-- The first element that points to the pathname is zapped; `none` is the end of the program:
no more root paths left to monitor. -/
def zapRootDirPath (s : State) (path : Str) : Option State :=
  let rootDirPaths := match s.rootDirPaths.findIdx? fun p => p = some path with
    | some j => s.rootDirPaths.set j none
    | none => s.rootDirPaths
  -- `ignoreRootDirs` counts the elements that were zapped
  if rootDirPaths.all Option.isNone then none else some { s with rootDirPaths := rootDirPaths }

def traverseTree (num : Numbering) (s : State) (v : Visit) : State :=
  let s := s.changes v.changes
  if v.isDir then
    match v.ino with
    -- deleted or renamed since `nftw()` saw it: logged, and the walk goes on
    | none => s
    | some ino =>
      let (inotify, wd) := s.inotify.inotifyAddWatch num ino
      if (findWatch s.wlCache wd).isSome then { s with inotify := inotify }
      else { s with inotify := inotify, wlCache := addWatchToCache s.wlCache wd v.pathname }
  else s

def watchDir (num : Numbering) (w : World) (s : State) (pathname : Str) : State :=
  (w.nftw pathname).foldl (traverseTree num) s

def watchSubtree (num : Numbering) (w : World) (s : State) (path : Str) : State :=
  watchDir num w s path

/-- The loop of `zapSubtree()` over the slots `js`: the count is `none` for -1. -/
def zapSlots (w : World) (pn : Str) : List ℕ → State → State × Option ℕ
  | [], s => (s, some 0)
  | j :: js, s =>
    match s.wlCache[j]? with
    | none => (s, some 0)
    | some watch =>
      if 0 ≤ watch.wd ∧ inSubtree pn watch.path then
        let s := s.changes (w.rmWatch watch.wd).1
        match if (w.rmWatch watch.wd).2 then none else s.inotify.inotifyRmWatch watch.wd with
        -- the loop is left, with the slots that it has not come to as they were
        | none => (s, none)
        | some inotify =>
          let (s, cnt) := zapSlots w pn js
            { s with inotify := inotify, wlCache := markCacheSlotEmpty s.wlCache j }
          (s, cnt.map (· + 1))
      else zapSlots w pn js s

def zapSubtree (w : World) (s : State) (path : Str) : State × Option ℕ :=
  zapSlots w path (List.range s.wlCache.length) s

def reinitialize (num : Numbering) (w : World) (s : State) : State :=
  (s.rootDirPaths.filterMap id).foldl (watchSubtree num w) { s with inotify := {}, wlCache := [] }

/-- A rename out of the monitored trees. -/
def movedOut (num : Numbering) (w : World) (s : State) (path : Str) : State × Consumed :=
  match zapSubtree w s path with
  | (s, some _) => (s, .events 1)
  | (s, none) => ( reinitialize num w s, .buffer)

/-- The deletion of a directory, and of a root. -/
def deleted (s : State) (evCacheSlot : ℕ) (path : Str) : State × Consumed :=
  match if isRootDirPath s path then zapRootDirPath s path else some s with
  | none => (s, .exit)
  | some s => ({ s with wlCache := markCacheSlotEmpty s.wlCache evCacheSlot }, .events 1)

/-- The move of a root directory. -/
def rootMoved (num : Numbering) (w : World) (s : State) (path : Str) : State × Consumed :=
  match zapRootDirPath s path with
  | none => (s, .exit)
  | some s => movedOut num w s path

/-- A directory that was moved from somewhere; `nextEv` is the event after it in the buffer. -/
def movedFrom (num : Numbering) (w : World) (s : State) (path : Str) (ev : Event)
    (nextEv : Option Event) (firstTry : Bool) : State × Consumed :=
  match nextEv with
  | some nextEv =>
    if has nextEv.mask IN_MOVED_TO && nextEv.cookie == ev.cookie then
      -- a rename within the trees; the directory it was moved to may be unknown as well
      match findWatch s.wlCache nextEv.wd with
      | none => ( reinitialize num w s, .buffer)
      | some nextEvCacheSlot =>
        ({ s with
            wlCache := rewriteCachedPaths s.wlCache path ev.name
              (slotPath s.wlCache nextEvCacheSlot) nextEv.name }, .events 2)
    else movedOut num w s (child path ev.name)
  | none => if firstTry then (s, .again) else movedOut num w s (child path ev.name)

/-- The part of `processNextInotifyEvent()` after the cache consistency check. -/
def handleEvent (num : Numbering) (w : World) (s : State) (evCacheSlot : ℕ) (ev : Event)
    (nextEv : Option Event) (firstTry : Bool) : State × Consumed :=
  let path := slotPath s.wlCache evCacheSlot
  let fullPath := child path ev.name
  if has ev.mask IN_ISDIR && has ev.mask (IN_CREATE ||| IN_MOVED_TO) then
    (if pathnameInCache s.wlCache fullPath then s else watchSubtree num w s fullPath, .events 1)
  else if has ev.mask IN_DELETE_SELF then deleted s evCacheSlot path
  else if ev.mask &&& (IN_MOVED_FROM ||| IN_ISDIR) = IN_MOVED_FROM ||| IN_ISDIR then
    movedFrom num w s path ev nextEv firstTry
  else if has ev.mask IN_Q_OVERFLOW then ( reinitialize num w s, .buffer)
  else if has ev.mask IN_UNMOUNT then
    ({ s with wlCache := markCacheSlotEmpty s.wlCache evCacheSlot }, .events 1)
  else if has ev.mask IN_MOVE_SELF && isRootDirPath s path then rootMoved num w s path
  else (s, .events 1)

/-- An event without a watch, or whose watch is gone, is not looked up; no branch that it can
take uses the slot. -/
def processNextInotifyEvent (num : Numbering) (w : World) (s : State) (ev : Event)
    (nextEv : Option Event) (firstTry : Bool) : State × Consumed :=
  if ev.wd ≠ -1 ∧ has ev.mask IN_IGNORED = false then
    match findWatch s.wlCache ev.wd with
    | none => ( reinitialize num w s, .buffer)
    | some evCacheSlot => handleEvent num w s evCacheSlot ev nextEv firstTry
  else handleEvent num w s s.wlCache.length ev nextEv firstTry

end Tlpi.DtreeWorld
