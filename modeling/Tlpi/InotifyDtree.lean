/-
`inotify/inotify_dtree.c`: the program that keeps a cache of the directory trees named on
its command line, by way of inotify.

## What is modelled

`processNextInotifyEvent()` with every branch, and what it calls: the walk that watches and
caches a subtree, the zapping of a subtree, and `reinitialize()`. One other process makes,
removes and renames directories, in the monitored trees or anywhere else, but leaves the
root directories where they are; each of its operations, each call of
`processNextInotifyEvent()` and so each `nftw()` walk is one atomic step.

The buffer that `processNextInotifyEvent()` is given holds the first `n` of the events that
the program has not handled yet, those in its own buffer and those in the kernel's queue
together, for any `n`. `firstTry` is false only after a second `read()`, which returns
whatever there was to read. Events that a call discards on `reinitialize()` are gone with
the descriptor and the buffer.

The counts that only log messages use are left out, and so is the flag `IN_MOVE_SELF` of
the watches on roots, which never move here. The roots are named as `nftw()` passes them
on, without a slash at the end.
-/
import Tlpi.DtreeCache
import Tlpi.Transition

set_option autoImplicit false

namespace Tlpi.InotifyDtree

open Tlpi.Pathname Tlpi.Inotify Tlpi.Transition

/-- The kernel and the program's global variables. An element of `rootDirPaths` is `none`
when the program has ceased to monitor it. -/
structure State where
  kernel : Kernel
  rootDirPaths : List (Option Str)
  wlCache : List Watch

/-! ## Root directories -/

def isRootDirPath (s : State) (path : Str) : Bool := s.rootDirPaths.contains (some path)

/-- `none` is the end of the program: no more root paths left to monitor. -/
def zapRootDirPath (s : State) (path : Str) : Option State :=
  let rootDirPaths := s.rootDirPaths.map fun p => if p = some path then none else p
  if rootDirPaths.all Option.isNone then none else some { s with rootDirPaths := rootDirPaths }

/-! ## Watching subtrees -/

def traverseTree (s : State) (pathname : Str) : State :=
  match s.kernel.inotifyAddWatch pathname with
  | none => s
  | some (kernel, wd) =>
    if (findWatch s.wlCache wd).isSome then { s with kernel := kernel }
    else { s with kernel := kernel, wlCache := addWatchToCache s.wlCache wd pathname }

def watchDir (s : State) (pathname : Str) : State := (s.kernel.nftw pathname).foldl traverseTree s

def watchSubtree (s : State) (path : Str) : State := watchDir s path

def reinitialize (s : State) : State :=
  (s.rootDirPaths.filterMap id).foldl watchSubtree
    { s with kernel := s.kernel.inotifyInit, wlCache := [] }

/-! ## Handling an event -/

/-- What `processNextInotifyEvent()` returns: the number of events it has consumed, or
`INOTIFY_READ_BUF_LEN`, or -1 for "do another `read()`"; or the program ends. -/
inductive Consumed where
  | events (n : ℕ)
  | buffer
  | again
  | exit
deriving Repr, DecidableEq

/-- A rename out of the monitored trees. -/
def movedOut (s : State) (fullPath : Str) : State × Consumed :=
  match zapSubtree s.kernel fullPath s.wlCache with
  | (kernel, wlCache, some _) => ({ s with kernel := kernel, wlCache := wlCache }, .events 1)
  | (kernel, wlCache, none) =>
    ( reinitialize { s with kernel := kernel, wlCache := wlCache }, .buffer)

/-- The deletion of a directory, and of a root. -/
def deleted (s : State) (evCacheSlot : ℕ) (path : Str) : State × Consumed :=
  match if isRootDirPath s path then zapRootDirPath s path else some s with
  | none => (s, .exit)
  | some s => ({ s with wlCache := markCacheSlotEmpty s.wlCache evCacheSlot }, .events 1)

/-- The move of a root directory. -/
def rootMoved (s : State) (path : Str) : State × Consumed :=
  match zapRootDirPath s path with
  | none => (s, .exit)
  | some s => movedOut s path

/-- The pathname in a slot. -/
def slotPath (wlCache : List Watch) (slot : ℕ) : Str := (wlCache[slot]?.map Watch.path).getD []

/-- The part of `processNextInotifyEvent()` after the cache consistency check; `buf` is what
follows the event in the buffer. -/
def handleEvent (s : State) (evCacheSlot : ℕ) (ev : Event) (buf : List Event) (firstTry : Bool) :
    State × Consumed :=
  let path := slotPath s.wlCache evCacheSlot
  let fullPath := child path ev.name
  if has ev.mask IN_ISDIR && has ev.mask (IN_CREATE ||| IN_MOVED_TO) then
    (if pathnameInCache s.wlCache fullPath then s else watchSubtree s fullPath, .events 1)
  else if has ev.mask IN_DELETE_SELF then deleted s evCacheSlot path
  else if ev.mask &&& (IN_MOVED_FROM ||| IN_ISDIR) = IN_MOVED_FROM ||| IN_ISDIR then
    match buf with
    | nextEv :: _ =>
      if has nextEv.mask IN_MOVED_TO && nextEv.cookie == ev.cookie then
        match findWatch s.wlCache nextEv.wd with
        | none => ( reinitialize s, .buffer)
        | some nextEvCacheSlot =>
          ({ s with
              wlCache := rewriteCachedPaths s.wlCache path ev.name
                (slotPath s.wlCache nextEvCacheSlot) nextEv.name }, .events 2)
      else movedOut s fullPath
    | [] => if firstTry then (s, .again) else movedOut s fullPath
  else if has ev.mask IN_Q_OVERFLOW then ( reinitialize s, .buffer)
  else if has ev.mask IN_UNMOUNT then
    ({ s with wlCache := markCacheSlotEmpty s.wlCache evCacheSlot }, .events 1)
  else if has ev.mask IN_MOVE_SELF && isRootDirPath s path then rootMoved s path
  else (s, .events 1)

/-- An event without a watch, or whose watch is gone, is not looked up; no branch that it
can take uses the slot. -/
def processNextInotifyEvent (s : State) (ev : Event) (buf : List Event) (firstTry : Bool) :
    State × Consumed :=
  if ev.wd ≠ -1 ∧ has ev.mask IN_IGNORED = false then
    match findWatch s.wlCache ev.wd with
    | none => ( reinitialize s, .buffer)
    | some evCacheSlot => handleEvent s evCacheSlot ev buf firstTry
  else handleEvent s s.wlCache.length ev buf firstTry

/-! ## The system -/

inductive Act where
  | mkdir (p name : Str)
  | rmdir (path : Str)
  | rename (p name p' name' : Str)
  /-- A call of `processNextInotifyEvent()` with `n` events in the buffer. -/
  | process (n : ℕ) (firstTry : Bool)
deriving Repr, DecidableEq

def State.onKernel (s : State) (kernel : Option Kernel) : Option State :=
  kernel.map fun kernel => { s with kernel := kernel }

/-- What `processInotifyEvents()` makes of the result of a call. -/
def advance : State × Consumed → Option State
  | (s, .events m) => some { s with kernel := { s.kernel with queue := s.kernel.queue.drop m } }
  | (s, .buffer) => some s
  | (s, .again) => some s
  | (_, .exit) => none

def process (s : State) (n : ℕ) (firstTry : Bool) : Option State :=
  match s.kernel.queue.take n with
  | [] => none
  | q :: buf =>
    if n ≤ s.kernel.queue.length ∧ (firstTry = true ∨ 2 ≤ n ∨ n = s.kernel.queue.length) then
      advance (processNextInotifyEvent s q.ev (buf.map Queued.ev) firstTry)
    else none

def step (argv : List Str) (s : State) : Act → Option State
  | .mkdir p name => s.onKernel (s.kernel.mkdir p name)
  | .rmdir path => s.onKernel (s.kernel.rmdir argv path)
  | .rename p name p' name' => s.onKernel (s.kernel.rename argv p name p' name')
  | .process n firstTry => process s n firstTry

/-- A tree of directories. -/
structure Tree (argv : List Str) (k : Kernel) : Prop where
  ino_inj : ∀ d ∈ k.dirs, ∀ d' ∈ k.dirs, d.ino = d'.ino → d = d'
  path_inj : ∀ d ∈ k.dirs, ∀ d' ∈ k.dirs, d.path = d'.path → d = d'
  ino_lt : ∀ d ∈ k.dirs, d.ino < k.nextIno
  /-- What is between two directories is a directory. -/
  between : ∀ d ∈ k.dirs, ∀ d' ∈ k.dirs, ∀ F, Under d.path F → Under F d'.path →
    ∃ d'' ∈ k.dirs, d''.path = F
  roots : ∀ r ∈ argv, ∃ d ∈ k.dirs, d.path = r

/-- `inotify_dtree argv...`, from its first `reinitialize()` on. -/
def inotifyDtree (argv : List Str) : System State Act where
  init s := (∀ r ∈ argv, r ≠ [] ∧ r.getLast? ≠ some '/') ∧ ∃ k, Tree argv k ∧ 0 < k.nextCookie ∧
    s = reinitialize { kernel := k, rootDirPaths := argv.map some, wlCache := [] }
  step := step argv

/-- The directory is in one of the monitored trees. -/
def Inside (argv : List Str) (P : Str) : Prop := ∃ r ∈ argv, Under r P

instance (argv : List Str) (P : Str) : Decidable (Inside argv P) :=
  inferInstanceAs (Decidable (∃ r ∈ argv, Under r P))

/-- **The cache is the tree**: the used slots hold the pathnames of the directories in the
monitored trees, each once, with the watch descriptor of the directory. -/
structure Tracks (argv : List Str) (s : State) : Prop where
  exists_watched : ∀ w ∈ s.wlCache, 0 ≤ w.wd → Inside argv w.path ∧ s.kernel.wdAt w.path = some w.wd
  cached : ∀ d ∈ s.kernel.dirs, Inside argv d.path → ∃ w ∈ s.wlCache, 0 ≤ w.wd ∧ w.path = d.path
  once : ∀ (i j : ℕ) (a b : Watch), s.wlCache[i]? = some a → s.wlCache[j]? = some b →
    0 ≤ a.wd → 0 ≤ b.wd → a.path = b.path → i = j

end Tlpi.InotifyDtree
