/-
`inotify/inotify_dtree.c`: the names of directories.

The cache is looked up by name, and names are made in three ways: a root is named as on the command
line, `nftw()` makes a name of where it began and of the entries it went through, and the handlers of
events make `path/name` of a cached pathname and an event's name. Each root is walked from as it is
named, but glibc's `nftw()` takes the slashes off its end (all but the first character), and puts one
slash between a directory and an entry unless the directory's name ends in one (`strip`, `pathFor`).

The runs are those of `Tlpi.DtreeWorld`, in which other processes do as they like, with what the
C library and the kernel say about names (`Glibc`, `EntryChange`). `lstat()` is given. The arguments
of the command `a` are walked from as the roots are; `added` are those that a run uses.
-/
import Mathlib.Data.List.DropRight
import Tlpi.DtreeSlots

set_option autoImplicit false

namespace Tlpi.DtreeNames

open Tlpi.Pathname Tlpi.Inotify Tlpi.Transition Tlpi.DtreeWorld
open Tlpi.InotifyDtree (Watch findWatch slotPath carried view view_of_mem)

/-! ## 1. The names that `nftw()` makes -/

/-- `while (cp > dirbuf + 1 && cp[-1] == '/') --cp;` -/
def strip : Str → Str
  | [] => []
  | c :: path => c :: path.rdropWhile (· == '/')

/-- `if (startp == dirbuf || startp[-1] != '/') *startp++ = '/';`, and then the name. -/
def pathFor (dir name : Str) : Str :=
  if dir.getLast? = some '/' then dir ++ name else child dir name

/-- What `nftw(start)` calls the directory that it gets to by way of the entries `names`. -/
def walkPath (start : Str) (names : List Str) : Str := names.foldl pathFor (strip start)

/-- The name of an entry that `nftw()` follows and that events are about. -/
def Entry (name : Str) : Prop := ValidName name ∧ name ≠ ['.'] ∧ name ≠ ['.', '.']

instance (name : Str) : Decidable (Entry name) :=
  inferInstanceAs (Decidable (ValidName name ∧ name ≠ ['.'] ∧ name ≠ ['.', '.']))

/-- The entries one below the other, each after a slash. -/
def slashed (names : List Str) : Str := names.flatMap ('/' :: ·)

theorem slashed_append (names names' : List Str) :
    slashed (names ++ names') = slashed names ++ slashed names' :=
  List.flatMap_append

theorem slashed_singleton (name : Str) : slashed [name] = '/' :: name := by
  rw [slashed, List.flatMap_singleton]

theorem boundary_slashed (names : List Str) : Boundary (slashed names) := by
  cases names with
  | nil => exact .nil
  | cons name names => exact .inr ⟨name ++ slashed names, rfl⟩

theorem strip_of_getLast? {path : Str} (h : path.getLast? ≠ some '/') : strip path = path := by
  cases path with
  | nil => rfl
  | cons c path =>
    rw [strip, List.rdropWhile_eq_self_iff.mpr]
    intro hne hslash
    refine h ?_
    rw [List.getLast?_cons, List.getLast?_eq_getLast_of_ne_nil hne, Option.getD_some,
      beq_iff_eq.mp hslash]

/-- The name that a walk begins with ends in a slash only if it is one. -/
theorem getLast?_strip {path : Str} (h : strip path ≠ ['/']) : (strip path).getLast? ≠ some '/' := by
  cases path with
  | nil => exact fun hnil => nomatch hnil
  | cons c path =>
    rw [strip] at h ⊢
    by_cases hnil : path.rdropWhile (· == '/') = []
    · rw [hnil] at h ⊢
      rw [List.getLast?_singleton]
      exact fun hc => h (by rw [Option.some.inj hc])
    · rw [List.getLast?_cons, List.getLast?_eq_getLast_of_ne_nil hnil, Option.getD_some]
      intro hc
      exact List.rdropWhile_last_not _ _ hnil (beq_iff_eq.mpr (Option.some.inj hc))

/-- A name that has an entry after it ends in no slash. -/
theorem getLast?_append_slashed {path : Str} (h : path.getLast? ≠ some '/') (names : List Str)
    (hnames : ∀ name ∈ names, Entry name) : (path ++ slashed names).getLast? ≠ some '/' := by
  cases names using List.reverseRecOn with
  | nil =>
    rw [slashed, List.flatMap_nil, List.append_nil]
    exact h
  | append_singleton names name =>
    obtain ⟨⟨hne, hslash⟩, -⟩ := hnames name (List.mem_append_right _ (List.mem_singleton_self _))
    rw [slashed_append, slashed_singleton, ← List.append_assoc, List.getLast?_append_of_ne_nil _ (by simp),
      List.getLast?_cons, List.getLast?_eq_getLast_of_ne_nil hne, Option.getD_some]
    exact fun hc => hslash (Option.some.inj hc ▸ List.getLast_mem hne)

/-- One slash before each entry. -/
theorem foldl_pathFor {path : Str} (h : path.getLast? ≠ some '/') (names : List Str)
    (hnames : ∀ name ∈ names, Entry name) : names.foldl pathFor path = path ++ slashed names := by
  induction names using List.reverseRecOn with
  | nil => rw [List.foldl_nil, slashed, List.flatMap_nil, List.append_nil]
  | append_singleton names name ih =>
    have hfirst : ∀ name ∈ names, Entry name := fun n hn => hnames n (List.mem_append_left _ hn)
    rw [List.foldl_append, ih hfirst, List.foldl_cons, List.foldl_nil, pathFor,
      if_neg (getLast?_append_slashed h names hfirst), child, slashed_append, slashed_singleton,
      List.append_assoc]

theorem walkPath_eq {start : Str} (h : strip start ≠ ['/']) {names : List Str}
    (hnames : ∀ name ∈ names, Entry name) : walkPath start names = strip start ++ slashed names :=
  foldl_pathFor (getLast?_strip h) names hnames

/-- What follows a name within a walk's name, at the end of an entry, is entries again. -/
theorem slashed_eq_append {t : Str} (ht : Boundary t) : ∀ {names : List Str} {u : Str},
    (∀ name ∈ names, Entry name) → slashed names = u ++ t → ∃ k, t = slashed (names.drop k) := by
  intro names
  induction names with
  | nil =>
    intro u _ h
    exact ⟨0, (List.append_eq_nil_iff.mp h.symm).2⟩
  | cons name names ih =>
    intro u hnames h
    cases u with
    | nil => exact ⟨0, h.symm⟩
    | cons c u =>
      have hname := (hnames name List.mem_cons_self).1.2
      have h : name ++ slashed names = u ++ t := (List.cons.inj h).2
      rcases List.append_eq_append_iff.mp h with ⟨v, rfl, hv⟩ | ⟨v, hv, hvt⟩
      · obtain ⟨k, hk⟩ := ih (fun n hn => hnames n (List.mem_cons_of_mem _ hn)) hv
        exact ⟨k + 1, hk⟩
      · -- `t` begins within the entry, so it begins at its end
        cases v with
        | nil => exact ⟨1, hvt⟩
        | cons d v =>
          rcases ht with rfl | ⟨t, rfl⟩
          · exact nomatch hvt
          · rw [List.cons_append, List.cons.injEq] at hvt
            rw [hv, ← hvt.1] at hname
            exact absurd (List.mem_append_right u List.mem_cons_self) hname

/-! ## 2. The roots -/

/-- What is looked at of a `struct stat`. -/
structure Stat where
  stIno : ℕ
  stDev : ℕ
  isDir : Bool
deriving Repr, DecidableEq

/-- The second loop of `copyRootDirPaths()`; `rootDirStat` is of the arguments before. -/
def copyRootDirs (lstat : Str → Option Stat) : List Stat → List Str → Option (List (Option Str))
  | _, [] => some []
  | rootDirStat, path :: argv =>
    match lstat path with
    | none => none
    | some sb =>
      if rootDirStat.any fun k => sb.stIno == k.stIno && sb.stDev == k.stDev then none
      else (copyRootDirs lstat (rootDirStat ++ [sb]) argv).map (some path :: ·)

/-- `rootDirPaths`; `none` is the end of the program. -/
def copyRootDirPaths (lstat : Str → Option Stat) (argv : List Str) : Option (List (Option Str)) :=
  if argv.all fun path => (lstat path).any Stat.isDir then copyRootDirs lstat [] argv else none

/-- The roots are kept as they were given. -/
theorem copyRootDirs_eq {lstat : Str → Option Stat} (argv : List Str) : ∀ {rootDirStat : List Stat}
    {rootDirPaths : List (Option Str)}, copyRootDirs lstat rootDirStat argv = some rootDirPaths →
      rootDirPaths = argv.map some := by
  induction argv with
  | nil => exact fun h => (Option.some.inj h).symm
  | cons path argv ih =>
    intro rootDirStat rootDirPaths h
    rw [copyRootDirs] at h
    split at h
    · exact nomatch h
    · obtain ⟨-, h⟩ := Option.ite_none_left_eq_some.mp h
      obtain ⟨rest, hrest, rfl⟩ := Option.map_eq_some_iff.mp h
      rw [ih hrest, List.map_cons]

theorem copyRootDirPaths_eq {lstat : Str → Option Stat} {argv : List Str}
    {rootDirPaths : List (Option Str)} (h : copyRootDirPaths lstat argv = some rootDirPaths) :
    rootDirPaths = argv.map some :=
  copyRootDirs_eq argv (Option.ite_none_right_eq_some.mp h).2

/-! ## 3. Runs -/

/-- The event has a name. -/
def isNamed (ev : Event) : Bool := has ev.mask (IN_CREATE ||| IN_MOVED_FROM ||| IN_MOVED_TO)

/-- What the kernel promises of an event that has a name. -/
def EntryEvent (ev : Event) : Prop :=
  isNamed ev = true → Entry ev.name ∧ 0 ≤ ev.wd ∧ has ev.mask IN_IGNORED = false

def EntryChange : Change → Prop
  | .notify ev => EntryEvent ev
  | _ => True

/-- **The walks are those of glibc**, and events are named by entries. -/
structure Glibc (w : World) : Prop where
  nftw : ∀ path, ∀ v ∈ w.nftw path,
    ∃ names, (∀ name ∈ names, Entry name) ∧ v.pathname = walkPath path names
  changes : ∀ path, ∀ v ∈ w.nftw path, ∀ c ∈ v.changes, EntryChange c
  rmWatch : ∀ wd, ∀ c ∈ (w.rmWatch wd).1, EntryChange c

/-- The roots that are still monitored. -/
abbrev roots (s : State) : List Str := s.rootDirPaths.filterMap id

/-- The directory of a root is come upon under the names of roots only. -/
def OwnNames (roots : List Str) (w : World) : Prop :=
  ∀ root ∈ roots, ∀ v ∈ w.nftw root, v.pathname = strip root → ∀ ino, v.ino = some ino →
    ∀ root' ∈ roots, ∀ v' ∈ w.nftw root', v'.ino = some ino → v'.pathname ∈ roots

/-- The step goes by the promises, and the command `a` is given one of the arguments `added`. -/
def ActConforms (added : List Str) : Act → Prop
  | .change c => EntryChange c
  | .read _ => True
  | .process w _ => Glibc w
  | .add w arg => Glibc w ∧ arg ∈ added
  | .zap w _ => Glibc w
  | .rebuild w => Glibc w

/-- `inotify_dtree` from its command line on. -/
def inotifyDtree (lstat : Str → Option Stat) (argv : List Str) (num : Numbering) :
    System Run Act where
  init r := ∃ rootDirPaths w, copyRootDirPaths lstat argv = some rootDirPaths ∧ Glibc w ∧
    r = ⟨ reinitialize num w ⟨{}, rootDirPaths, []⟩, []⟩
  step := step num

/-- **A directory has one name.** -/
structure OneName (argv added : List Str) (num : Numbering) (r : Run) : Prop where
  /-- The pathname with which `nftw()` calls `traverseTree()` for a root is that of a root, -/
  root : ∀ root ∈ roots r.state, isRootDirPath r.state (strip root) = true
  /-- and so is the one under which the root is in the cache when the roots have been watched. -/
  cached : ∀ w, Glibc w → OwnNames (roots r.state) w → ∀ root ∈ roots r.state,
    ∀ v ∈ w.nftw root, v.pathname = strip root → ∀ ino, v.ino = some ino →
      ∀ a ∈ ( reinitialize num w r.state).wlCache,
        (ino, a.wd) ∈ ( reinitialize num w r.state).inotify.watches →
          isRootDirPath r.state a.path = true
  /-- What a handler makes of a cached pathname and a name is what a walk makes of them. -/
  entry : ∀ a ∈ r.state.wlCache, 0 ≤ a.wd → ∀ name, Entry name →
    ∃ start ∈ argv ++ added, ∃ names, (∀ n ∈ names, Entry n) ∧ a.path = walkPath start names ∧
      child a.path name = walkPath start (names ++ [name])

/-- How the roots, and the arguments of the command `a`, have to be spelled. -/
structure Spelled (argv added : List Str) : Prop where
  root : ∀ root ∈ argv, root.getLast? ≠ some '/'
  arg : ∀ arg ∈ added, strip arg ≠ ['/']
  /-- What lies below a name that a walk makes is spelled as the walk does. -/
  nested : ∀ start ∈ argv ++ added, ∀ start' ∈ argv ++ added, ∀ names, names ≠ [] →
    (∀ name ∈ names, Entry name) → Under (walkPath start names) (strip start') →
      ∃ names', (∀ name ∈ names', Entry name) ∧ strip start' = walkPath start names'

/-! ## 4. Walked names -/

section Walked

variable {argv added : List Str}

/-- A name that is made by a walk from one of the starts. -/
def Walked (starts : List Str) (path : Str) : Prop :=
  ∃ start ∈ starts, ∃ names, (∀ name ∈ names, Entry name) ∧ path = walkPath start names

theorem Spelled.strip_ne (h : Spelled argv added) {start : Str} (hstart : start ∈ argv ++ added) :
    strip start ≠ ['/'] := by
  rcases List.mem_append.mp hstart with hroot | harg
  · have hlast := h.root start hroot
    rw [strip_of_getLast? hlast]
    rintro rfl
    exact hlast rfl
  · exact h.arg start harg

theorem mem_append_singleton {names : List Str} (hnames : ∀ n ∈ names, Entry n) {name : Str}
    (hname : Entry name) : ∀ n ∈ names ++ [name], Entry n := by
  intro n hn
  rcases List.mem_append.mp hn with hn | hn
  · exact hnames n hn
  · rw [List.mem_singleton.mp hn]
    exact hname

/-- **The two routes**: an entry of a walked name is called alike on both. -/
theorem child_walkPath {start : Str} (h : strip start ≠ ['/']) {names : List Str}
    (hnames : ∀ n ∈ names, Entry n) {name : Str} (hname : Entry name) :
    child (walkPath start names) name = walkPath start (names ++ [name]) := by
  rw [walkPath_eq h hnames, walkPath_eq h (mem_append_singleton hnames hname), slashed_append,
    slashed_singleton, child, List.append_assoc]

/-- A walk from a walked name goes on with it. -/
theorem walkPath_walkPath {start : Str} (h : strip start ≠ ['/']) {names : List Str}
    (hnames : ∀ n ∈ names, Entry n) (names' : List Str) :
    walkPath (walkPath start names) names' = walkPath start (names ++ names') := by
  have hlast : (walkPath start names).getLast? ≠ some '/' := by
    rw [walkPath_eq h hnames]
    exact getLast?_append_slashed (getLast?_strip h) names hnames
  rw [walkPath, strip_of_getLast? hlast, walkPath, walkPath, List.foldl_append]

theorem Walked.child (hs : Spelled argv added) {path name : Str} (h : Walked (argv ++ added) path)
    (hname : Entry name) : Walked (argv ++ added) (child path name) := by
  obtain ⟨start, hstart, names, hnames, rfl⟩ := h
  exact ⟨start, hstart, names ++ [name], mem_append_singleton hnames hname,
    child_walkPath (hs.strip_ne hstart) hnames hname⟩

theorem Walked.walkPath (hs : Spelled argv added) {path : Str} (h : Walked (argv ++ added) path)
    {names : List Str} (hnames : ∀ n ∈ names, Entry n) :
    Walked (argv ++ added) (walkPath path names) := by
  obtain ⟨start, hstart, names', hnames', rfl⟩ := h
  refine ⟨start, hstart, names' ++ names, ?_, walkPath_walkPath (hs.strip_ne hstart) hnames' names⟩
  intro n hn
  rcases List.mem_append.mp hn with hn | hn
  · exact hnames' n hn
  · exact hnames n hn

/-- What follows an entry's name within a walked name is entries: either the entry is in the walk, or
the walk began below it. -/
theorem Walked.slashed_of_under (hs : Spelled argv added) {p name path : Str}
    (hp : Walked (argv ++ added) p) (hname : Entry name) (hpath : Walked (argv ++ added) path)
    (hunder : Under (Pathname.child p name) path) : ∃ names, (∀ n ∈ names, Entry n) ∧
      path = Pathname.child p name ++ slashed names := by
  obtain ⟨start, hstart, names, hnames, rfl⟩ := hp
  obtain ⟨start', hstart', names', hnames', rfl⟩ := hpath
  have hne := hs.strip_ne hstart
  have hnew := mem_append_singleton hnames hname
  rw [child_walkPath hne hnames hname] at hunder ⊢
  have hbelow : Under (strip start') (DtreeNames.walkPath start' names') := by
    rw [walkPath_eq (hs.strip_ne hstart') hnames']
    exact ⟨slashed names', rfl, boundary_slashed names'⟩
  -- wherever the entries begin, `rest` is what is left of them
  have hsplit : ∀ {all : List Str} {u rest : Str}, (∀ n ∈ all, Entry n) → Boundary rest →
      slashed all = u ++ rest → ∃ ns, (∀ n ∈ ns, Entry n) ∧ rest = slashed ns := by
    intro all u rest hall hrest heq
    obtain ⟨k, hk⟩ := slashed_eq_append hrest hall heq
    exact ⟨all.drop k, fun n hn => hall n (List.mem_of_mem_drop hn), hk⟩
  obtain ⟨rest, hrest, hboundary⟩ := hunder
  rcases Under.total ⟨rest, hrest, hboundary⟩ hbelow with hin | hin
  · obtain ⟨below, hentries, heq⟩ := hs.nested start hstart start' hstart' _ (by simp) hnew hin
    have hwalk : slashed (below ++ names') = slashed (names ++ [name]) ++ rest := by
      rw [walkPath_eq (hs.strip_ne hstart') hnames', heq, walkPath_eq hne hentries,
        walkPath_eq hne hnew, List.append_assoc, List.append_assoc] at hrest
      rw [slashed_append]
      exact List.append_cancel_left hrest
    obtain ⟨ns, hns, rfl⟩ := hsplit (fun n hn => (List.mem_append.mp hn).elim (hentries n) (hnames' n))
      hboundary hwalk
    exact ⟨ns, hns, hrest⟩
  · obtain ⟨u, hu, -⟩ := hin
    have hwalk : slashed names' = u ++ rest := by
      rw [hu, walkPath_eq (hs.strip_ne hstart') hnames', List.append_assoc] at hrest
      exact List.append_cancel_left hrest
    obtain ⟨ns, hns, rfl⟩ := hsplit hnames' hboundary hwalk
    exact ⟨ns, hns, hrest⟩

/-- What a rename makes of a walked name is a walked name. -/
theorem Walked.carried (hs : Spelled argv added) {p name p' name' path : Str}
    (hp : Walked (argv ++ added) p) (hname : Entry name) (hp' : Walked (argv ++ added) p')
    (hname' : Entry name') (h : Walked (argv ++ added) path) :
    Walked (argv ++ added) (carried (Pathname.child p name) (Pathname.child p' name') path) := by
  by_cases hunder : Under (Pathname.child p name) path
  · obtain ⟨names, hnames, rfl⟩ := hp.slashed_of_under hs hname h hunder
    obtain ⟨start, hstart, upto, hupto, heq⟩ := hp'.child hs hname'
    rw [InotifyDtree.carried_of_under _ hunder, rebase_append, heq, walkPath_eq (hs.strip_ne hstart) hupto,
      List.append_assoc, ← slashed_append]
    have hall : ∀ n ∈ upto ++ names, Entry n := fun n hn =>
      (List.mem_append.mp hn).elim (hupto n) (hnames n)
    exact ⟨start, hstart, upto ++ names, hall, (walkPath_eq (hs.strip_ne hstart) hall).symm⟩
  · rw [InotifyDtree.carried_of_not_under _ hunder]
    exact h

end Walked

/-! ## 5. The cache holds walked names -/

section Run

variable {argv added : List Str} {num : Numbering} {w : World} {s : State} {buf : List Event}

structure Named (argv added : List Str) (s : State) (buf : List Event) : Prop where
  roots : ∀ root ∈ roots s, root ∈ argv
  cached : ∀ a ∈ s.wlCache, 0 ≤ a.wd → Walked (argv ++ added) a.path
  events : ∀ ev, ev ∈ buf ∨ ev ∈ s.inotify.queue → EntryEvent ev

/-- The kernel's own events have no names. -/
theorem entryEvent_of_mask (wd : ℤ) {mask : BitVec 32}
    (h : mask ∈ IN_IGNORED :: IN_Q_OVERFLOW :: selfMasks) : EntryEvent ⟨wd, mask, 0, []⟩ := by
  have hmask : has mask (IN_CREATE ||| IN_MOVED_FROM ||| IN_MOVED_TO) = false := by
    simp only [selfMasks, List.mem_cons, List.not_mem_nil, or_false] at h
    rcases h with rfl | rfl | rfl | rfl | rfl | rfl <;> decide
  exact fun hnamed => Bool.noConfusion (hmask.symm.trans hnamed)

theorem entryEvent_change {k : Instance} (h : ∀ ev ∈ k.queue, EntryEvent ev) {c : Change}
    (hc : EntryChange c) : ∀ ev ∈ (k.change c).queue, EntryEvent ev := by
  intro ev hev
  rcases k.change_cases c with ⟨queue, heq, hqueue⟩ | ⟨wd, mask, -, hmask, heq⟩
  · rw [heq] at hev
    rcases hqueue ev hev with hev | ⟨rfl, -⟩ | rfl
    · exact h ev hev
    · exact hc
    · exact entryEvent_of_mask (-1) (List.mem_cons_of_mem _ List.mem_cons_self)
  · rw [heq] at hev
    rcases List.mem_append.mp hev with hev | hev
    · exact h ev hev
    · rcases List.mem_pair.mp hev with rfl | rfl
      · exact entryEvent_of_mask wd (List.mem_cons_of_mem _ (List.mem_cons_of_mem _ hmask))
      · exact entryEvent_of_mask wd List.mem_cons_self

theorem Named.setInotify (h : Named argv added s buf) {k : Instance}
    (hk : ∀ ev ∈ k.queue, EntryEvent ev) : Named argv added { s with inotify := k } buf :=
  ⟨h.roots, h.cached, fun ev hev => hev.elim (fun hev => h.events ev (.inl hev)) (hk ev)⟩

theorem Named.setCache (h : Named argv added s buf) {wlCache : List Watch}
    (hcache : ∀ a ∈ wlCache, 0 ≤ a.wd → Walked (argv ++ added) a.path) :
    Named argv added { s with wlCache := wlCache } buf :=
  ⟨h.roots, hcache, h.events⟩

theorem Named.changes (h : Named argv added s buf) (cs : List Change)
    (hcs : ∀ c ∈ cs, EntryChange c) : Named argv added (s.changes cs) buf := by
  induction cs generalizing s with
  | nil => exact h
  | cons c cs ih =>
    refine ih (h.setInotify ?_) fun c' hc' => hcs c' (List.mem_cons_of_mem _ hc')
    exact entryEvent_change (fun ev hev => h.events ev (.inr hev)) (hcs c List.mem_cons_self)

theorem queue_inotifyAddWatch (k : Instance) (ino : ℕ) :
    (k.inotifyAddWatch num ino).1.queue = k.queue := by
  rw [Instance.inotifyAddWatch]
  split <;> rfl

theorem Named.traverseTree (h : Named argv added s buf) {v : Visit}
    (hpath : Walked (argv ++ added) v.pathname) (hcs : ∀ c ∈ v.changes, EntryChange c) :
    Named argv added (traverseTree num s v) buf := by
  have h := h.changes v.changes hcs
  rw [DtreeWorld.traverseTree]
  split
  · split
    · exact h
    · rename_i ino _
      have hqueue : ∀ ev ∈ ((s.changes v.changes).inotify.inotifyAddWatch num ino).1.queue,
          EntryEvent ev := by
        rw [queue_inotifyAddWatch]
        exact fun ev hev => h.events ev (.inr hev)
      simp only
      split
      · exact h.setInotify hqueue
      · refine (h.setInotify hqueue).setCache ?_
        intro a ha hused
        rcases mem_addWatchToCache ha with rfl | ha | rfl
        · exact hpath
        · exact h.cached a ha hused
        · exact absurd hused (by decide)
  · exact h

/-- A walk from a walked name, or from where walks may begin. -/
theorem Named.watchSubtree (h : Named argv added s buf) (hw : Glibc w) {path : Str}
    (hpath : ∀ names, (∀ n ∈ names, Entry n) → Walked (argv ++ added) (walkPath path names)) :
    Named argv added (watchSubtree num w s path) buf := by
  have hvisits : ∀ v ∈ w.nftw path,
      Walked (argv ++ added) v.pathname ∧ ∀ c ∈ v.changes, EntryChange c := by
    intro v hv
    obtain ⟨names, hnames, heq⟩ := hw.nftw path v hv
    exact ⟨heq ▸ hpath names hnames, hw.changes path v hv⟩
  exact List.foldlRecOn (motive := fun s => Named argv added s buf) _ _ h fun _ hs v hv =>
    hs.traverseTree (hvisits v hv).1 (hvisits v hv).2

theorem walked_start {start : Str} (hstart : start ∈ argv ++ added) (names : List Str)
    (hnames : ∀ n ∈ names, Entry n) : Walked (argv ++ added) (walkPath start names) :=
  ⟨start, hstart, names, hnames, rfl⟩

theorem Named.markCacheSlotEmpty (h : Named argv added s buf) (slot : ℕ) :
    Named argv added { s with wlCache := InotifyDtree.markCacheSlotEmpty s.wlCache slot } buf := by
  refine h.setCache fun a ha hused => ?_
  rcases mem_markCacheSlotEmpty ha with ha | rfl
  · exact h.cached a ha hused
  · exact absurd hused (by decide)

theorem Named.zapSlots (hw : Glibc w) (pn : Str) (js : List ℕ) : ∀ {s : State},
    Named argv added s buf → Named argv added (zapSlots w pn js s).1 buf := by
  induction js with
  | nil => exact fun h => h
  | cons j js ih =>
    intro s h
    rw [DtreeWorld.zapSlots]
    cases s.wlCache[j]? with
    | none => exact h
    | some a =>
      simp only
      split
      · have h := h.changes (w.rmWatch a.wd).1 (hw.rmWatch a.wd)
        split
        · exact h
        · rename_i k hrm
          obtain ⟨-, hrm⟩ := Option.ite_none_left_eq_some.mp hrm
          obtain ⟨-, hrm⟩ := Option.ite_none_right_eq_some.mp hrm
          -- `inotify_rm_watch()` queues an `IN_IGNORED`, which names nothing
          have hqueue : ∀ ev ∈ k.queue, EntryEvent ev := by
            rw [← Option.some.inj hrm]
            intro ev hev
            rcases List.mem_append.mp hev with hev | hev
            · exact h.events ev (.inr hev)
            · rw [List.mem_singleton.mp hev]
              exact entryEvent_of_mask a.wd List.mem_cons_self
          exact ih ((h.setInotify hqueue).markCacheSlotEmpty j)
      · exact ih h

theorem Named.zapSubtree (h : Named argv added s buf) (hw : Glibc w) (path : Str) :
    Named argv added (zapSubtree w s path).1 buf :=
  h.zapSlots hw path _

theorem Named.watchRoots (h : Named argv added s buf) (hw : Glibc w) (rs : List Str)
    (hrs : ∀ root ∈ rs, root ∈ argv) :
    Named argv added (rs.foldl (DtreeWorld.watchSubtree num w) s) buf :=
  List.foldlRecOn (motive := fun s => Named argv added s buf) _ _ h fun _ hs root hroot =>
    hs.watchSubtree hw (walked_start (List.mem_append_left added (hrs root hroot)))

/-- `reinitialize()` walks from the roots, whatever there was. -/
theorem Named.reinitialize (h : Named argv added s buf) (hw : Glibc w) :
    Named argv added ( reinitialize num w s) buf := by
  have hempty : Named argv added { s with inotify := {}, wlCache := [] } buf :=
    ⟨h.roots, fun _ ha => (nomatch ha),
      fun ev hev => h.events ev (hev.imp_right fun hev => (nomatch hev))⟩
  exact hempty.watchRoots hw _ h.roots

theorem Named.movedOut (h : Named argv added s buf) (hw : Glibc w) (path : Str) :
    Named argv added (movedOut num w s path).1 buf := by
  have hzap := h.zapSubtree hw path
  rw [DtreeWorld.movedOut]
  split
  · rename_i heq
    rw [heq] at hzap
    exact hzap
  · rename_i heq
    rw [heq] at hzap
    exact hzap.reinitialize hw

/-- A root is taken out of the list, or none is. -/
theorem Named.zapRootDirPath (h : Named argv added s buf) {path : Str} {s' : State}
    (hs' : zapRootDirPath s path = some s') : Named argv added s' buf := by
  obtain ⟨-, hs'⟩ := Option.ite_none_left_eq_some.mp hs'
  rw [← Option.some.inj hs']
  refine ⟨fun root hroot => h.roots root ?_, h.cached, h.events⟩
  obtain ⟨p, hp, hsome⟩ := List.mem_filterMap.mp hroot
  refine List.mem_filterMap.mpr ⟨p, ?_, hsome⟩
  split at hp
  · rcases List.mem_or_eq_of_mem_set hp with hp | rfl
    · exact hp
    · exact nomatch hsome
  · exact hp

theorem Named.deleted (h : Named argv added s buf) (slot : ℕ) (path : Str) :
    Named argv added (deleted s slot path).1 buf := by
  rw [DtreeWorld.deleted]
  split
  · exact h
  · rename_i s' hs'
    split at hs'
    · exact (h.zapRootDirPath hs').markCacheSlotEmpty slot
    · rw [← Option.some.inj hs']
      exact h.markCacheSlotEmpty slot

theorem Named.rootMoved (h : Named argv added s buf) (hw : Glibc w) (path : Str) :
    Named argv added (rootMoved num w s path).1 buf := by
  rw [DtreeWorld.rootMoved]
  split
  · exact h
  · rename_i s' hs'
    exact (h.zapRootDirPath hs').movedOut hw path

theorem Named.rewriteCachedPaths (h : Named argv added s buf) (hs : Spelled argv added)
    {p name p' name' : Str} (hp : Walked (argv ++ added) p) (hname : Entry name)
    (hp' : Walked (argv ++ added) p') (hname' : Entry name') : Named argv added
      { s with wlCache := InotifyDtree.rewriteCachedPaths s.wlCache p name p' name' } buf := by
  refine h.setCache fun a ha hused => ?_
  rw [InotifyDtree.rewriteCachedPaths_eq, List.mem_map] at ha
  obtain ⟨a₀, ha₀, rfl⟩ := ha
  exact Walked.carried hs hp hname hp' hname' (h.cached a₀ ha₀ hused)

/-- A watch descriptor is found in a used slot. -/
theorem Named.slotPath (h : Named argv added s buf) {wd : ℤ} (hwd : 0 ≤ wd) {slot : ℕ}
    (hslot : findWatch s.wlCache wd = some slot) :
    Walked (argv ++ added) (slotPath s.wlCache slot) := by
  obtain ⟨hlt, heq, -⟩ := List.findIdx?_eq_some_iff_getElem.mp hslot
  rw [InotifyDtree.slotPath, List.getElem?_eq_getElem hlt]
  refine h.cached _ (List.getElem_mem hlt) ?_
  rw [of_decide_eq_true heq]
  exact hwd

theorem isNamed_of_from {ev : Event}
    (h : ev.mask &&& (IN_MOVED_FROM ||| IN_ISDIR) = IN_MOVED_FROM ||| IN_ISDIR) :
    isNamed ev = true := by
  have hand : ev.mask &&& IN_MOVED_FROM = IN_MOVED_FROM :=
    calc ev.mask &&& IN_MOVED_FROM
        = ev.mask &&& ((IN_MOVED_FROM ||| IN_ISDIR) &&& IN_MOVED_FROM) := by
          rw [show (IN_MOVED_FROM ||| IN_ISDIR) &&& IN_MOVED_FROM = IN_MOVED_FROM by decide]
      _ = (IN_MOVED_FROM ||| IN_ISDIR) &&& IN_MOVED_FROM := by rw [← BitVec.and_assoc, h]
      _ = IN_MOVED_FROM := by decide
  have hfrom : has ev.mask IN_MOVED_FROM = true := by
    rw [has, hand]
    decide
  rw [isNamed, has_or, has_or, hfrom, Bool.or_true, Bool.true_or]

theorem isNamed_of_made {ev : Event} (h : has ev.mask (IN_CREATE ||| IN_MOVED_TO) = true) :
    isNamed ev = true := by
  rw [has_or, Bool.or_eq_true] at h
  rw [isNamed, has_or, has_or]
  rcases h with h | h
  · rw [h, Bool.true_or, Bool.true_or]
  · rw [h, Bool.or_true]

theorem Named.movedFrom (h : Named argv added s buf) (hs : Spelled argv added) (hw : Glibc w)
    {path : Str} (hpath : Walked (argv ++ added) path) {ev : Event} (hname : Entry ev.name)
    {nextEv : Option Event} (hnext : ∀ ev' ∈ nextEv, EntryEvent ev') (firstTry : Bool) :
    Named argv added (movedFrom num w s path ev nextEv firstTry).1 buf := by
  cases nextEv with
  | none =>
    rw [DtreeWorld.movedFrom]
    split
    · exact h
    · exact h.movedOut hw _
  | some nextEv =>
    rw [DtreeWorld.movedFrom]
    split
    · rename_i hto
      rw [Bool.and_eq_true] at hto
      split
      · exact h.reinitialize hw
      · rename_i slot hslot
        have hnamed : isNamed nextEv = true :=
          isNamed_of_made (by rw [has_or, hto.1, Bool.or_true])
        obtain ⟨hname', hwd, -⟩ := hnext nextEv rfl hnamed
        exact h.rewriteCachedPaths hs hpath hname (h.slotPath hwd hslot) hname'
    · exact h.movedOut hw _

/-- The part after the look-up; an event with a name was looked up. -/
theorem Named.handleEvent (h : Named argv added s buf) (hs : Spelled argv added) (hw : Glibc w)
    {ev : Event} (hev : EntryEvent ev) {slot : ℕ}
    (hslot : isNamed ev = true → findWatch s.wlCache ev.wd = some slot) {nextEv : Option Event}
    (hnext : ∀ ev' ∈ nextEv, EntryEvent ev') (firstTry : Bool) :
    Named argv added (handleEvent num w s slot ev nextEv firstTry).1 buf := by
  rw [DtreeWorld.handleEvent]
  split
  · rename_i hmade
    rw [Bool.and_eq_true] at hmade
    have hnamed := isNamed_of_made hmade.2
    obtain ⟨hname, hwd, -⟩ := hev hnamed
    have hpath := (h.slotPath hwd (hslot hnamed)).child hs hname
    split
    · exact h
    · exact h.watchSubtree hw fun names hnames => hpath.walkPath hs hnames
  · split
    · exact h.deleted slot _
    · split
      · rename_i hfrom
        have hnamed := isNamed_of_from hfrom
        obtain ⟨hname, hwd, -⟩ := hev hnamed
        exact h.movedFrom hs hw (h.slotPath hwd (hslot hnamed)) hname hnext firstTry
      · split
        · exact h.reinitialize hw
        · split
          · exact h.markCacheSlotEmpty slot
          · split
            · exact h.rootMoved hw _
            · exact h

theorem Named.processNextInotifyEvent (h : Named argv added s buf) (hs : Spelled argv added)
    (hw : Glibc w) {ev : Event} (hev : EntryEvent ev) {nextEv : Option Event}
    (hnext : ∀ ev' ∈ nextEv, EntryEvent ev') (firstTry : Bool) :
    Named argv added (processNextInotifyEvent num w s ev nextEv firstTry).1 buf := by
  rw [DtreeWorld.processNextInotifyEvent]
  split
  · split
    · exact h.reinitialize hw
    · rename_i slot hslot
      exact h.handleEvent hs hw hev (fun _ => hslot) hnext firstTry
  · rename_i hnot
    refine h.handleEvent hs hw hev (fun hnamed => ?_) hnext firstTry
    obtain ⟨-, hwd, hignored⟩ := hev hnamed
    exact absurd ⟨by omega, hignored⟩ hnot

/-- Less of the buffer is left, and what was handled is. -/
theorem Named.handled (h : Named argv added s buf) (evs : List Event) {buf' : List Event}
    (hsub : ∀ ev ∈ buf', ev ∈ buf) : Named argv added (s.handled evs) buf' :=
  ⟨h.roots, h.cached, fun ev hev => h.events ev (hev.imp_left (hsub ev))⟩

theorem named_step {r r' : Run} {a : Act} (hs : Spelled argv added)
    (h : Named argv added r.state r.buf) (ha : ActConforms added a)
    (hstep : step num r a = some r') : Named argv added r'.state r'.buf := by
  cases a with
  | change c =>
    rw [← Option.some.inj hstep]
    exact h.changes [c] fun c' hc' => List.mem_singleton.mp hc' ▸ ha
  | read n =>
    rw [← Option.some.inj hstep]
    refine ⟨h.roots, h.cached, fun ev hev => h.events ev ?_⟩
    rcases hev with hev | hev
    · exact (List.mem_append.mp hev).imp_right List.mem_of_mem_take
    · exact .inr (List.mem_of_mem_drop hev)
  | process w firstTry =>
    rw [step] at hstep
    split at hstep
    · cases hstep
    · rename_i ev buf hbuf
      -- the event, and the one after it, which a rename looks at
      have hevents : ∀ ev' ∈ ev :: buf, EntryEvent ev' := fun ev' hev' =>
        h.events ev' (.inl (hbuf ▸ hev'))
      have hnext : ∀ ev' ∈ buf.head?, EntryEvent ev' := fun ev' hev' =>
        hevents ev' (List.mem_cons_of_mem _ (List.mem_of_mem_head? hev'))
      have hafter := @Named.processNextInotifyEvent _ _ num _ _ _ h hs ha _
        (hevents ev List.mem_cons_self) _ hnext firstTry
      revert hstep hafter
      generalize DtreeWorld.processNextInotifyEvent num w r.state ev buf.head? firstTry = res
      obtain ⟨s', c⟩ := res
      intro hstep hafter
      cases c with
      | events n =>
        rw [← Option.some.inj hstep]
        exact hafter.handled _ fun _ => List.mem_of_mem_drop
      | buffer =>
        rw [← Option.some.inj hstep]
        -- a new descriptor: what is left of the buffer is thrown away
        refine ⟨hafter.roots, hafter.cached, fun ev hev => hafter.events ev ?_⟩
        exact hev.imp_left fun hev => absurd hev List.not_mem_nil
      | again =>
        rw [← Option.some.inj hstep]
        exact hafter
      | exit => cases hstep
  | add w arg =>
    rw [step] at hstep
    obtain ⟨-, rfl⟩ := command_eq hstep
    exact (h.zapSubtree ha.1 arg).watchSubtree ha.1 (walked_start (List.mem_append_right argv ha.2))
  | zap w arg =>
    rw [step] at hstep
    obtain ⟨-, rfl⟩ := command_eq hstep
    exact h.zapSubtree ha arg
  | rebuild w =>
    rw [step] at hstep
    obtain ⟨-, rfl⟩ := command_eq hstep
    exact h.reinitialize ha

/-! ## 6. The names of the roots in the cache -/

/-- The slot of a watched inode has the name under which a walk came upon the inode. -/
structure Visited (visits : List Visit) (s : State) : Prop where
  inv : Inv s []
  named : ∀ a ∈ s.wlCache, ∀ ino, (ino, a.wd) ∈ s.inotify.watches →
    ∃ v ∈ visits, v.ino = some ino ∧ v.pathname = a.path

theorem active_of_mem {k : Instance} {ino : ℕ} {wd : ℤ} (h : (ino, wd) ∈ k.watches) :
    k.active wd = true :=
  List.any_eq_true.mpr ⟨(ino, wd), h, decide_eq_true rfl⟩

theorem Visited.traverseTree {visits : List Visit} (h : Visited visits s) {v : Visit}
    (hv : v ∈ visits) : Visited visits (traverseTree num s v) := by
  refine ⟨h.inv.traverseTree v, ?_⟩
  have hold : ∀ a ∈ s.wlCache, ∀ ino, (ino, a.wd) ∈ (s.changes v.changes).inotify.watches →
      ∃ v ∈ visits, v.ino = some ino ∧ v.pathname = a.path :=
    fun a ha ino hino => h.named a ha ino (mem_watches_changes _ hino)
  have hinv := h.inv.changes v.changes
  rcases @Inv.traverseTree_cases num _ _ h.inv v with heq | ⟨ino, hino, heq⟩
  · rw [heq]
    exact hold
  · rw [heq]
    have hfresh := num.fresh (s.changes v.changes).inotify.issued
    have hnonneg := num.nonneg (s.changes v.changes).inotify.issued
    intro a ha ino' hwatch
    rcases List.mem_cons.mp hwatch with hnew | hwatch
    · -- the number of the new watch was given to no slot before
      obtain ⟨rfl, hwd⟩ := Prod.mk.inj hnew
      rcases mem_addWatchToCache ha with rfl | ha | rfl
      · exact ⟨v, hv, hino, rfl⟩
      · have hused : (view (s.changes v.changes).wlCache a.wd).isSome := by
          rw [view_of_mem hinv.distinct ha (hwd ▸ hnonneg)]
          rfl
        exact absurd (hinv.issued a.wd ((hinv.cached a.wd).mp hused)) (hwd ▸ hfresh)
      · have hwd : (-1 : ℤ) = num.next (s.changes v.changes).inotify.issued := hwd
        omega
    · have hactive := active_of_mem hwatch
      rcases mem_addWatchToCache ha with rfl | ha | rfl
      · exact absurd (hinv.issued _ (.inl hactive)) hfresh
      · exact hold a ha ino' hwatch
      · exact absurd (hinv.nonneg (.inl hactive)) (by decide)

theorem Visited.watchSubtree {visits : List Visit} (h : Visited visits s) (path : Str)
    (hvisits : ∀ v ∈ w.nftw path, v ∈ visits) :
    Visited visits (watchSubtree num w s path) :=
  List.foldlRecOn (motive := Visited visits) _ _ h fun _ hs v hv => hs.traverseTree (hvisits v hv)

theorem Visited.watchRoots {visits : List Visit} (h : Visited visits s) (rs : List Str)
    (hrs : ∀ root ∈ rs, ∀ v ∈ w.nftw root, v ∈ visits) :
    Visited visits (rs.foldl (DtreeWorld.watchSubtree num w) s) :=
  List.foldlRecOn (motive := Visited visits) _ _ h fun _ hs root hroot =>
    hs.watchSubtree root (hrs root hroot)

theorem visited_rebuilt (s : State) :
    Visited ((roots s).flatMap w.nftw) ( reinitialize num w s) := by
  have hempty : Visited ((roots s).flatMap w.nftw) { s with inotify := {}, wlCache := [] } :=
    ⟨inv_empty s.rootDirPaths, fun _ ha => (nomatch ha)⟩
  exact hempty.watchRoots _ fun root hroot v hv => List.mem_flatMap.mpr ⟨root, hroot, hv⟩

theorem isRootDirPath_iff {path : Str} : isRootDirPath s path = true ↔ path ∈ roots s := by
  rw [isRootDirPath, List.contains_iff_mem, roots, List.mem_filterMap]
  exact ⟨fun h => ⟨some path, h, rfl⟩, fun ⟨p, hp, heq⟩ => heq ▸ hp⟩

theorem Named.oneName {r : Run} (hs : Spelled argv added) (h : Named argv added r.state r.buf) :
    OneName argv added num r where
  root root hroot := by
    rw [isRootDirPath_iff, strip_of_getLast? (hs.root root (h.roots root hroot))]
    exact hroot
  cached w _ hown root hroot v hv hname ino hino a ha hwatch := by
    obtain ⟨v', hv', hino', hpath⟩ := (visited_rebuilt r.state).named a ha ino hwatch
    obtain ⟨root', hroot', hv'⟩ := List.mem_flatMap.mp hv'
    rw [isRootDirPath_iff, ← hpath]
    exact hown root hroot v hv hname ino hino root' hroot' v' hv' hino'
  entry a ha hused name hname := by
    obtain ⟨start, hstart, names, hnames, heq⟩ := h.cached a ha hused
    refine ⟨start, hstart, names, hnames, heq, ?_⟩
    rw [heq]
    exact child_walkPath (hs.strip_ne hstart) hnames hname

end Run

/-- **In every run a directory has one name**, where the roots are spelled as they have to be. -/
theorem oneName_of_spelled (lstat : Str → Option Stat) (argv added : List Str) (num : Numbering)
    (hs : Spelled argv added) (r : Run)
    (hr : Reaches (inotifyDtree lstat argv num) (fun _ a => ActConforms added a) r) :
    OneName argv added num r := by
  have hnamed : Named argv added r.state r.buf := by
    refine @Reaches.invariant _ _ _ _ (fun r => Named argv added r.state r.buf) ?_ ?_ _ hr
    · rintro r ⟨rootDirPaths, w, hcopy, hw, rfl⟩
      have hstart : Named argv added ⟨{}, rootDirPaths, []⟩ [] := by
        refine ⟨?_, fun _ ha => (nomatch ha), fun ev hev => hev.elim (nomatch ·) (nomatch ·)⟩
        rw [copyRootDirPaths_eq hcopy]
        intro root hroot
        simpa using hroot
      exact hstart.reinitialize hw
    · exact fun r a r' hinv ha hstep => named_step hs hinv ha hstep
  exact hnamed.oneName hs

/-- A world in which `nftw(path)` comes upon the entries and inodes of `walks`, and upon nothing
anywhere else. -/
def visiting (path : Str) (walks : List (List Str × ℕ)) : World where
  nftw P := if P = path then walks.map fun walk => ⟨[], walkPath path walk.1, true, some walk.2⟩ else []
  rmWatch _ := ([], false)

theorem glibc_visiting {path : Str} {walks : List (List Str × ℕ)}
    (h : ∀ walk ∈ walks, ∀ name ∈ walk.1, Entry name) : Glibc (visiting path walks) := by
  have hvisit : ∀ P, ∀ v ∈ (visiting path walks).nftw P, P = path ∧ v.changes = [] ∧
      ∃ walk ∈ walks, v.pathname = walkPath path walk.1 := by
    intro P v hv
    rw [visiting] at hv
    simp only at hv
    split at hv
    · rename_i hP
      obtain ⟨walk, hwalk, rfl⟩ := List.mem_map.mp hv
      exact ⟨hP, rfl, walk, hwalk, rfl⟩
    · exact nomatch hv
  refine ⟨?_, ?_, fun _ _ hc => (nomatch hc)⟩
  · intro P v hv
    obtain ⟨rfl, -, walk, hwalk, heq⟩ := hvisit P v hv
    exact ⟨walk.1, h walk hwalk, heq⟩
  · intro P v hv c hc
    rw [(hvisit P v hv).2.1] at hc
    exact nomatch hc

/-- The pathnames are those of the directory with inode 1, and there is no other. -/
def lstatOf (paths : List Str) (path : Str) : Option Stat :=
  if paths.contains path then some ⟨1, 1, true⟩ else none

/-- The root `d` with an entry `x`, in which `y` is made. -/
theorem oneName_of_spelled_made : ∃ r, r.state.wlCache.take 3 =
      [⟨1, ['d']⟩, ⟨2, ['d', '/', 'x']⟩, ⟨3, ['d', '/', 'y']⟩] ∧
    OneName [['d']] [] counting r := by
  have hspelled : Spelled [['d']] [] := by
    refine ⟨by decide, fun _ harg => (nomatch harg), ?_⟩
    intro start hstart start' hstart' names hne hnames hunder
    rw [List.append_nil, List.mem_singleton] at hstart hstart'
    subst hstart hstart'
    exact ⟨[], fun _ h => (nomatch h), rfl⟩
  have hstart : Reaches (inotifyDtree (lstatOf [['d']]) [['d']] counting)
      (fun _ a => ActConforms [] a)
      ⟨ reinitialize counting (visiting ['d'] [([], 1), ([['x']], 2)]) ⟨{}, [some ['d']], []⟩, []⟩ :=
    .init ⟨_, _, rfl, glibc_visiting (by decide), rfl⟩
  have hmake : ActConforms [] (.change (.notify ⟨1, IN_CREATE ||| IN_ISDIR, 0, ['y']⟩)) :=
    fun _ => by decide
  have hread : ActConforms [] (.read 1) := trivial
  have hprocess : ActConforms [] (.process (visiting ['d', '/', 'y'] [([], 3)]) true) :=
    glibc_visiting (by decide)
  have hdone := ((hstart.step hmake rfl).step hread rfl).step hprocess rfl
  exact ⟨_, rfl, oneName_of_spelled _ _ _ _ hspelled _ hdone⟩

/-- The root `d/` is watched as `d`, which is not the name of a root; the entries of the root `/` are
`/x` to `nftw()` and `//x` to the handlers. -/
theorem root_misnamed :
    (∃ r, Reaches (inotifyDtree (lstatOf [['d'], ['d', '/']]) [['d', '/']] counting)
      (fun _ a => ActConforms [] a) r ∧ ¬OneName [['d', '/']] [] counting r) ∧
    ∃ r, Reaches (inotifyDtree (lstatOf [['/']]) [['/']] counting)
      (fun _ a => ActConforms [] a) r ∧ ¬OneName [['/']] [] counting r := by
  constructor
  · refine ⟨_, .init ⟨_, visiting ['d', '/'] [([], 1)], rfl, glibc_visiting (by decide), rfl⟩, ?_⟩
    exact fun h => absurd (h.root ['d', '/'] (by decide)) (by decide)
  · refine ⟨_, .init ⟨_, visiting ['/'] [([], 1)], rfl, glibc_visiting (by decide), rfl⟩, ?_⟩
    intro h
    obtain ⟨start, hstart, names, -, hpath, hchild⟩ :=
      h.entry ⟨1, ['/']⟩ (by decide) (by decide) ['x'] (by decide)
    rw [walkPath, List.foldl_append, show names.foldl pathFor (strip start) = _ from hpath.symm] at hchild
    exact absurd hchild (by decide)

end Tlpi.DtreeNames
