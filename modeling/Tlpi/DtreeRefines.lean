/-
The program over one tree of directories (`Tlpi.InotifyDtree`) is the program in a world that
does as it likes (`Tlpi.DtreeWorld`), where the world is that tree.

`Matches` relates the states of the two: the program's variables are the same, and the
kernel's are two representations of one thing, the watches as a function of the inode and as
a list, and the queue with the events that have been read in front or without them. A call of
`processNextInotifyEvent()` takes states that match to states that match, and returns the same
(`process_matches`); an operation on the tree is a few changes that the world may make. So every run
over the tree is a run in the world (`simulated_of_reachable`), and what holds there holds over the tree
as well, here with no condition on the renames (`slots_match_tree`).

The world may lose events; the kernel over the tree does not: what it has dropped and the program
has not handled is announced by an event that is still in the queue (`Same.gone`).

The scans of the cache on their own (`Tlpi.DtreeScans`) are the program's: with pathnames that are
short enough the buffers make no difference, and a world is one pattern of failures
(`zapSlots_scans`), so what is known of a scan holds in every world (`wlCache_zapSubtree`).
-/
import Tlpi.DtreeEvents
import Tlpi.DtreeFraming
import Tlpi.DtreeScans
import Tlpi.DtreeSlots

set_option autoImplicit false

namespace Tlpi.DtreeRefines

open Tlpi.Pathname Tlpi.Inotify Tlpi.InotifyDtree Tlpi.Transition
open Tlpi.DtreeWorld (Instance World counting isPlain isSelf)

/-! ## 1. The kernel -/

/-- The two representations of an inotify instance; `read` is what has been read. -/
structure Same (read : List Event) (k : Kernel) (i : Instance) : Prop where
  watches : ∀ ino wd, (ino, wd) ∈ i.watches ↔ k.watch ino = some wd
  next : counting.next i.issued = k.nextWd
  queue : read ++ i.queue = k.queue.map Queued.ev
  /-- The event of a watch that was dropped is still there. -/
  gone : ∀ wd ∈ i.gone, ∃ q ∈ k.queue, isSelf q.ev = true ∧ q.ev.wd = wd
  watch_dir : ∀ ino wd, k.watch ino = some wd → ∃ d ∈ k.dirs, d.ino = ino
  watch_inj : ∀ ino ino' wd, k.watch ino = some wd → k.watch ino' = some wd → ino = ino'
  watch_lt : ∀ ino wd, k.watch ino = some wd → wd < k.nextWd

section Kernel

variable {read : List Event} {k k' : Kernel} {i : Instance}

theorem Same.init (k : Kernel) : Same [] k.inotifyInit {} where
  watches _ _ := iff_of_false List.not_mem_nil nofun
  next := rfl
  queue := rfl
  gone _ h := nomatch h
  watch_dir _ _ h := nomatch h
  watch_inj _ _ _ h := nomatch h
  watch_lt _ _ h := nomatch h

/-- Directories may come, and be renamed. -/
theorem Same.of_dirs (h : Same read k i) (dirs : List Dir) (nextIno nextCookie : ℕ)
    (hdirs : ∀ d ∈ k.dirs, ∃ d' ∈ dirs, d'.ino = d.ino) :
    Same read { k with dirs := dirs, nextIno := nextIno, nextCookie := nextCookie } i := by
  refine ⟨h.watches, h.next, h.queue, h.gone, ?_, h.watch_inj, h.watch_lt⟩
  intro ino wd hw
  obtain ⟨d, hd, rfl⟩ := h.watch_dir ino wd hw
  exact hdirs d hd

theorem Same.enqueue (h : Same read k i) (evs : List Queued) :
    Same read { k with queue := k.queue ++ evs } { i with queue := i.queue ++ evs.map Queued.ev } := by
  refine ⟨h.watches, h.next, ?_, ?_, h.watch_dir, h.watch_inj, h.watch_lt⟩
  · rw [List.map_append, ← List.append_assoc, h.queue]
  · intro wd hwd
    obtain ⟨q, hq, hself⟩ := h.gone wd hwd
    exact ⟨q, List.mem_append_left _ hq, hself⟩

theorem Same.active_iff (h : Same read k i) {wd : ℤ} :
    i.active wd = true ↔ ∃ ino, k.watch ino = some wd := by
  rw [Instance.active, List.any_eq_true]
  constructor
  · rintro ⟨⟨ino, wd'⟩, hmem, heq⟩
    rw [decide_eq_true_eq] at heq
    exact ⟨ino, heq ▸ (h.watches ino wd').mp hmem⟩
  · rintro ⟨ino, hw⟩
    exact ⟨(ino, wd), (h.watches ino wd).mpr hw, decide_eq_true rfl⟩

theorem counting_next_cons (issued : List ℤ) :
    counting.next (counting.next issued :: issued) = counting.next issued + 1 := by
  simp only [counting, List.foldr_cons]
  omega

/-- `inotify_add_watch()`, on a pathname where there is a directory. -/
theorem Same.addWatch (h : Same read k i) {P : Str} {d : Dir} (hd : k.find P = some d) :
    ∃ k', k.inotifyAddWatch P = some (k', (i.inotifyAddWatch counting d.ino).2) ∧
      Same read k' (i.inotifyAddWatch counting d.ino).1 ∧ k'.dirs = k.dirs ∧ k'.nextIno = k.nextIno := by
  have hmem := List.mem_of_find?_eq_some hd
  unfold Kernel.inotifyAddWatch Instance.inotifyAddWatch
  simp only [hd]
  cases hw : k.watch d.ino with
  | some wd =>
    -- both find the watch that the directory has
    cases hf : i.watches.find? fun w => w.1 = d.ino with
    | none =>
      have hno := List.find?_eq_none.mp hf (d.ino, wd) ((h.watches _ _).mpr hw)
      simp only [decide_true, not_true_eq_false] at hno
    | some w =>
      obtain ⟨ino, wd'⟩ := w
      have hino : ino = d.ino := by simpa only [decide_eq_true_eq] using List.find?_some hf
      have hw' := (h.watches ino wd').mp (List.mem_of_find?_eq_some hf)
      rw [hino, hw] at hw'
      rw [Option.some.inj hw']
      exact ⟨k, rfl, h, rfl, rfl⟩
  | none =>
    cases hf : i.watches.find? fun w => w.1 = d.ino with
    | some w =>
      obtain ⟨ino, wd'⟩ := w
      have hino : ino = d.ino := by simpa only [decide_eq_true_eq] using List.find?_some hf
      have hw' := (h.watches ino wd').mp (List.mem_of_find?_eq_some hf)
      rw [hino, hw] at hw'
      exact nomatch hw'
    | none =>
      have hwatch : ∀ ino wd, Function.update k.watch d.ino (some k.nextWd) ino = some wd ↔
          (ino = d.ino ∧ wd = k.nextWd) ∨ k.watch ino = some wd := by
        intro ino wd
        rw [Function.update_apply]
        by_cases hino : ino = d.ino
        · rw [if_pos hino, hino, hw, Option.some.injEq]
          simp [eq_comm]
        · rw [if_neg hino]
          simp [hino]
      simp only [h.next]
      refine ⟨_, rfl, ⟨?_, ?_, h.queue, h.gone, ?_, ?_, ?_⟩, rfl, rfl⟩
      · intro ino wd
        rw [List.mem_cons, Prod.mk.injEq, h.watches]
        exact (hwatch ino wd).symm
      · rw [← h.next]
        exact counting_next_cons _
      · intro ino wd hino
        rcases (hwatch ino wd).mp hino with ⟨rfl, -⟩ | hino
        · exact ⟨d, hmem, rfl⟩
        · exact h.watch_dir ino wd hino
      · -- no watch had the number that is given
        intro ino ino' wd hi hi'
        rcases (hwatch ino wd).mp hi with ⟨rfl, rfl⟩ | hi
        · rcases (hwatch ino' _).mp hi' with ⟨rfl, -⟩ | hi'
          · rfl
          · exact absurd (h.watch_lt ino' _ hi') (Int.lt_irrefl _)
        · rcases (hwatch ino' wd).mp hi' with ⟨rfl, rfl⟩ | hi'
          · exact absurd (h.watch_lt ino _ hi) (Int.lt_irrefl _)
          · exact h.watch_inj ino ino' wd hi hi'
      · intro ino wd hino
        dsimp only
        rcases (hwatch ino wd).mp hino with ⟨-, rfl⟩ | hino
        · exact Int.lt_succ _
        · exact Int.lt_trans (h.watch_lt ino wd hino) (Int.lt_succ _)

/-- Some watches go, and events are queued. -/
theorem Same.restrict (h : Same read k i) (k' : Kernel) {watches : List (ℕ × ℤ)} (evs : List Queued)
    (gone : List ℤ) (hgone : ∀ wd ∈ gone, wd ∈ i.gone ∨ ∃ q ∈ evs, isSelf q.ev = true ∧ q.ev.wd = wd)
    (hnextWd : k'.nextWd = k.nextWd) (hqueue : k'.queue = k.queue ++ evs)
    (hwatch : ∀ ino wd, (ino, wd) ∈ watches ↔ k'.watch ino = some wd)
    (hless : ∀ ino wd, k'.watch ino = some wd → k.watch ino = some wd)
    (hdirs : ∀ ino wd, k'.watch ino = some wd → ∃ d ∈ k'.dirs, d.ino = ino) :
    Same read k' { i with watches := watches, queue := i.queue ++ evs.map Queued.ev, gone := gone } where
  watches := hwatch
  next := by rw [hnextWd]; exact h.next
  queue := by rw [hqueue, List.map_append, ← List.append_assoc, h.queue]
  gone wd hwd := by
    rw [hqueue]
    rcases hgone wd hwd with hold | ⟨q, hq, hself⟩
    · obtain ⟨q, hq, hself⟩ := h.gone wd hold
      exact ⟨q, List.mem_append_left _ hq, hself⟩
    · exact ⟨q, List.mem_append_right _ hq, hself⟩
  watch_dir := hdirs
  watch_inj ino ino' wd hi hi' := h.watch_inj ino ino' wd (hless ino wd hi) (hless ino' wd hi')
  watch_lt ino wd hi := by rw [hnextWd]; exact h.watch_lt ino wd (hless ino wd hi)

theorem mem_filter_ne {watches : List (ℕ × ℤ)} {ino : ℕ} {wd wd' : ℤ} :
    (ino, wd') ∈ watches.filter (fun w => w.2 ≠ wd) ↔ (ino, wd') ∈ watches ∧ wd' ≠ wd := by
  rw [List.mem_filter, decide_eq_true_eq]

/-- `inotify_rm_watch()` -/
theorem Same.rmWatch (h : Same read k i) (wd : ℤ) :
    (k.inotifyRmWatch wd = none ∧ i.inotifyRmWatch wd = none) ∨
      ∃ k' i', k.inotifyRmWatch wd = some k' ∧ i.inotifyRmWatch wd = some i' ∧ Same read k' i' ∧
        k'.dirs = k.dirs ∧ k'.nextIno = k.nextIno := by
  have hactive : (k.dirs.any fun d => k.watch d.ino = some wd) = true ↔ i.active wd = true := by
    rw [h.active_iff, List.any_eq_true]
    constructor
    · rintro ⟨d, -, hd⟩
      exact ⟨d.ino, of_decide_eq_true hd⟩
    · rintro ⟨ino, hw⟩
      obtain ⟨d, hd, rfl⟩ := h.watch_dir ino wd hw
      exact ⟨d, hd, decide_eq_true hw⟩
  unfold Kernel.inotifyRmWatch Instance.inotifyRmWatch
  by_cases ha : i.active wd = true
  · right
    rw [if_pos (hactive.mpr ha), if_pos ha]
    have hwatch : ∀ ino wd', (if k.watch ino = some wd then none else k.watch ino) = some wd' ↔
        k.watch ino = some wd' ∧ wd' ≠ wd := by
      intro ino wd'
      split
      · rename_i heq
        simp [heq, eq_comm]
      · rename_i hne
        refine ⟨fun hw => ⟨hw, ?_⟩, And.left⟩
        rintro rfl
        exact hne hw
    refine ⟨_, _, rfl, rfl, h.restrict _ [⟨⟨wd, IN_IGNORED, 0, []⟩, []⟩] i.gone (fun _ => .inl) rfl rfl
      ?_ ?_ ?_, rfl, rfl⟩
    · intro ino wd'
      rw [mem_filter_ne, h.watches]
      exact (hwatch ino wd').symm
    · exact fun ino wd' hw => ((hwatch ino wd').mp hw).1
    · exact fun ino wd' hw => h.watch_dir ino wd' ((hwatch ino wd').mp hw).1
  · left
    rw [if_neg (fun hk => ha (hactive.mp hk)), if_neg ha]
    exact ⟨rfl, rfl⟩

end Kernel

/-! ## 2. The operations on the tree -/

/-- Changes that the world may make take the instance to where the kernel is. -/
def Changes (read : List Event) (i : Instance) (k : Kernel) : Prop :=
  ∃ cs : List DtreeWorld.Change, Same read k (cs.foldl Instance.change i)

section Operations

variable {argv : List Str} {read : List Event} {k k' : Kernel} {i : Instance}

theorem Same.changes (h : Same read k i) : Changes read i k := ⟨[], h⟩

theorem Changes.trans (h : Changes read i k) (h' : ∀ j, Same read k j → Changes read j k') :
    Changes read i k' := by
  obtain ⟨cs, hsame⟩ := h
  obtain ⟨cs', hsame'⟩ := h' _ hsame
  refine ⟨cs ++ cs', ?_⟩
  rw [List.foldl_append]
  exact hsame'

/-- An event for the watch on a directory, if there is one. -/
theorem Same.notify (h : Same read k i) (P : Str) (mask : BitVec 32) (hplain : isPlain mask = true)
    (cookie : ℕ) (name place : Str) :
    Changes read i { k with queue := k.queue ++ notify (k.wdAt P) mask cookie name place } := by
  cases hw : k.wdAt P with
  | none =>
    rw [Inotify.notify, List.append_nil]
    exact h.changes
  | some wd =>
    obtain ⟨d, -, hd⟩ := Option.bind_eq_some_iff.mp hw
    refine ⟨[.notify ⟨wd, mask, cookie, name⟩], ?_⟩
    rw [List.foldl_cons, List.foldl_nil, Instance.change,
      if_pos ⟨h.active_iff.mpr ⟨d.ino, hd⟩, hplain⟩]
    exact h.enqueue [⟨⟨wd, mask, cookie, name⟩, place⟩]

/-- The directory at `P`, if there is one, goes away, and its watch is dropped. -/
theorem Same.vacate (h : Same read k i) (ht : Tree argv k) (P : Str) : Changes read i (k.vacate P) := by
  have hdirs : ∀ ino wd, (k.vacate P).watch ino = some wd → ∃ d ∈ (k.vacate P).dirs, d.ino = ino := by
    intro ino wd hw
    obtain ⟨hw, hne⟩ := watch_vacate.mp hw
    obtain ⟨d, hd, rfl⟩ := h.watch_dir ino wd hw
    exact ⟨d, mem_vacate.mpr ⟨hd, hne d hd rfl⟩, rfl⟩
  have hless : ∀ ino wd, (k.vacate P).watch ino = some wd → k.watch ino = some wd :=
    fun ino wd hw => (watch_vacate.mp hw).1
  have hqueue : (k.vacate P).queue = k.queue ++ notifySelf (k.wdAt P) P := rfl
  cases hwd : k.wdAt P with
  | none =>
    -- nothing there is watched
    rw [hwd, notifySelf] at hqueue
    refine ⟨[], ?_⟩
    have hwatch : ∀ ino wd, (ino, wd) ∈ i.watches ↔ (k.vacate P).watch ino = some wd := by
      intro ino wd
      rw [h.watches, watch_vacate]
      refine ⟨fun hw => ⟨hw, ?_⟩, And.left⟩
      rintro d hd rfl rfl
      rw [wdAt_of_mem ht hd, hw] at hwd
      exact nomatch hwd
    have hsame := h.restrict (k.vacate P) [] i.gone (fun _ => .inl) rfl hqueue hwatch hless hdirs
    rw [List.map_nil, List.append_nil] at hsame
    exact hsame
  | some wd =>
    obtain ⟨d, hfind, hd⟩ := Option.bind_eq_some_iff.mp hwd
    have hmem := List.mem_of_find?_eq_some hfind
    have hpath : d.path = P := by simpa only [decide_eq_true_eq] using List.find?_some hfind
    rw [hwd] at hqueue
    refine ⟨[.drop wd IN_DELETE_SELF], ?_⟩
    rw [List.foldl_cons, List.foldl_nil, Instance.change,
      if_pos ⟨h.active_iff.mpr ⟨d.ino, hd⟩, by decide⟩]
    have hgone : ∀ wd' ∈ wd :: i.gone, wd' ∈ i.gone ∨
        ∃ q ∈ notifySelf (some wd) P, isSelf q.ev = true ∧ q.ev.wd = wd' := by
      intro wd' hwd'
      rcases List.mem_cons.mp hwd' with rfl | hold
      · exact .inr ⟨_, List.mem_cons_self, by show has IN_DELETE_SELF _ = true; decide, rfl⟩
      · exact .inl hold
    refine h.restrict (k.vacate P) _ (wd :: i.gone) hgone rfl hqueue ?_ hless hdirs
    intro ino wd'
    rw [mem_filter_ne, h.watches, watch_vacate]
    refine and_congr_right fun hw => ⟨?_, ?_⟩
    · rintro hne d' hd' rfl hpath'
      rw [ht.path_inj d' hd' d hmem (hpath'.trans hpath.symm), hd] at hw
      exact hne (Option.some.inj hw).symm
    · rintro hall rfl
      exact hall d hmem (h.watch_inj d.ino ino wd' hd hw) hpath

theorem Same.mkdir (h : Same read k i) {p name : Str} (hk : k.mkdir p name = some k') :
    Changes read i k' := by
  rw [(mkdir_spec hk).eq]
  refine (h.notify p (IN_CREATE ||| IN_ISDIR) (by decide) 0 name (child p name)).trans fun j hj => ?_
  exact (hj.of_dirs _ _ _ fun d hd => ⟨d, List.mem_append_left _ hd, rfl⟩).changes

theorem Same.rename (h : Same read k i) (ht : Tree argv k) {p name p' name' : Str}
    (hk : k.rename argv p name p' name' = some k') : Changes read i k' := by
  unfold Kernel.rename at hk
  simp only at hk
  split at hk
  · rw [Option.some.injEq] at hk
    subst hk
    refine (h.notify p (IN_MOVED_FROM ||| IN_ISDIR) (by decide) k.nextCookie name
      (child p name)).trans fun j hj => ?_
    refine (hj.notify p' (IN_MOVED_TO ||| IN_ISDIR) (by decide) k.nextCookie name'
      (child p' name')).trans fun j hj => ?_
    have hmoving := hj.of_dirs k.dirs k.nextIno (k.nextCookie + 1) fun d hd => ⟨d, hd, rfl⟩
    simp only [List.append_assoc] at hmoving
    -- what is replaced goes, and then the subtree is where it was moved to
    refine (hmoving.vacate (tree_of_dirs ht rfl rfl) (child p' name')).trans fun j hj => ?_
    refine (hj.of_dirs _ _ _ fun d hd => ⟨_, List.mem_map_of_mem hd, ?_⟩).changes
    split
    · rfl
    · rfl
  · exact nomatch hk

end Operations

/-! ## 3. The program -/

/-- What a walk of the tree comes upon; no `inotify_rm_watch()` fails without reason. -/
def worldOf (k : Kernel) : World where
  nftw P := (k.nftw P).map fun Q => ⟨[], Q, true, (k.find Q).map Dir.ino⟩
  rmWatch _ := ([], false)

/-- The states match, while the tree is that of `k`. No root is given twice: `copyRootDirPaths()`
rejects that. -/
structure Matches (read : List Event) (k : Kernel) (s : State) (t : DtreeWorld.State) : Prop where
  dirs : s.kernel.dirs = k.dirs
  nextIno : s.kernel.nextIno = k.nextIno
  rootDirPaths : t.rootDirPaths = s.rootDirPaths
  wlCache : t.wlCache = s.wlCache
  nodup : (s.rootDirPaths.filterMap id).Nodup
  same : Same read s.kernel t.inotify

section Program

variable {read : List Event} {k : Kernel} {s : State} {t : DtreeWorld.State}

theorem find_congr {k k' : Kernel} (h : k.dirs = k'.dirs) (P : Str) : k.find P = k'.find P := by
  rw [Kernel.find, Kernel.find, h]

theorem nftw_congr {k k' : Kernel} (h : k.dirs = k'.dirs) (P : Str) : k.nftw P = k'.nftw P := by
  rw [Kernel.nftw, Kernel.nftw, find_congr h, h]

theorem changes_nil (t : DtreeWorld.State) : t.changes [] = t := rfl

/-- The tree is that of the state's own kernel. -/
theorem Matches.self (h : Matches read k s t) : Matches read s.kernel s t := { h with dirs := rfl, nextIno := rfl }

/-- The slots are written, and nothing else. -/
theorem Matches.setCache (h : Matches read k s t) (wlCache : List Watch) :
    Matches read k { s with wlCache := wlCache } { t with wlCache := wlCache } :=
  ⟨h.dirs, h.nextIno, h.rootDirPaths, rfl, h.nodup, h.same⟩

theorem Matches.traverseTree (h : Matches read k s t) (P : Str) :
    Matches read k (traverseTree s P)
      (DtreeWorld.traverseTree counting t ⟨[], P, true, (k.find P).map Dir.ino⟩) := by
  have hfind := find_congr h.dirs P
  rw [InotifyDtree.traverseTree, DtreeWorld.traverseTree]
  cases hd : k.find P with
  | none =>
    have hnone : s.kernel.inotifyAddWatch P = none := by
      rw [Kernel.inotifyAddWatch, hfind, hd]
    rw [hnone]
    exact h
  | some d =>
    obtain ⟨k', hadd, hsame, hdirs, hino⟩ := h.same.addWatch (hfind.trans hd)
    rw [hadd]
    have hadded : ∀ wlCache, Matches read k { s with kernel := k', wlCache := wlCache }
        { t with
          inotify := (t.inotify.inotifyAddWatch counting d.ino).1
          wlCache := wlCache } :=
      fun _ => ⟨hdirs.trans h.dirs, hino.trans h.nextIno, h.rootDirPaths, rfl, h.nodup, hsame⟩
    simp only [if_true, Option.map_some, changes_nil, h.wlCache]
    by_cases hfound : (findWatch s.wlCache (t.inotify.inotifyAddWatch counting d.ino).2).isSome
    · rw [if_pos hfound, if_pos hfound]
      exact hadded s.wlCache
    · rw [if_neg hfound, if_neg hfound]
      exact hadded _

theorem Matches.watchSubtree (h : Matches read k s t) (P : Str) :
    Matches read k (watchSubtree s P) (DtreeWorld.watchSubtree counting (worldOf k) t P) := by
  rw [InotifyDtree.watchSubtree, InotifyDtree.watchDir, nftw_congr h.dirs, DtreeWorld.watchSubtree,
    DtreeWorld.watchDir]
  simp only [worldOf, List.foldl_map]
  generalize k.nftw P = paths
  induction paths generalizing s t with
  | nil => exact h
  | cons Q paths ih => exact ih (h.traverseTree Q)

theorem Matches.watchRoots (h : Matches read k s t) (roots : List Str) :
    Matches read k (roots.foldl InotifyDtree.watchSubtree s)
      (roots.foldl (DtreeWorld.watchSubtree counting (worldOf k)) t) := by
  induction roots generalizing s t with
  | nil => exact h
  | cons r roots ih => exact ih (h.watchSubtree r)

/-- `reinitialize()`, whatever the two kernels had of inotify before. -/
theorem matches_started (hdirs : s.kernel.dirs = k.dirs) (hino : s.kernel.nextIno = k.nextIno)
    (hroots : t.rootDirPaths = s.rootDirPaths) (hnodup : (s.rootDirPaths.filterMap id).Nodup) :
    Matches [] k ( reinitialize s) ( DtreeWorld.reinitialize counting (worldOf k) t) := by
  have hinit : Matches [] k { s with kernel := s.kernel.inotifyInit, wlCache := [] }
      { t with inotify := {}, wlCache := [] } :=
    ⟨hdirs, hino, hroots, rfl, hnodup, Same.init _⟩
  have hwatched := hinit.watchRoots (s.rootDirPaths.filterMap id)
  rw [hroots] at hwatched
  rw [InotifyDtree.reinitialize, DtreeWorld.reinitialize, hroots]
  exact hwatched

/-- The loop of `zapSubtree()`, from a slot on. -/
theorem Same.zapSlots (pn : Str) (roots : List (Option Str)) (rest : List Watch) :
    ∀ (before : List Watch) {κ : Kernel} {i : Instance}, Same read κ i →
      ∃ i', DtreeWorld.zapSlots (worldOf k) pn (List.range' before.length rest.length)
            ⟨i, roots, before ++ rest⟩ =
          (⟨i', roots, before ++ (zapSubtree κ pn rest).2.1⟩, (zapSubtree κ pn rest).2.2) ∧
        Same read (zapSubtree κ pn rest).1 i' ∧ (zapSubtree κ pn rest).1.dirs = κ.dirs ∧
        (zapSubtree κ pn rest).1.nextIno = κ.nextIno := by
  induction rest with
  | nil => exact fun before κ i h => ⟨i, rfl, h, rfl, rfl⟩
  | cons a rest ih =>
    -- one model goes down the list, the other one counts the slots: `before` is what they passed
    intro before κ i h
    have hslot : (before ++ a :: rest)[before.length]? = some a := by simp
    have hlen : ∀ b : Watch, before.length + 1 = (before ++ [b]).length := by simp
    have hrm : (worldOf k).rmWatch a.wd = ([], false) := rfl
    rw [List.length_cons, List.range'_succ, DtreeWorld.zapSlots, InotifyDtree.zapSubtree]
    simp only [hslot]
    by_cases ha : 0 ≤ a.wd ∧ inSubtree pn a.path
    · rw [if_pos ha, if_pos ha]
      rcases h.rmWatch a.wd with ⟨hk, hi⟩ | ⟨κ', i', hk, hi, hsame, hdirs, hino⟩
      · -- both loops are left here, with the slots from this one on as they were
        simp only [hrm, changes_nil, hk, hi, Bool.false_eq_true, if_false]
        exact ⟨i, rfl, h, trivial, trivial⟩
      · simp only [hrm, changes_nil, hk, hi, Bool.false_eq_true, if_false]
        obtain ⟨j, hzap, hj, hjdirs, hjino⟩ := ih (before ++ [⟨-1, []⟩]) hsame
        rw [← hlen, List.append_assoc, List.append_assoc] at hzap
        have hmark : markCacheSlotEmpty (before ++ a :: rest) before.length =
            before ++ ([⟨-1, []⟩] ++ rest) := by
          simp [markCacheSlotEmpty]
        refine ⟨j, ?_, hj, hjdirs.trans hdirs, hjino.trans hino⟩
        rw [hmark, hzap]
        rfl
    · rw [if_neg ha, if_neg ha]
      obtain ⟨j, hzap, hj, hjdirs, hjino⟩ := ih (before ++ [a]) h
      rw [← hlen, List.append_assoc, List.append_assoc] at hzap
      exact ⟨j, hzap, hj, hjdirs, hjino⟩

/-- The loop of `zapRootDirPath()` stops at the first element; no other one is like it. -/
theorem set_findIdx_eq_map {roots : List (Option Str)} {P : Str}
    (h : (roots.filterMap id).Nodup) :
    (match roots.findIdx? fun p => p = some P with
      | some j => roots.set j none
      | none => roots) = roots.map fun p => if p = some P then none else p := by
  induction roots with
  | nil => rfl
  | cons r roots ih =>
    rw [List.findIdx?_cons, List.map_cons]
    by_cases hr : r = some P
    · -- the loop ends here, and the elements after it are not touched
      subst hr
      obtain ⟨hnot, -⟩ := List.nodup_cons.mp h
      have hrest : (roots.map fun p => if p = some P then none else p) = roots := by
        refine (List.map_congr_left fun p hp => if_neg ?_).trans (List.map_id roots)
        rintro rfl
        exact hnot (List.mem_filterMap.mpr ⟨some P, hp, rfl⟩)
      simp [hrest]
    · have hrest : (roots.filterMap id).Nodup := by
        cases r with
        | none => exact h
        | some Q => exact (List.nodup_cons.mp h).2
      rw [← ih hrest, if_neg hr]
      simp only [hr, decide_false, Bool.false_eq_true, if_false]
      cases roots.findIdx? fun p => p = some P with
      | none => rfl
      | some j => rfl

theorem nodup_zapped {roots : List (Option Str)} (P : Str) (h : (roots.filterMap id).Nodup) :
    ((roots.map fun p => if p = some P then none else p).filterMap id).Nodup := by
  have heq : (roots.map fun p => if p = some P then none else p).filterMap id =
      (roots.filterMap id).filter fun p => p ≠ P := by
    rw [List.filterMap_map, List.filter_filterMap]
    refine List.filterMap_congr fun p _ => ?_
    cases p with
    | none => simp
    | some Q =>
      by_cases hQ : Q = P
      · simp [hQ, Option.filter_some]
      · simp [hQ, Option.filter_some]
  rw [heq]
  exact h.filter _

/-- A root that is zapped, or the program ends. -/
theorem Matches.zapRootDirPath (h : Matches read k s t) (P : Str) :
    (zapRootDirPath s P = none ∧ DtreeWorld.zapRootDirPath t P = none) ∨
      ∃ s' t', zapRootDirPath s P = some s' ∧ DtreeWorld.zapRootDirPath t P = some t' ∧
        Matches read k s' t' := by
  have hzap : DtreeWorld.zapRootDirPath t P =
      let roots := s.rootDirPaths.map fun p => if p = some P then none else p
      if roots.all Option.isNone then none else some { t with rootDirPaths := roots } := by
    rw [DtreeWorld.zapRootDirPath, h.rootDirPaths]
    exact congrArg (fun roots : List (Option Str) => if roots.all Option.isNone then none
      else some { t with rootDirPaths := roots }) (set_findIdx_eq_map h.nodup)
  rw [InotifyDtree.zapRootDirPath, hzap]
  simp only
  split
  · exact .inl ⟨rfl, rfl⟩
  · exact .inr ⟨_, _, rfl, rfl, h.dirs, h.nextIno, rfl, h.wlCache, nodup_zapped P h.nodup, h.same⟩

/-! ## 4. The events -/

/-- Two calls return the same, in states that match; what has been read may be discarded. -/
def Returns (read : List Event) (k : Kernel) (res : State × Consumed)
    (res' : DtreeWorld.State × Consumed) : Prop :=
  Matches (if res.2 = .buffer then [] else read) k res.1 res'.1 ∧ res.2 = res'.2

theorem Returns.ite {c : Prop} [Decidable c] {a b : State × Consumed}
    {a' b' : DtreeWorld.State × Consumed} (ha : c → Returns read k a a') (hb : ¬c → Returns read k b b') :
    Returns read k (if c then a else b) (if c then a' else b') := by
  split
  · rename_i hc
    exact ha hc
  · rename_i hc
    exact hb hc

theorem Matches.isRootDirPath (h : Matches read k s t) (P : Str) :
    DtreeWorld.isRootDirPath t P = isRootDirPath s P := by
  rw [DtreeWorld.isRootDirPath, InotifyDtree.isRootDirPath, h.rootDirPaths]

theorem Matches.rebuilt (h : Matches read k s t) : Returns read k ( InotifyDtree.reinitialize s, .buffer)
    ( DtreeWorld.reinitialize counting (worldOf k) t, .buffer) :=
  ⟨matches_started h.dirs h.nextIno h.rootDirPaths h.nodup, rfl⟩

theorem Matches.movedOut (h : Matches read k s t) (P : Str) :
    Returns read k (movedOut s P) (DtreeWorld.movedOut counting (worldOf k) t P) := by
  obtain ⟨i, hzap, hsame, hdirs, hino⟩ :=
    @Same.zapSlots read k P t.rootDirPaths s.wlCache [] _ _ h.same
  have hzapped : DtreeWorld.zapSubtree (worldOf k) t P =
      ({ t with inotify := i, wlCache := (zapSubtree s.kernel P s.wlCache).2.1 },
        (zapSubtree s.kernel P s.wlCache).2.2) := by
    rw [DtreeWorld.zapSubtree, h.wlCache, List.range_eq_range']
    refine Eq.trans ?_ hzap
    rw [List.nil_append, ← h.wlCache]
    rfl
  have hmatch : Matches read k
      { s with
        kernel := (zapSubtree s.kernel P s.wlCache).1
        wlCache := (zapSubtree s.kernel P s.wlCache).2.1 }
      { t with inotify := i, wlCache := (zapSubtree s.kernel P s.wlCache).2.1 } :=
    ⟨hdirs.trans h.dirs, hino.trans h.nextIno, h.rootDirPaths, rfl, h.nodup, hsame⟩
  rw [InotifyDtree.movedOut, DtreeWorld.movedOut, hzapped]
  revert hmatch
  generalize zapSubtree s.kernel P s.wlCache = zapped
  obtain ⟨kernel, wlCache, cnt⟩ := zapped
  intro hmatch
  cases cnt with
  | some n => exact ⟨hmatch, rfl⟩
  | none => exact hmatch.rebuilt

theorem Matches.deleted (h : Matches read k s t) (slot : ℕ) (P : Str) :
    Returns read k (deleted s slot P) (DtreeWorld.deleted t slot P) := by
  have hempty : ∀ {s : State} {t : DtreeWorld.State}, Matches read k s t →
      Returns read k ({ s with wlCache := markCacheSlotEmpty s.wlCache slot }, .events 1)
        ({ t with wlCache := markCacheSlotEmpty t.wlCache slot }, .events 1) := by
    intro s t h
    rw [h.wlCache]
    exact ⟨h.setCache _, rfl⟩
  rw [InotifyDtree.deleted, DtreeWorld.deleted, h.isRootDirPath]
  by_cases hroot : InotifyDtree.isRootDirPath s P
  · rw [if_pos hroot, if_pos hroot]
    rcases h.zapRootDirPath P with ⟨hs, ht⟩ | ⟨s', t', hs, ht, hmatch⟩
    · rw [hs, ht]
      exact ⟨h, rfl⟩
    · rw [hs, ht]
      exact hempty hmatch
  · rw [if_neg hroot, if_neg hroot]
    exact hempty h

theorem Matches.rootMoved (h : Matches read k s t) (P : Str) :
    Returns read k (rootMoved s P) (DtreeWorld.rootMoved counting (worldOf k) t P) := by
  rw [InotifyDtree.rootMoved, DtreeWorld.rootMoved]
  rcases h.zapRootDirPath P with ⟨hs, ht⟩ | ⟨s', t', hs, ht, hmatch⟩
  · rw [hs, ht]
    exact ⟨h, rfl⟩
  · rw [hs, ht]
    exact hmatch.movedOut P

theorem Matches.handleEvent (h : Matches read k s t) (slot : ℕ) (ev : Event) (buf : List Event)
    (firstTry : Bool) :
    Returns read k (handleEvent s slot ev buf firstTry)
      (DtreeWorld.handleEvent counting (worldOf k) t slot ev buf.head? firstTry) := by
  unfold InotifyDtree.handleEvent DtreeWorld.handleEvent
  simp only [h.wlCache, h.isRootDirPath]
  refine Returns.ite (fun _ => ?_) fun _ => Returns.ite (fun _ => h.deleted slot _) fun _ =>
    Returns.ite (fun _ => ?_) fun _ => Returns.ite (fun _ => h.rebuilt) fun _ =>
      Returns.ite (fun _ => ⟨h.setCache _, rfl⟩) fun _ =>
        Returns.ite (fun _ => h.rootMoved _) fun _ => ⟨h, rfl⟩
  · split
    · exact ⟨h, rfl⟩
    · exact ⟨h.watchSubtree _, rfl⟩
  · cases buf with
    | nil =>
      rw [List.head?_nil, DtreeWorld.movedFrom]
      exact Returns.ite (fun _ => ⟨h, rfl⟩) fun _ => h.movedOut _
    | cons nextEv buf =>
      rw [List.head?_cons, DtreeWorld.movedFrom]
      refine Returns.ite (fun _ => ?_) fun _ => h.movedOut _
      rw [h.wlCache]
      cases findWatch s.wlCache nextEv.wd with
      | none => exact h.rebuilt
      | some nextEvCacheSlot => exact ⟨h.setCache _, rfl⟩

/-- A call of `processNextInotifyEvent()`. -/
theorem process_matches (h : Matches read k s t) (ev : Event) (buf : List Event) (firstTry : Bool) :
    Returns read k (processNextInotifyEvent s ev buf firstTry)
      (DtreeWorld.processNextInotifyEvent counting (worldOf k) t ev buf.head? firstTry) := by
  rw [InotifyDtree.processNextInotifyEvent, DtreeWorld.processNextInotifyEvent, h.wlCache]
  refine Returns.ite (fun _ => ?_) fun _ => h.handleEvent _ ev buf firstTry
  cases findWatch s.wlCache ev.wd with
  | none => exact h.rebuilt
  | some slot => exact h.handleEvent slot ev buf firstTry

end Program

/-! ## 5. Every run -/

section Runs

variable {argv : List Str} {read : List Event} {s s' : State} {t : DtreeWorld.State}

/-- A run in the world leads there. -/
abbrev InWorld (t : DtreeWorld.State) (read : List Event) : Prop :=
  Reachable (DtreeWorld.inotifyDtree counting) ⟨t, read⟩

/-- The tree is a tree, and a run in the world leads to a state that matches; at most one event has been
read there that the program over the tree will be given. -/
def Simulated (argv : List Str) (s : State) : Prop :=
  Tree argv s.kernel ∧ ∃ t read, InWorld t read ∧ Matches read s.kernel s t ∧ read.length ≤ 1

theorem InWorld.changes (h : InWorld t read) (cs : List DtreeWorld.Change) :
    InWorld (t.changes cs) read := by
  induction cs generalizing t with
  | nil => exact h
  | cons c cs ih =>
    have hnext : InWorld (t.changes [c]) read := h.step (a := .change c) trivial rfl
    exact ih hnext

/-- The tree changes, and nothing of the program does. -/
theorem simulated_change (hworld : InWorld t read) (hm : Matches read s.kernel s t)
    (hread : read.length ≤ 1) {k : Kernel} (ht : Tree argv k) (h : Changes read t.inotify k) :
    Simulated argv { s with kernel := k } := by
  obtain ⟨cs, hsame⟩ := h
  exact ⟨ht, t.changes cs, read, hworld.changes cs,
    ⟨rfl, rfl, hm.rootDirPaths, hm.wlCache, hm.nodup, hsame⟩, hread⟩

/-- A `read()` in the world, so that the first `n` events of the queue over the tree have been read. -/
theorem InWorld.readUpTo (h : InWorld t read) (hm : Matches read s.kernel s t) {n : ℕ}
    (hn : read.length ≤ n) : ∃ t', InWorld t' ((s.kernel.queue.map Queued.ev).take n) ∧
      Matches ((s.kernel.queue.map Queued.ev).take n) s.kernel s t' := by
  have htake : (s.kernel.queue.map Queued.ev).take n =
      read ++ t.inotify.queue.take (n - read.length) := by
    rw [← hm.same.queue, List.take_append, List.take_of_length_le hn]
  rw [htake]
  refine ⟨{ t with inotify := { t.inotify with queue := t.inotify.queue.drop (n - read.length) } },
    h.step (a := .read (n - read.length)) trivial rfl, hm.dirs, hm.nextIno, hm.rootDirPaths, hm.wlCache,
    hm.nodup, hm.same.watches, hm.same.next, ?_, hm.same.gone, hm.same.watch_dir, hm.same.watch_inj,
    hm.same.watch_lt⟩
  rw [List.append_assoc, List.take_append_drop]
  exact hm.same.queue

/-- Events that have been read are consumed, and those among them that announce a dropped watch are
handled. -/
theorem Matches.consume {k : Kernel} (h : Matches read k s t) {m : ℕ} (hm : m ≤ read.length) :
    Matches (read.drop m) { s.kernel with queue := s.kernel.queue.drop m }
      { s with kernel := { s.kernel with queue := s.kernel.queue.drop m } }
      (t.handled (read.take m)) := by
  refine ⟨rfl, rfl, h.rootDirPaths, h.wlCache, h.nodup, h.same.watches, h.same.next, ?_, ?_,
    h.same.watch_dir, h.same.watch_inj, h.same.watch_lt⟩
  · rw [List.map_drop, ← h.same.queue, List.drop_append_of_le_length hm]
    rfl
  · intro wd hwd
    obtain ⟨hgone, hnot⟩ := List.mem_filter.mp hwd
    obtain ⟨q, hq, hself, rfl⟩ := h.same.gone wd hgone
    refine ⟨q, ?_, hself, rfl⟩
    rw [← List.take_append_drop m s.kernel.queue] at hq
    refine (List.mem_append.mp hq).resolve_left fun hfirst => ?_
    -- an event at the head of the queue has been handled
    have hhandled : q.ev ∈ read.take m := by
      have hev := List.mem_map_of_mem (f := Queued.ev) hfirst
      rwa [List.map_take, ← h.same.queue, List.take_append_of_le_length hm] at hev
    have hany : ((read.take m).any fun ev => isSelf ev && ev.wd == q.ev.wd) = true :=
      List.any_eq_true.mpr ⟨q.ev, hhandled, by rw [hself, Bool.true_and, beq_self_eq_true]⟩
    rw [hany] at hnot
    exact nomatch hnot

/-- All that a call looks at are the first two events. -/
theorem take_two {l rest : List Event} {n : ℕ} {ev : Event} (h : l.take n = ev :: rest) :
    1 ≤ n ∧ ∃ next, l.take (min n 2) = ev :: next ∧ next.head? = rest.head? ∧ next.length ≤ 1 := by
  cases l with
  | nil =>
    rw [List.take_nil] at h
    exact nomatch h
  | cons ev' l =>
    cases n with
    | zero => exact nomatch h
    | succ n =>
      rw [List.take_succ_cons, List.cons.injEq] at h
      obtain ⟨rfl, rfl⟩ := h
      refine ⟨Nat.le_add_left _ _, ?_⟩
      cases n with
      | zero => exact ⟨[], rfl, rfl, Nat.zero_le _⟩
      | succ n =>
        rw [Nat.min_eq_right (Nat.le_add_left 2 n)]
        refine ⟨l.take 1, rfl, ?_, List.length_take_le _ _⟩
        cases l <;> rfl

theorem simulated_process (ht : Tree argv s.kernel) (hworld : InWorld t read)
    (hm : Matches read s.kernel s t) (hread : read.length ≤ 1) {n : ℕ} {firstTry : Bool}
    (h : process s n firstTry = some s') : Simulated argv s' := by
  rw [process] at h
  split at h
  · exact nomatch h
  · rename_i q buf hbuf
    obtain ⟨-, h⟩ := Option.ite_none_right_eq_some.mp h
    have htake : (s.kernel.queue.map Queued.ev).take n = q.ev :: buf.map Queued.ev := by
      rw [← List.map_take, hbuf, List.map_cons]
    obtain ⟨hn, next, htwo, hhead, hone⟩ := take_two htake
    obtain ⟨t', hworld', hm'⟩ := hworld.readUpTo hm (n := min n 2) (by omega)
    rw [htwo] at hworld' hm'
    have hret := process_matches hm' q.ev (buf.map Queued.ev) firstTry
    rw [← hhead] at hret
    have houtcome := @DtreeFraming.outcome_process counting (worldOf s.kernel) t' q.ev next.head? firstTry
    have hstep : ∀ r, DtreeWorld.advance (q.ev :: next) (DtreeWorld.processNextInotifyEvent counting
        (worldOf s.kernel) t' q.ev next.head? firstTry) = some r →
        Reachable (DtreeWorld.inotifyDtree counting) r :=
      fun r hr => hworld'.step (a := .process (worldOf s.kernel) firstTry) trivial hr
    revert h hret houtcome hstep
    generalize processNextInotifyEvent s q.ev (buf.map Queued.ev) firstTry = res
    generalize DtreeWorld.processNextInotifyEvent counting (worldOf s.kernel) t' q.ev
      next.head? firstTry = res'
    obtain ⟨s₁, c⟩ := res
    obtain ⟨t₁, c'⟩ := res'
    rintro h ⟨hm₁, hc⟩ houtcome hstep
    have ht₁ : Tree argv s₁.kernel := tree_of_dirs ht hm₁.dirs hm₁.nextIno
    have hm₁ := hm₁.self
    obtain rfl : c = c' := hc
    cases c with
    | events m =>
      rw [← Option.some.inj h]
      have hm_le : 1 ≤ m ∧ m ≤ (q.ev :: next).length := by
        rw [List.length_cons]
        rcases houtcome with ⟨rfl, -⟩ | ⟨rfl, -, ev', hev', -⟩
        · omega
        · have hpos := List.length_pos_of_mem (List.mem_of_head? hev')
          omega
      refine ⟨tree_of_dirs ht₁ rfl rfl, _, _, hstep _ rfl, hm₁.consume hm_le.2, ?_⟩
      rw [List.length_drop, List.length_cons]
      omega
    | buffer =>
      rw [← Option.some.inj h]
      exact ⟨ht₁, t₁, [], hstep _ rfl, hm₁, Nat.zero_le _⟩
    | again =>
      rw [← Option.some.inj h]
      have hnil : next = [] := List.head?_eq_none_iff.mp houtcome.2.1
      refine ⟨ht₁, t₁, q.ev :: next, hstep _ rfl, hm₁, ?_⟩
      rw [hnil, List.length_singleton]
    | exit => exact nomatch h

theorem simulated_step {a : Act} (hs : Simulated argv s) (hstep : step argv s a = some s') :
    Simulated argv s' := by
  obtain ⟨ht, t, read, hworld, hm, hread⟩ := hs
  cases a with
  | mkdir p name =>
    obtain ⟨k, hk, rfl⟩ := Option.map_eq_some_iff.mp hstep
    exact simulated_change hworld hm hread ((mkdir_spec hk).tree ht) (hm.same.mkdir hk)
  | rmdir path =>
    obtain ⟨k, hk, rfl⟩ := Option.map_eq_some_iff.mp hstep
    have hremoved := rmdir_spec hk
    refine simulated_change hworld hm hread (hremoved.tree ht) ?_
    rw [hremoved.eq]
    exact hm.same.vacate ht path
  | rename p name p' name' =>
    obtain ⟨k, hk, rfl⟩ := Option.map_eq_some_iff.mp hstep
    exact simulated_change hworld hm hread ((rename_spec hk).tree ht) (hm.same.rename ht hk)
  | process n firstTry => exact simulated_process ht hworld hm hread hstep

/-- Every run over the tree is a run in the world. -/
theorem simulated_of_reachable (hnodup : argv.Nodup) (h : Reachable (inotifyDtree argv) s) :
    Simulated argv s := by
  refine @Reaches.invariant _ _ _ _ (Simulated argv) ?_ ?_ _ h
  · rintro s ⟨-, k, ht, -, rfl⟩
    have hroots : ((argv.map some).filterMap id).Nodup := by
      rw [List.filterMap_map, Function.id_comp, List.filterMap_some]
      exact hnodup
    have hm := @matches_started k ⟨k, argv.map some, []⟩ ⟨{}, argv.map some, []⟩ rfl rfl rfl
      hroots
    exact ⟨tree_of_dirs ht hm.dirs hm.nextIno, _, [], .init ⟨argv, worldOf k, rfl⟩, hm.self,
      Nat.zero_le _⟩
  · exact fun s a s' hs _ hstep => simulated_step hs hstep

/-- In every run, whatever is renamed, the state matches one that a run in the world leads to, and the
slots are the watches that the kernel has or has dropped in that run without the program having handled
the event; that event is then still in the queue. -/
theorem slots_match_tree (hnodup : argv.Nodup) (h : Reachable (inotifyDtree argv) s) :
    ∃ t read, Reachable (DtreeWorld.inotifyDtree counting) ⟨t, read⟩ ∧ Matches read s.kernel s t ∧
      DtreeWorld.SlotsMatch t ∧
      (∀ ino wd, s.kernel.watch ino = some wd → ∃ a ∈ s.wlCache, a.wd ≠ -1 ∧ a.wd = wd) ∧
      ∀ a ∈ s.wlCache, a.wd ≠ -1 → (∃ ino, s.kernel.watch ino = some a.wd) ∨
        ∃ q ∈ s.kernel.queue, isSelf q.ev = true ∧ q.ev.wd = a.wd := by
  obtain ⟨-, t, read, hworld, hm, -⟩ := simulated_of_reachable hnodup h
  have hslots : DtreeWorld.SlotsMatch t := (DtreeWorld.inv_of_reachable hworld).slotsMatch
  refine ⟨t, read, hworld, hm, hslots, ?_, ?_⟩
  · intro ino wd hw
    rw [← hm.wlCache]
    exact (hslots.watches wd).mpr (.inl (hm.same.active_iff.mpr ⟨ino, hw⟩))
  · intro a ha hused
    rw [← hm.wlCache] at ha
    rcases (hslots.watches a.wd).mp ⟨a, ha, hused, rfl⟩ with hactive | hgone
    · exact .inl (hm.same.active_iff.mp hactive)
    · exact .inr (hm.same.gone a.wd hgone)

/-- A directory that is renamed before its creation is handled: the cache misses it, and so do the watches. -/
theorem slots_match_tree_renamed : ∃ s, s.kernel.dirs = [⟨1, ['r']⟩, ⟨2, ['o']⟩, ⟨3, ['r', '/', 'c']⟩] ∧
    s.wlCache.filter (fun w => 0 ≤ w.wd) = [⟨1, ['r']⟩] ∧
    ∃ t read, Reachable (DtreeWorld.inotifyDtree counting) ⟨t, read⟩ ∧ Matches read s.kernel s t ∧
      DtreeWorld.SlotsMatch t ∧
      (∀ ino wd, s.kernel.watch ino = some wd → ∃ a ∈ s.wlCache, a.wd ≠ -1 ∧ a.wd = wd) ∧
      ∀ a ∈ s.wlCache, a.wd ≠ -1 → (∃ ino, s.kernel.watch ino = some a.wd) ∨
        ∃ q ∈ s.kernel.queue, isSelf q.ev = true ∧ q.ev.wd = a.wd := by
  have hrun : ((inotifyDtree [['r']]).run started
      [.mkdir ['r'] ['a'], .rename ['r'] ['a'] ['r'] ['c'], .process 3 true, .process 2 true]).map
        (fun s => (s.kernel.dirs, s.wlCache.filter fun w => 0 ≤ w.wd)) =
      some ([⟨1, ['r']⟩, ⟨2, ['o']⟩, ⟨3, ['r', '/', 'c']⟩], [⟨1, ['r']⟩]) := by
    decide +kernel
  obtain ⟨s, hs, heq⟩ := Option.map_eq_some_iff.mp hrun
  obtain ⟨hdirs, hcache⟩ := Prod.mk.inj heq
  have hroots : ([['r']] : List Str).Nodup := by decide
  exact ⟨s, hdirs, hcache, slots_match_tree hroots (System.reachable_of_run _ (.init started_init) hs)⟩

end Runs

/-! ## 6. The scans of the cache -/

/-- As long as nothing is cut, the buffers make no difference. -/
theorem rewriteCachedPaths_of_short {wlCache : List Watch} {p name p' name' : Str}
    (h : DtreeScans.Short wlCache (child p name) (child p' name')) :
    DtreeScans.rewriteCachedPaths wlCache p name p' name' =
      rewriteCachedPaths wlCache p name p' name' := by
  rw [DtreeScans.rewriteCachedPaths_eq_map h, rewriteCachedPaths_eq]

/-- A call of `inotify_rm_watch()` that succeeds: the watch was active, and is not any more. -/
theorem inactive_of_inotifyRmWatch {i i' : Instance} {wd : ℤ} (h : i.inotifyRmWatch wd = some i') :
    i.active wd = true ∧ ∀ wd', wd' = wd ∨ i.active wd' = false → i'.active wd' = false := by
  obtain ⟨hactive, h⟩ := Option.ite_none_right_eq_some.mp h
  refine ⟨hactive, ?_⟩
  intro wd' hwd'
  rw [← Option.some.inj h, Instance.active, DtreeWorld.any_filter_ne, Bool.and_eq_false_iff]
  exact hwd'.imp (fun heq => by simp [heq]) fun hinactive => hinactive

/-- A world in which `inotify_rm_watch()` fails here and there is one pattern of failures. The slots
still to come are induced on; a watch that was removed is not active any more, so that a second
attempt fails in both. -/
theorem zapSlots_scans (w : World) (pn : Str) (js : List ℕ) :
    ∀ {t : DtreeWorld.State} {z : DtreeScans.Zap}, z.wlCache = t.wlCache →
      (∀ wd ∈ z.removed, t.inotify.active wd = false) →
      ∃ fails, (DtreeScans.zapLoop fails pn js z).1.wlCache = (DtreeWorld.zapSlots w pn js t).1.wlCache ∧
        (DtreeScans.zapLoop fails pn js z).2 = (DtreeWorld.zapSlots w pn js t).2.map (z.cnt + ·) := by
  induction js with
  | nil => exact fun hcache _ => ⟨fun _ => false, hcache, rfl⟩
  | cons j js ih =>
    intro t z hcache hremoved
    simp only [DtreeScans.zapLoop, DtreeWorld.zapSlots, hcache]
    cases t.wlCache[j]? with
    | none => exact ⟨fun _ => false, hcache, rfl⟩
    | some a =>
      dsimp only
      split
      · have hbefore : ∀ wd ∈ z.removed, (t.changes (w.rmWatch a.wd).1).inotify.active wd = false :=
          fun wd hwd => DtreeWorld.inactive_changes _ (hremoved wd hwd)
        split
        · -- every call fails from here on, and this is the last one
          refine ⟨fun _ => true, ?_⟩
          rw [if_pos (by rw [DtreeScans.rmWatchFails, Bool.true_or])]
          exact ⟨rfl, rfl⟩
        · rename_i i hrm
          obtain ⟨-, hrm⟩ := Option.ite_none_left_eq_some.mp hrm
          obtain ⟨hactive, hinactive⟩ := inactive_of_inotifyRmWatch hrm
          obtain ⟨fails, hslots, hcnt⟩ := @ih { t.changes (w.rmWatch a.wd).1 with
              inotify := i
              wlCache := markCacheSlotEmpty (t.changes (w.rmWatch a.wd).1).wlCache j }
            ⟨markCacheSlotEmpty t.wlCache j, z.calls + 1, z.removed ++ [a.wd], z.cnt + 1⟩ rfl (by
              intro wd hwd
              refine hinactive wd ?_
              exact (List.mem_append.mp hwd).symm.imp List.mem_singleton.mp (hbefore wd))
          refine ⟨fun n => if n = z.calls then false else fails n, ?_⟩
          have hnot : a.wd ∉ z.removed := fun hmem =>
            Bool.noConfusion (hactive.symm.trans (hbefore _ hmem))
          rw [if_neg (by simp [DtreeScans.rmWatchFails, hnot])]
          have hcongr := @DtreeScans.zapLoop_congr (fun n => if n = z.calls then false else fails n) pn
            fails js ⟨markCacheSlotEmpty t.wlCache j, z.calls + 1, z.removed ++ [a.wd], z.cnt + 1⟩
            fun n hn => if_neg (Nat.ne_of_gt hn)
          rw [hcongr]
          refine ⟨hslots, hcnt.trans ?_⟩
          rw [Option.map_map]
          exact congrArg (Option.map · _) (funext fun n => by dsimp only [Function.comp]; omega)
      · exact ih hcache hremoved

/-- What `zapSubtree()` leaves of the slots in any world: all those of the subtree are emptied, or
those in front of the first whose watch could not be removed. -/
theorem wlCache_zapSubtree (w : World) (t : DtreeWorld.State) (path : Str) :
    (∀ cnt, (DtreeWorld.zapSubtree w t path).2 = some cnt →
      (DtreeWorld.zapSubtree w t path).1.wlCache = DtreeScans.emptied path t.wlCache ∧
        cnt = (DtreeScans.subtreeWds path t.wlCache).length) ∧
    ((DtreeWorld.zapSubtree w t path).2 = none → ∃ before a after, t.wlCache = before ++ a :: after ∧
      DtreeScans.InSubtree path a ∧
        (DtreeWorld.zapSubtree w t path).1.wlCache = DtreeScans.emptied path before ++ a :: after) := by
  obtain ⟨fails, hslots, hcnt⟩ := @zapSlots_scans w path (List.range t.wlCache.length) t
    ⟨t.wlCache, 0, [], 0⟩ rfl fun _ hwd => absurd hwd List.not_mem_nil
  simp only [Nat.zero_add, Option.map_id'] at hcnt
  have hends := @DtreeScans.zapLoop_range_ends fails path t.wlCache
  rw [DtreeWorld.zapSubtree, ← hslots, ← hcnt]
  revert hends
  generalize DtreeScans.zapLoop fails path _ _ = r
  intro hends
  cases hends with
  | all hnodup =>
    refine ⟨?_, fun h => nomatch h⟩
    intro cnt h
    exact ⟨List.append_nil _, (Option.some.inj h).symm⟩
  | failed before a after hslots hnodup ha hfails =>
    exact ⟨fun _ h => (nomatch h), fun _ => ⟨before, a, after, hslots, ha, rfl⟩⟩

end Tlpi.DtreeRefines
