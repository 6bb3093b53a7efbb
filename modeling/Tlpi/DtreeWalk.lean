/-
The walks of `inotify_dtree`: what `watchDir()` adds to the watches and to the cache, and
that `reinitialize()` builds a cache that is right.

`Walk paths s s'` says what has come to pass between two states in which the directories
at `paths` have been visited. It composes, so that one visit (`traverseTree()`), one walk
(`watchDir()`) and the walks of all roots (`reinitialize()`) are the same statement with
longer and longer lists.
-/
import Tlpi.DtreeOperations

set_option autoImplicit false

namespace Tlpi.InotifyDtree

open Tlpi.Pathname Tlpi.Inotify

/-! ## Visiting directories -/

/-- From `s` to `s'`, the directories at `paths` have been watched and cached, unless they
were watched before; everything else is as it was. -/
structure Walk (paths : List Str) (s s' : State) : Prop where
  kernel : s'.kernel = { s.kernel with watch := s'.kernel.watch, nextWd := s'.kernel.nextWd }
  rootDirPaths : s'.rootDirPaths = s.rootDirPaths
  nextWd : s.kernel.nextWd ≤ s'.kernel.nextWd
  view_old : ∀ w < s.kernel.nextWd, view s'.wlCache w = view s.wlCache w
  watch_old : ∀ i w, s.kernel.watch i = some w → s'.kernel.watch i = some w
  watch_new : ∀ i w, s'.kernel.watch i = some w → s.kernel.watch i = some w ∨
    s.kernel.watch i = none ∧ s.kernel.nextWd ≤ w ∧
      ∃ d ∈ s.kernel.dirs, d.ino = i ∧ d.path ∈ paths ∧ view s'.wlCache w = some d.path
  view_new : ∀ w P, s.kernel.nextWd ≤ w → view s'.wlCache w = some P →
    P ∈ paths ∧ ∃ d ∈ s.kernel.dirs, d.path = P ∧ s'.kernel.watch d.ino = some w
  watched : ∀ d ∈ s.kernel.dirs, d.path ∈ paths → s'.kernel.watch d.ino ≠ none

theorem Walk.dirs {paths : List Str} {s s' : State} (h : Walk paths s s') :
    s'.kernel.dirs = s.kernel.dirs := by
  rw [h.kernel]

/-- Nothing visited, or nothing there. -/
theorem walk_self {argv : List Str} {s : State} (hl : Linked argv s) {paths : List Str}
    (h : ∀ d ∈ s.kernel.dirs, d.path ∈ paths → s.kernel.watch d.ino ≠ none) : Walk paths s s := by
  refine ⟨rfl, rfl, Int.le_refl _, fun _ _ => rfl, fun _ _ h => h, fun _ _ h => Or.inl h, ?_, h⟩
  intro w P hw hP
  have := hl.cache_lt w (fun hnone => nomatch hP.symm.trans hnone)
  omega

theorem Walk.trans {argv : List Str} {paths paths' : List Str} {s s' s'' : State} (hl : Linked argv s')
    (h : Walk paths s s') (h' : Walk paths' s' s'') : Walk (paths ++ paths') s s'' := by
  refine ⟨?_, h'.rootDirPaths.trans h.rootDirPaths, Int.le_trans h.nextWd h'.nextWd, ?_, ?_, ?_, ?_, ?_⟩
  · rw [h'.kernel, h.kernel]
  · intro w hw
    rw [h'.view_old w (Int.lt_of_lt_of_le hw h.nextWd), h.view_old w hw]
  · exact fun i w hw => h'.watch_old i w (h.watch_old i w hw)
  · intro i w hw
    rcases h'.watch_new i w hw with hw' | ⟨hnone, hle, d, hd, hdi, hpath, hview⟩
    · rcases h.watch_new i w hw' with hw'' | ⟨hnone, hle, d, hd, hdi, hpath, hview⟩
      · exact Or.inl hw''
      · refine Or.inr ⟨hnone, hle, d, hd, hdi, List.mem_append_left _ hpath, ?_⟩
        -- the second walk leaves alone what the first one cached
        rw [h'.view_old w (hl.watch_lt i w hw').2, hview]
    · refine Or.inr ⟨?_, Int.le_trans h.nextWd hle, d, h.dirs ▸ hd, hdi, List.mem_append_right _ hpath, hview⟩
      cases hi : s.kernel.watch i with
      | none => rfl
      | some w' => exact nomatch hnone.symm.trans (h.watch_old i w' hi)
  · intro w P hw hP
    by_cases hlt : w < s'.kernel.nextWd
    · rw [h'.view_old w hlt] at hP
      obtain ⟨hmem, d, hd, hpath, hwatch⟩ := h.view_new w P hw hP
      exact ⟨List.mem_append_left _ hmem, d, hd, hpath, h'.watch_old _ w hwatch⟩
    · obtain ⟨hmem, d, hd, h⟩ := h'.view_new w P (Int.not_lt.mp hlt) hP
      exact ⟨List.mem_append_right _ hmem, d, ‹Walk paths s s'›.dirs ▸ hd, h⟩
  · intro d hd hpath hnone
    rcases List.mem_append.mp hpath with hpath | hpath
    · cases hw : s'.kernel.watch d.ino with
      | none => exact h.watched d hd hpath hw
      | some w => exact nomatch hnone.symm.trans (h'.watch_old _ w hw)
    · exact h'.watched d (h.dirs.symm ▸ hd) hpath hnone

theorem tree_of_dirs {argv : List Str} {k k' : Kernel} (ht : Tree argv k) (hdirs : k'.dirs = k.dirs)
    (hino : k'.nextIno = k.nextIno) : Tree argv k' := by
  refine ⟨?_, ?_, ?_, ?_, ?_⟩ <;> simp only [hdirs, hino]
  exacts [ht.ino_inj, ht.path_inj, ht.ino_lt, ht.between, ht.roots]

/-- One directory is visited. -/
theorem walk_traverseTree {argv : List Str} {s : State} (hl : Linked argv s) (P : Str) :
    Linked argv (traverseTree s P) ∧ Walk [P] s (traverseTree s P) := by
  unfold traverseTree Kernel.inotifyAddWatch
  cases hf : s.kernel.find P with
  | none =>
    refine ⟨hl, walk_self hl ?_⟩
    intro d hd hpath
    exact absurd (List.mem_singleton.mp hpath) (find_eq_none_iff.mp hf d hd)
  | some d =>
    have hd : d ∈ s.kernel.dirs := List.mem_of_find?_eq_some hf
    have hpath : d.path = P := by simpa only [decide_eq_true_eq] using List.find?_some hf
    have honly : ∀ e ∈ s.kernel.dirs, e.path ∈ [P] → e = d := fun e he heP =>
      hl.tree.path_inj e he d hd ((List.mem_singleton.mp heP).trans hpath.symm)
    cases hw : s.kernel.watch d.ino with
    | some w =>
      -- it is watched already, and so it is in the cache
      have hfound : (findWatch s.wlCache w).isSome := by
        rw [Option.isSome_iff_ne_none]
        intro hnone
        have hpos := (hl.watch_lt d.ino w hw).1
        exact hl.watch_cached d.ino w hw
          ((findWatch_spec hl.distinct (Int.le_of_lt hpos)).1.mp hnone)
      simp only [hw, hfound, if_true]
      refine ⟨hl, walk_self hl ?_⟩
      intro e he heP hnone
      rw [honly e he heP, hw] at hnone
      exact nomatch hnone
    | none =>
      have hpos : 0 ≤ s.kernel.nextWd := Int.le_of_lt hl.nextWd
      have hview : view s.wlCache s.kernel.nextWd = none := by
        by_contra hne
        exact absurd (hl.cache_lt _ hne) (Int.lt_irrefl _)
      have hnot : (findWatch s.wlCache s.kernel.nextWd).isSome = false := by
        rw [(findWatch_spec hl.distinct hpos).1.mpr hview]
        rfl
      simp only [hw, hnot, Bool.false_eq_true, if_false]
      have hadd := view_addWatchToCache hl.distinct hpos P hview
      have hupd : ∀ i w, Function.update s.kernel.watch d.ino (some s.kernel.nextWd) i = some w ↔
          (i = d.ino ∧ w = s.kernel.nextWd) ∨ s.kernel.watch i = some w := by
        intro i w
        rcases eq_or_ne i d.ino with rfl | hne
        · rw [Function.update_self, hw, Option.some.injEq]
          simp only [true_and, reduceCtorEq, or_false, eq_comm]
        · rw [Function.update_of_ne hne]
          exact (or_iff_right fun h => hne h.1).symm
      have hlt : ∀ i, s.kernel.watch i ≠ some s.kernel.nextWd := fun i hi =>
        absurd (hl.watch_lt i _ hi).2 (Int.lt_irrefl _)
      constructor
      · refine ⟨tree_of_dirs hl.tree rfl rfl, hl.rootDirPaths, distinct_addWatchToCache hl.distinct P hview,
          Int.lt_add_one_of_le hpos, hl.nextCookie, ?_, ?_, ?_, ?_, ?_⟩
        · intro i w hi
          rcases (hupd i w).mp hi with ⟨rfl, -⟩ | hi
          · exact ⟨d, hd, rfl⟩
          · exact hl.watch_dir i w hi
        · intro i w hi
          rcases (hupd i w).mp hi with ⟨-, rfl⟩ | hi
          · exact ⟨hl.nextWd, Int.lt_succ _⟩
          · exact ⟨(hl.watch_lt i w hi).1, Int.lt_add_one_of_le (Int.le_of_lt (hl.watch_lt i w hi).2)⟩
        · intro i j w hi hj
          rcases (hupd i w).mp hi with ⟨rfl, rfl⟩ | hi <;> rcases (hupd j _).mp hj with ⟨rfl, h⟩ | hj
          · rfl
          · exact absurd hj (hlt j)
          · rw [h] at hi
            exact absurd hi (hlt i)
          · exact hl.watch_inj i j w hi hj
        · intro i w hi
          dsimp only
          rw [hadd]
          rcases (hupd i w).mp hi with ⟨-, rfl⟩ | hi
          · rw [if_pos rfl]
            exact fun h => nomatch h
          · rw [if_neg fun h : w = s.kernel.nextWd => hlt i (h ▸ hi)]
            exact hl.watch_cached i w hi
        · intro w hne
          dsimp only at hne
          rw [hadd] at hne
          split at hne
          · rename_i heq
            rw [heq]
            exact Int.lt_succ _
          · exact Int.lt_add_one_of_le (Int.le_of_lt (hl.cache_lt w hne))
      · refine ⟨rfl, rfl, Int.le_of_lt (Int.lt_succ _), ?_, ?_, ?_, ?_, ?_⟩
        · intro w hlt
          dsimp only
          rw [hadd, if_neg (Int.ne_of_lt hlt)]
        · intro i w hi
          exact (hupd i w).mpr (Or.inr hi)
        · intro i w hi
          rcases (hupd i w).mp hi with ⟨rfl, rfl⟩ | hi
          · refine Or.inr ⟨hw, Int.le_refl _, d, hd, rfl, List.mem_singleton.mpr hpath, ?_⟩
            dsimp only
            rw [hadd, if_pos rfl, hpath]
          · exact Or.inl hi
        · intro w Q hle hQ
          dsimp only at hQ
          rw [hadd] at hQ
          split at hQ
          · rename_i heq
            rw [Option.some.injEq] at hQ
            refine ⟨List.mem_singleton.mpr hQ.symm, d, hd, hpath.trans hQ, ?_⟩
            exact (hupd d.ino w).mpr (Or.inl ⟨rfl, heq⟩)
          · have := hl.cache_lt w (fun hnone => nomatch hQ.symm.trans hnone)
            omega
        · intro e he heP hnone
          rw [honly e he heP] at hnone
          exact nomatch ((hupd d.ino _).mpr (Or.inl ⟨rfl, rfl⟩)).symm.trans hnone

/-- Any list of directories is visited. -/
theorem walk_foldl {argv : List Str} : ∀ (paths : List Str) {s : State}, Linked argv s →
    Linked argv (paths.foldl traverseTree s) ∧ Walk paths s (paths.foldl traverseTree s) := by
  intro paths
  induction paths with
  | nil => exact fun hl => ⟨hl, walk_self hl fun _ _ h => absurd h List.not_mem_nil⟩
  | cons P paths ih =>
    intro s hl
    obtain ⟨hl', hwalk⟩ := walk_traverseTree hl P
    obtain ⟨hl'', hrest⟩ := ih hl'
    exact ⟨hl'', hwalk.trans hl' hrest⟩

theorem mem_nftw {k : Kernel} {F P : Str} : P ∈ k.nftw F ↔
    (∃ d ∈ k.dirs, d.path = F) ∧ ∃ d ∈ k.dirs, Under F d.path ∧ d.path = P := by
  unfold Kernel.nftw
  split
  · rename_i h
    simp only [List.mem_map, List.mem_filter, decide_eq_true_eq, and_assoc]
    exact (and_iff_right (find_isSome_iff.mp h)).symm
  · rename_i h
    refine iff_of_false List.not_mem_nil fun hP => h ?_
    exact find_isSome_iff.mpr hP.1

/-! ## `reinitialize()` -/

/-- The walks of a list of roots visit everything under them. -/
theorem walk_roots {argv : List Str} : ∀ (roots : List Str) {s : State}, Linked argv s →
    (∀ r ∈ roots, r ∈ argv) →
    Linked argv (roots.foldl watchSubtree s) ∧
      ∃ paths, Walk paths s (roots.foldl watchSubtree s) ∧
        ∀ P, P ∈ paths ↔ ∃ d ∈ s.kernel.dirs, Inside roots d.path ∧ d.path = P := by
  intro roots
  induction roots with
  | nil =>
    intro s hl _
    refine ⟨hl, [], walk_self hl fun _ _ h => absurd h List.not_mem_nil, fun P => ?_⟩
    refine iff_of_false List.not_mem_nil ?_
    rintro ⟨d, -, ⟨r, hr, -⟩, -⟩
    exact absurd hr List.not_mem_nil
  | cons r roots ih =>
    intro s hl hroots
    obtain ⟨hl', hwalk⟩ := walk_foldl (s.kernel.nftw r) hl
    obtain ⟨hl'', paths, hrest, hpaths⟩ := ih hl' fun r' hr' => hroots r' (List.mem_cons_of_mem r hr')
    refine ⟨hl'', _, hwalk.trans hl' hrest, fun P => ?_⟩
    rw [List.mem_append, mem_nftw, hpaths, hwalk.dirs]
    have hr := hl.tree.roots r (hroots r List.mem_cons_self)
    constructor
    · rintro (⟨-, d, hd, hunder, rfl⟩ | ⟨d, hd, ⟨r', hr', hunder⟩, rfl⟩)
      · exact ⟨d, hd, ⟨r, List.mem_cons_self, hunder⟩, rfl⟩
      · exact ⟨d, hd, ⟨r', List.mem_cons_of_mem r hr', hunder⟩, rfl⟩
    · rintro ⟨d, hd, ⟨r', hr', hunder⟩, rfl⟩
      rcases List.mem_cons.mp hr' with rfl | hr'
      · exact Or.inl ⟨hr, d, hd, hunder, rfl⟩
      · exact Or.inr ⟨d, hd, ⟨r', hr', hunder⟩, rfl⟩

/-- **A rebuilt cache is right.** -/
theorem inv_reinitialize {argv : List Str} {s : State} (ht : Tree argv s.kernel)
    (hroots : s.rootDirPaths = argv.map some) (hcookie : 0 < s.kernel.nextCookie) :
    Inv argv ( reinitialize s) := by
  have hempty : ∀ w, view [] w = none := fun w => by simp [view]
  have hl : Linked argv { s with kernel := s.kernel.inotifyInit, wlCache := [] } := by
    refine ⟨tree_of_dirs ht rfl rfl, hroots, ?_, Int.one_pos, hcookie, ?_, ?_, ?_, ?_, ?_⟩
    · intro i j wd P Q _ hi
      simp only [List.getElem?_nil, reduceCtorEq] at hi
    · exact fun i w h => nomatch h
    · exact fun i w h => nomatch h
    · exact fun i j w h => nomatch h
    · exact fun i w h => nomatch h
    · exact fun w h => absurd (hempty w) h
  have hargv : s.rootDirPaths.filterMap id = argv := by
    rw [hroots, List.filterMap_map]
    exact List.filterMap_some
  unfold reinitialize
  rw [hargv]
  obtain ⟨hl', paths, hwalk, hpaths⟩ := walk_roots argv hl fun _ hr => hr
  have hkernel := hwalk.kernel
  -- every cached watch is one of the new ones
  have hnew : ∀ w P, view (argv.foldl watchSubtree
      { s with kernel := s.kernel.inotifyInit, wlCache := [] }).wlCache w = some P →
      s.kernel.inotifyInit.nextWd ≤ w := by
    intro w P hP
    by_contra hlt
    rw [hwalk.view_old w (Int.not_le.mp hlt), hempty] at hP
    exact nomatch hP
  refine ⟨[], ⟨hl', ?_, ?_, ?_, .nil, ?_⟩, Or.inr ⟨trivial, .nil, ?_, ?_, ?_⟩⟩
  · rw [hkernel]
    rfl
  · exact fun x hx => absurd hx List.not_mem_nil
  · exact fun x hx => absurd hx List.not_mem_nil
  · exact fun q hq => absurd hq List.not_mem_nil
  · intro w P hP
    obtain ⟨hmem, -⟩ := hwalk.view_new w P (hnew w P hP) hP
    obtain ⟨d, -, hin, rfl⟩ := (hpaths P).mp hmem
    exact hin
  · intro w P hP
    obtain ⟨-, d, hd, hpath, hw⟩ := hwalk.view_new w P (hnew w P hP) hP
    exact ⟨d, hwalk.dirs.symm ▸ hd, hpath, hw⟩
  · intro d hd hin
    rw [hwalk.dirs] at hd
    left
    cases hw : (argv.foldl watchSubtree
        { s with kernel := s.kernel.inotifyInit, wlCache := [] }).kernel.watch d.ino with
    | none => exact absurd hw (hwalk.watched d hd ((hpaths _).mpr ⟨d, hd, hin, rfl⟩))
    | some w =>
      rcases hwalk.watch_new d.ino w hw with h | ⟨-, -, d', hd', hino, -, hview⟩
      · exact nomatch h
      · rw [ht.ino_inj d' hd' d hd hino] at hview
        exact ⟨w, rfl, hview⟩

end Tlpi.InotifyDtree
