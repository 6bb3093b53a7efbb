/-
The invariant of `inotify_dtree`, and that the operations of the other process keep it.

## The invariant

`Base` is what holds whatever happens: the tree is a tree, watches and cache slots belong
together, and the queue is made up of changes. On top of it the queue is `Doomed`, and the cache will be rebuilt,
or the cache and the queue are `Good`: the replayed cache holds nothing but directories of
the monitored trees, at their present pathnames (`Good.actual`), and every other directory
there will be found by a walk (`Good.covered`).

## Which renames are safe

`mkdir()` and `rmdir()` keep the invariant whatever is in the queue. A rename does not
always, because its events can be queued behind the announcement of a directory that it
carries away, or before a walk that meets a directory under its former watch. `SafeRename` lists
what is to be asked of it; each item fails in a run that ends with a wrong cache.
-/
import Mathlib.Data.List.Pairwise
import Tlpi.DtreeQueue
import Tlpi.DtreeTree

set_option autoImplicit false

namespace Tlpi.InotifyDtree

open Tlpi.Pathname Tlpi.Inotify

/-! ## The invariant -/

/-- The events of a change, as the kernel queues them. -/
def Change.Shape : Change → Prop
  | .made q => q.ev.mask = IN_CREATE ||| IN_ISDIR ∨
      q.ev.mask = IN_MOVED_TO ||| IN_ISDIR ∧ q.ev.cookie ≠ 0
  | .gone q => q.ev.mask = IN_DELETE_SELF
  | .moved q q' => q.ev.mask = IN_MOVED_FROM ||| IN_ISDIR ∧ q'.ev.mask = IN_MOVED_TO ||| IN_ISDIR ∧
      q'.ev.cookie = q.ev.cookie
  | .out q => q.ev.mask = IN_MOVED_FROM ||| IN_ISDIR ∧ q.ev.cookie ≠ 0
  | .ignored q => q.ev.mask = IN_IGNORED

/-- Two changes do not share a cookie. -/
def OwnCookie (x y : Change) : Prop :=
  ∀ q ∈ x.events, ∀ q' ∈ y.events, q.ev.cookie ≠ 0 → q.ev.cookie ≠ q'.ev.cookie

/-- Watches and cache slots belong together. -/
structure Linked (argv : List Str) (s : State) : Prop where
  tree : Tree argv s.kernel
  rootDirPaths : s.rootDirPaths = argv.map some
  distinct : Distinct s.wlCache
  nextWd : 0 < s.kernel.nextWd
  nextCookie : 0 < s.kernel.nextCookie
  watch_dir : ∀ i w, s.kernel.watch i = some w → ∃ d ∈ s.kernel.dirs, d.ino = i
  watch_lt : ∀ i w, s.kernel.watch i = some w → 0 < w ∧ w < s.kernel.nextWd
  watch_inj : ∀ i j w, s.kernel.watch i = some w → s.kernel.watch j = some w → i = j
  watch_cached : ∀ i w, s.kernel.watch i = some w → view s.wlCache w ≠ none
  cache_lt : ∀ w, view s.wlCache w ≠ none → w < s.kernel.nextWd

structure Base (argv : List Str) (s : State) (changes : List Change) : Prop extends Linked argv s where
  queue : s.kernel.queue = changes.flatMap Change.events
  shape : ∀ x ∈ changes, x.Shape
  events : ∀ x ∈ changes, ∀ q ∈ x.events, 0 ≤ q.ev.wd ∧ q.ev.wd < s.kernel.nextWd ∧
    q.ev.cookie < s.kernel.nextCookie
  cookies : changes.Pairwise OwnCookie
  /-- A directory that has gone is not watched any more. -/
  dead : ∀ q, .gone q ∈ changes → ∀ i, s.kernel.watch i ≠ some q.ev.wd

structure Good (argv : List Str) (k : Kernel) (c : ℤ → Option Str) (changes : List Change) : Prop where
  sound : Sound argv c changes
  apart : changes.Pairwise Apart
  inside : ∀ w P, c w = some P → Inside argv P
  actual : ∀ w P, replay c changes w = some P → ∃ d ∈ k.dirs, d.path = P ∧ k.watch d.ino = some w
  covered : ∀ d ∈ k.dirs, Inside argv d.path →
    (∃ w, k.watch d.ino = some w ∧ replay c changes w = some d.path) ∨
      Covered c changes (k.watch d.ino) d.path

/-- The cache will be rebuilt, or is good. -/
def Fine (argv : List Str) (k : Kernel) (c : ℤ → Option Str) (changes : List Change) : Prop :=
  Doomed argv c changes ∨ Good argv k c changes

/-- **The invariant.** -/
def Inv (argv : List Str) (s : State) : Prop :=
  ∃ changes, Base argv s changes ∧ Fine argv s.kernel (view s.wlCache) changes

theorem Base.wd_lt {argv : List Str} {s : State} {changes : List Change} (hb : Base argv s changes) :
    ∀ x ∈ changes, ∀ w ∈ x.wds, w < s.kernel.nextWd := by
  intro x hx w hw
  obtain ⟨q, hq, rfl⟩ := List.mem_map.mp hw
  exact (hb.events x hx q hq).2.1

/-! ## Announcements in the queue -/

/-- The pathnames that the announcements in the queue are about: `IN_CREATE`, and an `IN_MOVED_TO`
that has no `IN_MOVED_FROM` with it. -/
def announced (queue : List Queued) : List Str :=
  (queue.filter fun q => has q.ev.mask IN_CREATE || has q.ev.mask IN_MOVED_TO &&
    !queue.any fun q' => has q'.ev.mask IN_MOVED_FROM && q'.ev.cookie == q.ev.cookie).map Queued.place

instance : Std.Symm OwnCookie where
  symm _ _ h q hq q' hq' hne heq := h q' hq' q hq (heq ▸ hne) heq.symm

theorem mem_announced {argv : List Str} {s : State} {changes : List Change} (hb : Base argv s changes)
    {q : Queued} (hq : .made q ∈ changes) : q.place ∈ announced s.kernel.queue := by
  unfold announced
  refine List.mem_map.mpr ⟨q, List.mem_filter.mpr ⟨?_, ?_⟩, rfl⟩
  · rw [hb.queue]
    exact List.mem_flatMap.mpr ⟨_, hq, List.mem_cons_self⟩
  · rcases hb.shape _ hq with hmask | ⟨hmask, hcookie⟩
    · rw [hmask]
      rfl
    · rw [hmask, Bool.or_eq_true, Bool.and_eq_true]
      right
      refine ⟨rfl, ?_⟩
      rw [Bool.not_eq_true', List.any_eq_false]
      intro q' hq' hand
      rw [Bool.and_eq_true, beq_iff_eq] at hand
      rw [hb.queue] at hq'
      obtain ⟨x, hx, hq'⟩ := List.mem_flatMap.mp hq'
      by_cases hxq : x = .made q
      · -- the event itself is not an `IN_MOVED_FROM`
        rw [hxq] at hq'
        rw [List.mem_singleton.mp hq', hmask] at hand
        exact absurd hand.1 (by decide)
      · have hown := List.Pairwise.forall hb.cookies hq hx (Ne.symm hxq)
        exact hown q List.mem_cons_self q' hq' hcookie hand.2.symm

/-- Something at or under `S` is watched. -/
def Carries (k : Kernel) (S : Str) : Prop := ∃ d ∈ k.dirs, Under S d.path ∧ k.watch d.ino ≠ none

/-- **A rename that does no harm**, of `S` in the directory `p` to `T` in the directory `p'`. -/
structure SafeRename (argv : List Str) (k : Kernel) (p p' S T : Str) : Prop where
  /-- Within the watched trees: nothing at, above or below `S` is announced. -/
  within : k.wdAt p ≠ none → k.wdAt p' ≠ none → ∀ F ∈ announced k.queue, ¬Under F S ∧ ¬Under S F
  /-- Out of the watched trees: nothing strictly above `S` is announced. -/
  outward : k.wdAt p ≠ none → k.wdAt p' = none → ∀ F ∈ announced k.queue, Under F S → F = S
  /-- Where something watched is carried away, the old parent is watched, -/
  source : Carries k S → Inside argv S → k.wdAt p ≠ none
  /-- and so is the new one; and when it comes from outside, still watched, nothing at or
  above `T` is announced. -/
  target : Carries k S → Inside argv T →
    k.wdAt p' ≠ none ∧ (k.wdAt p = none → ∀ F ∈ announced k.queue, ¬Under F T)
  /-- A watched directory is only replaced from a watched one. -/
  replaced : k.wdAt T ≠ none → k.wdAt p ≠ none

instance (k : Kernel) (S : Str) : Decidable (Carries k S) :=
  inferInstanceAs (Decidable (∃ d ∈ k.dirs, Under S d.path ∧ k.watch d.ino ≠ none))

set_option synthInstance.maxSize 512 in
instance (argv : List Str) (k : Kernel) (p p' S T : Str) : Decidable (SafeRename argv k p p' S T) :=
  decidable_of_iff
    ((k.wdAt p ≠ none → k.wdAt p' ≠ none → ∀ F ∈ announced k.queue, ¬Under F S ∧ ¬Under S F) ∧
      (k.wdAt p ≠ none → k.wdAt p' = none → ∀ F ∈ announced k.queue, Under F S → F = S) ∧
      (Carries k S → Inside argv S → k.wdAt p ≠ none) ∧
      (Carries k S → Inside argv T →
        k.wdAt p' ≠ none ∧ (k.wdAt p = none → ∀ F ∈ announced k.queue, ¬Under F T)) ∧
      (k.wdAt T ≠ none → k.wdAt p ≠ none))
    ⟨fun h => ⟨h.1, h.2.1, h.2.2.1, h.2.2.2.1, h.2.2.2.2⟩,
      fun h => ⟨h.within, h.outward, h.source, h.target, h.replaced⟩⟩

/-- **The condition on a step.** -/
def Safe (argv : List Str) (s : State) : Act → Prop
  | .rename p name p' name' => SafeRename argv s.kernel p p' (child p name) (child p' name')
  | _ => True

instance (argv : List Str) (s : State) : (a : Act) → Decidable (Safe argv s a)
  | .rename p name p' name' =>
    inferInstanceAs (Decidable (SafeRename argv s.kernel p p' (child p name) (child p' name')))
  | .mkdir _ _ => .isTrue trivial
  | .rmdir _ => .isTrue trivial
  | .process _ _ => .isTrue trivial

/-! ## Changes that an operation adds -/

/-- An operation that removes no more than watches and adds changes of its own. -/
theorem Base.operate {argv : List Str} {s : State} {changes added : List Change} {k' : Kernel}
    (hb : Base argv s changes) (htree : Tree argv k')
    (hwatch : ∀ i w, k'.watch i = some w → s.kernel.watch i = some w ∧ ∃ d ∈ k'.dirs, d.ino = i)
    (hnextWd : k'.nextWd = s.kernel.nextWd) (hnextCookie : s.kernel.nextCookie ≤ k'.nextCookie)
    (hqueue : k'.queue = s.kernel.queue ++ added.flatMap Change.events)
    (hshape : ∀ x ∈ added, x.Shape)
    (hevents : ∀ x ∈ added, ∀ q ∈ x.events, (∃ i, s.kernel.watch i = some q.ev.wd) ∧
      (q.ev.cookie = 0 ∨ s.kernel.nextCookie ≤ q.ev.cookie) ∧ q.ev.cookie < k'.nextCookie)
    (hcookies : added.Pairwise OwnCookie)
    (hdead : ∀ q, .gone q ∈ added → ∀ i, k'.watch i ≠ some q.ev.wd) :
    Base argv { s with kernel := k' } (changes ++ added) := by
  refine ⟨⟨htree, hb.rootDirPaths, hb.distinct, ?_, ?_, ?_, ?_, ?_, ?_, ?_⟩, ?_, ?_, ?_, ?_, ?_⟩
  · exact hnextWd ▸ hb.nextWd
  · exact Nat.lt_of_lt_of_le hb.nextCookie hnextCookie
  · exact fun i w hw => (hwatch i w hw).2
  · exact fun i w hw => hnextWd ▸ hb.watch_lt i w (hwatch i w hw).1
  · exact fun i j w hi hj => hb.watch_inj i j w (hwatch i w hi).1 (hwatch j w hj).1
  · exact fun i w hw => hb.watch_cached i w (hwatch i w hw).1
  · exact fun w hw => hnextWd ▸ hb.cache_lt w hw
  · rw [List.flatMap_append, ← hb.queue]
    exact hqueue
  · intro x hx
    exact (List.mem_append.mp hx).elim (hb.shape x) (hshape x)
  · intro x hx q hq
    rcases List.mem_append.mp hx with hx | hx
    · obtain ⟨h₁, h₂, h₃⟩ := hb.events x hx q hq
      exact ⟨h₁, hnextWd ▸ h₂, Nat.lt_of_lt_of_le h₃ hnextCookie⟩
    · obtain ⟨⟨i, hi⟩, -, hlt⟩ := hevents x hx q hq
      obtain ⟨hpos, hwd⟩ := hb.watch_lt i _ hi
      exact ⟨Int.le_of_lt hpos, hnextWd ▸ hwd, hlt⟩
  · refine List.pairwise_append.mpr ⟨hb.cookies, hcookies, ?_⟩
    intro x hx y hy q hq q' hq' hne heq
    -- an older event has a cookie below the next one, and a new one has 0 or starts there
    have hlt := (hb.events x hx q hq).2.2
    rcases (hevents y hy q' hq').2.1 with h | h
    · exact hne (heq.trans h)
    · omega
  · intro q hq i hi
    rcases List.mem_append.mp hq with hq | hq
    · exact hb.dead q hq i (hwatch i _ hi).1
    · exact hdead q hq i hi

/-- The watch of a directory is in the replayed cache with the present pathname, or not at
all. -/
theorem Good.path_of_watch {argv : List Str} {s : State} {changes : List Change} {c : ℤ → Option Str}
    (hb : Base argv s changes) (hg : Good argv s.kernel c changes) {d : Dir} (hd : d ∈ s.kernel.dirs)
    {w : ℤ} (hw : s.kernel.watch d.ino = some w) {P : Str} (hP : replay c changes w = some P) :
    P = d.path := by
  obtain ⟨d', hd', rfl, hw'⟩ := hg.actual w P hP
  rw [hb.tree.ino_inj d' hd' d hd (hb.watch_inj _ _ w hw' hw)]

theorem Good.known_or_none {argv : List Str} {s : State} {changes : List Change} {c : ℤ → Option Str}
    (hb : Base argv s changes) (hg : Good argv s.kernel c changes) {d : Dir} (hd : d ∈ s.kernel.dirs)
    {w : ℤ} (hw : s.kernel.watch d.ino = some w) :
    replay c changes w = none ∨ replay c changes w = some d.path := by
  cases hP : replay c changes w with
  | none => exact Or.inl rfl
  | some P => exact Or.inr (by rw [hg.path_of_watch hb hd hw hP])

/-- A directory of the monitored trees that is not watched is going to be found. -/
theorem Good.covered_of_unwatched {argv : List Str} {k : Kernel} {changes : List Change}
    {c : ℤ → Option Str} (hg : Good argv k c changes) {d : Dir} (hd : d ∈ k.dirs)
    (hin : Inside argv d.path) (hw : k.watch d.ino = none) : Covered c changes none d.path := by
  rcases hg.covered d hd hin with ⟨w, hsome, -⟩ | h
  · rw [hw] at hsome
    exact nomatch hsome
  · rwa [hw] at h

theorem not_zapsOver {changes : List Change} (h : ∀ q, .out q ∉ changes) (P : Str) :
    ¬ZapsOver changes P := by
  rintro ⟨q, hq, -⟩
  exact h q hq

/-! ## `mkdir()` -/

/-- What `mkdir()` adds. -/
def madeChanges (wd : Option ℤ) (mask : BitVec 32) (cookie : ℕ) (name place : Str) : List Change :=
  match wd with
  | none => []
  | some wd => [.made ⟨⟨wd, mask, cookie, name⟩, place⟩]

theorem mem_madeChanges {wd : Option ℤ} {mask : BitVec 32} {cookie : ℕ} {name place : Str} {x : Change}
    (h : x ∈ madeChanges wd mask cookie name place) :
    ∃ w, wd = some w ∧ x = .made ⟨⟨w, mask, cookie, name⟩, place⟩ := by
  cases wd with
  | none => exact absurd h List.not_mem_nil
  | some w => exact ⟨w, rfl, List.mem_singleton.mp h⟩

theorem good_mkdir {argv : List Str} {s : State} {changes : List Change} {c : ℤ → Option Str}
    {k' : Kernel} {p name : Str} (hb : Base argv s changes) (hg : Good argv s.kernel c changes)
    (h : Made s.kernel k' p name) :
    Fine argv k' c (changes ++
      madeChanges (s.kernel.wdAt p) (IN_CREATE ||| IN_ISDIR) 0 name (child p name)) := by
  obtain ⟨hname, ⟨dp, hdp, rfl⟩, habsent, rfl⟩ := h
  -- the inode is a new one, and no watch can be on it
  have hnew : s.kernel.watch s.kernel.nextIno = none := by
    cases hw : s.kernel.watch s.kernel.nextIno with
    | none => rfl
    | some w =>
      obtain ⟨d, hd, hi⟩ := hb.watch_dir _ w hw
      exact absurd hi (Nat.ne_of_lt (hb.tree.ino_lt d hd))
  have hroot : child dp.path name ∉ argv := by
    intro hr
    obtain ⟨d, hd, heq⟩ := hb.tree.roots _ hr
    exact habsent d hd heq
  have hmem : ∀ d, d ∈ s.kernel.dirs → d ∈ s.kernel.dirs ++ [⟨s.kernel.nextIno, child dp.path name⟩] :=
    fun d hd => List.mem_append_left _ hd
  -- with no watch on the parent nothing is queued, and the new directory waits for whatever the
  -- parent waits for; with one, the event itself will have it visited
  rw [wdAt_of_mem hb.tree hdp]
  cases hw : s.kernel.watch dp.ino with
  | none =>
    right
    simp only [madeChanges, List.append_nil]
    refine ⟨hg.sound, hg.apart, hg.inside, ?_, ?_⟩
    · intro w P hP
      obtain ⟨d, hd, h⟩ := hg.actual w P hP
      exact ⟨d, hmem d hd, h⟩
    · intro d hd hin
      rcases List.mem_append.mp hd with hd | hd
      · exact hg.covered d hd hin
      · rw [List.mem_singleton.mp hd] at hin ⊢
        right
        rw [hnew]
        exact (hg.covered_of_unwatched hdp (inside_parent hname hroot hin) hw).deeper
          (under_child _ _)
  | some w =>
    simp only [madeChanges]
    rcases hg.known_or_none hb hdp hw with hnone | hknown
    · exact Or.inl (doomed_of_missing hg.sound (Or.inl hnone))
    · right
      refine ⟨sound_append hg.sound ⟨⟨dp.path, hknown, rfl⟩, trivial⟩, ?_, hg.inside, ?_, ?_⟩
      · refine List.pairwise_append.mpr ⟨hg.apart, List.pairwise_singleton _ _, ?_⟩
        intro x _ y hy
        rw [List.mem_singleton.mp hy]
        cases x <;> exact trivial
      · intro w P hP
        rw [replay_append] at hP
        obtain ⟨d, hd, h⟩ := hg.actual w P hP
        exact ⟨d, hmem d hd, h⟩
      · intro d hd hin
        rcases List.mem_append.mp hd with hd | hd
        · refine (hg.covered d hd hin).imp (fun h => ?_) fun h => ?_
          · rwa [replay_append]
          · exact h.append (not_zapsOver (by simp) _)
        · right
          rw [List.mem_singleton.mp hd, hnew]
          -- no slot can hold the pathname before: every slot's directory exists
          refine ⟨changes, _, [], rfl, ⟨Under.refl _, ?_, ?_⟩, nofun⟩
          · intro w' hP
            obtain ⟨d', hd', heq, -⟩ := hg.actual w' _ hP
            exact habsent d' hd' heq
          · exact not_zapsOver (by simp) _

theorem inv_mkdir {argv : List Str} {s : State} {k' : Kernel} {p name : Str} (hi : Inv argv s)
    (h : s.kernel.mkdir p name = some k') : Inv argv { s with kernel := k' } := by
  obtain ⟨changes, hb, hfine⟩ := hi
  have hmade := mkdir_spec h
  refine ⟨changes ++ madeChanges (s.kernel.wdAt p) (IN_CREATE ||| IN_ISDIR) 0 name (child p name),
    ?_, ?_⟩
  · have htree := hmade.tree hb.tree
    obtain ⟨-, ⟨dp, hdp, rfl⟩, -, rfl⟩ := hmade
    refine hb.operate htree ?_ rfl (Nat.le_refl _) ?_ ?_ ?_ ?_ ?_
    · intro i w hw
      obtain ⟨d, hd, hdi⟩ := hb.watch_dir i w hw
      exact ⟨hw, d, List.mem_append_left _ hd, hdi⟩
    · cases hw : s.kernel.wdAt dp.path <;> rfl
    · intro x hx
      obtain ⟨w, -, rfl⟩ := mem_madeChanges hx
      exact Or.inl rfl
    · intro x hx q hq
      rw [wdAt_of_mem hb.tree hdp] at hx
      obtain ⟨w, hw, rfl⟩ := mem_madeChanges hx
      rw [List.mem_singleton.mp hq]
      exact ⟨⟨dp.ino, hw⟩, Or.inl rfl, hb.nextCookie⟩
    · cases s.kernel.wdAt dp.path
      · exact .nil
      · exact List.pairwise_singleton _ _
    · intro q hq
      obtain ⟨w, -, h⟩ := mem_madeChanges hq
      exact nomatch h
  · rcases hfine with hdoomed | hg
    · exact Or.inl (hdoomed.append _)
    · exact good_mkdir hb hg hmade

/-! ## `rmdir()` -/

/-- What the end of a directory adds. -/
def goneChanges (wd : Option ℤ) (P : Str) : List Change :=
  match wd with
  | none => []
  | some wd => [.gone ⟨⟨wd, IN_DELETE_SELF, 0, []⟩, P⟩, .ignored ⟨⟨wd, IN_IGNORED, 0, []⟩, []⟩]

theorem events_goneChanges (wd : Option ℤ) (P : Str) :
    (goneChanges wd P).flatMap Change.events = notifySelf wd P := by
  cases wd <;> rfl

theorem goneChanges_shape {wd : Option ℤ} {P : Str} : ∀ x ∈ goneChanges wd P, x.Shape := by
  cases wd <;> simp [goneChanges, Change.Shape]

theorem goneChanges_events {wd : Option ℤ} {P : Str} :
    ∀ x ∈ goneChanges wd P, ∀ q ∈ x.events, wd = some q.ev.wd ∧ q.ev.cookie = 0 := by
  cases wd <;> simp [goneChanges, Change.events]

theorem goneChanges_cookies {wd : Option ℤ} {P : Str} : (goneChanges wd P).Pairwise OwnCookie := by
  cases wd <;> simp [goneChanges, OwnCookie, Change.events]

theorem goneChanges_wd {wd : Option ℤ} {P : Str} {q : Queued} (h : .gone q ∈ goneChanges wd P) :
    wd = some q.ev.wd := by
  cases wd with
  | none => exact absurd h List.not_mem_nil
  | some w =>
    simp only [goneChanges, List.mem_cons, Change.gone.injEq, reduceCtorEq, List.not_mem_nil,
      or_false] at h
    rw [h]

theorem not_out_mem_goneChanges {wd : Option ℤ} {P : Str} (q : Queued) : .out q ∉ goneChanges wd P := by
  cases wd <;> simp [goneChanges]

/-- Nothing is kept apart from the end of a directory. -/
theorem apart_goneChanges {wd : Option ℤ} {P : Str} : ∀ x, ∀ y ∈ goneChanges wd P, Apart x y := by
  intro x y hy
  cases wd with
  | none => exact absurd hy List.not_mem_nil
  | some w =>
    simp only [goneChanges, List.mem_cons, List.not_mem_nil, or_false] at hy
    rcases hy with rfl | rfl <;> cases x <;> exact trivial

theorem replay_goneChanges (c : ℤ → Option Str) (wd : Option ℤ) (P : Str) (w : ℤ) :
    replay c (goneChanges wd P) w = if wd = some w then none else c w := by
  cases wd with
  | none => rfl
  | some w' =>
    simp only [goneChanges, replay, List.foldl_cons, List.foldl_nil, Change.apply, Option.some.injEq,
      eq_comm]

theorem watch_vacate_of_mem {argv : List Str} {k : Kernel} (ht : Tree argv k) {P : Str} {d : Dir}
    (hd : d ∈ k.dirs) (hne : d.path ≠ P) : (k.vacate P).watch d.ino = k.watch d.ino := by
  apply Option.ext
  intro w
  rw [watch_vacate]
  refine ⟨fun h => h.1, fun h => ⟨h, fun e he hi => ?_⟩⟩
  rwa [ht.ino_inj e he d hd hi]

/-- The end of the directory at `P` is looked up with the pathname `P`, or not found. -/
theorem known_goneChanges {argv : List Str} {s : State} (ht : Tree argv s.kernel) {c : ℤ → Option Str}
    {P : Str} (hroot : P ∉ argv)
    (hP : ∀ d ∈ s.kernel.dirs, d.path = P → ∀ w, s.kernel.watch d.ino = some w →
      c w = none ∨ c w = some P) :
    Doomed argv c (goneChanges (s.kernel.wdAt P) P) ∨ Sound argv c (goneChanges (s.kernel.wdAt P) P) := by
  by_cases habsent : ∃ d ∈ s.kernel.dirs, d.path = P
  · obtain ⟨d, hd, hpath⟩ := habsent
    rw [← hpath, wdAt_of_mem ht hd, hpath]
    cases hw : s.kernel.watch d.ino with
    | none => exact Or.inr trivial
    | some w =>
      rcases hP d hd hpath w hw with hnone | hsome
      · exact Or.inl (Or.inl hnone)
      · exact Or.inr ⟨⟨hsome, hroot⟩, trivial, trivial⟩
  · push Not at habsent
    rw [wdAt_of_absent habsent]
    exact Or.inr trivial

theorem good_rmdir {argv : List Str} {s : State} {changes : List Change} {c : ℤ → Option Str}
    {k' : Kernel} {P : Str} (hb : Base argv s changes) (hg : Good argv s.kernel c changes)
    (h : Removed argv s.kernel k' P) :
    Fine argv k' c (changes ++ goneChanges (s.kernel.wdAt P) P) := by
  obtain ⟨⟨dP, hdP, hpath⟩, -, hroot, rfl⟩ := h
  have hknown := known_goneChanges (c := replay c changes) hb.tree hroot
    (fun d hd hpath w hw => hpath ▸ hg.known_or_none hb hd hw)
  rcases hknown with hdoomed | hsound
  · exact Or.inl (doomed_of_missing hg.sound hdoomed)
  · right
    have hwd : s.kernel.wdAt P = s.kernel.watch dP.ino := hpath ▸ wdAt_of_mem hb.tree hdP
    refine ⟨sound_append hg.sound hsound, ?_, hg.inside, ?_, ?_⟩
    · refine List.pairwise_append.mpr ⟨hg.apart, ?_, fun x _ => apart_goneChanges x⟩
      exact List.pairwise_of_forall_mem_list fun x _ => apart_goneChanges x
    · intro w P' hP'
      rw [replay_append, replay_goneChanges] at hP'
      split at hP'
      · exact nomatch hP'
      · rename_i hne
        -- a slot that is left is of another directory, and that one is still there
        obtain ⟨d, hd, hdP', hw⟩ := hg.actual w P' hP'
        have hdne : d.path ≠ P := by
          intro heq
          apply hne
          rw [← heq, wdAt_of_mem hb.tree hd, hw]
        refine ⟨d, mem_vacate.mpr ⟨hd, hdne⟩, hdP', ?_⟩
        rw [watch_vacate_of_mem hb.tree hd hdne, hw]
    · intro d hd hin
      obtain ⟨hd, hdne⟩ := mem_vacate.mp hd
      rw [watch_vacate_of_mem hb.tree hd hdne]
      refine (hg.covered d hd hin).imp ?_ fun h => h.append (not_zapsOver not_out_mem_goneChanges _)
      rintro ⟨w, hw, hP'⟩
      refine ⟨w, hw, ?_⟩
      rw [replay_append, replay_goneChanges, if_neg, hP']
      intro heq
      rw [hwd] at heq
      have := hb.tree.ino_inj d hd dP hdP (hb.watch_inj _ _ w hw heq)
      exact hdne (this ▸ hpath)

theorem inv_rmdir {argv : List Str} {s : State} {k' : Kernel} {P : Str} (hi : Inv argv s)
    (h : s.kernel.rmdir argv P = some k') : Inv argv { s with kernel := k' } := by
  obtain ⟨changes, hb, hfine⟩ := hi
  have hremoved := rmdir_spec h
  refine ⟨changes ++ goneChanges (s.kernel.wdAt P) P, ?_, ?_⟩
  · have htree := hremoved.tree hb.tree
    obtain ⟨⟨dP, hdP, rfl⟩, -, -, rfl⟩ := hremoved
    have hwd := wdAt_of_mem hb.tree hdP
    refine hb.operate htree ?_ rfl (Nat.le_refl _) ?_ goneChanges_shape ?_ goneChanges_cookies ?_
    · intro i w hw
      obtain ⟨hw, hne⟩ := watch_vacate.mp hw
      obtain ⟨d, hd, hi⟩ := hb.watch_dir i w hw
      exact ⟨hw, d, mem_vacate.mpr ⟨hd, hne d hd hi⟩, hi⟩
    · rw [events_goneChanges]
      rfl
    · intro x hx q hq
      obtain ⟨hw, hcookie⟩ := goneChanges_events x hx q hq
      exact ⟨⟨dP.ino, hwd.symm.trans hw⟩, Or.inl hcookie, hcookie ▸ hb.nextCookie⟩
    · intro q hq i hi
      obtain ⟨hw, hne⟩ := watch_vacate.mp hi
      have hino := hb.watch_inj i dP.ino _ hw (hwd.symm.trans (goneChanges_wd hq))
      exact hne dP hdP hino.symm rfl
  · rcases hfine with hdoomed | hg
    · exact Or.inl (hdoomed.append _)
    · exact good_rmdir hb hg hremoved

/-! ## `rename()` -/

/-- What the rename itself adds: the two events are handled together, or one of them by
itself. -/
def movedChanges (wd wd' : Option ℤ) (cookie : ℕ) (name name' S T : Str) : List Change :=
  match wd, wd' with
  | none, none => []
  | none, some wd' => [.made ⟨⟨wd', IN_MOVED_TO ||| IN_ISDIR, cookie, name'⟩, T⟩]
  | some wd, none => [.out ⟨⟨wd, IN_MOVED_FROM ||| IN_ISDIR, cookie, name⟩, S⟩]
  | some wd, some wd' =>
    [.moved ⟨⟨wd, IN_MOVED_FROM ||| IN_ISDIR, cookie, name⟩, S⟩
      ⟨⟨wd', IN_MOVED_TO ||| IN_ISDIR, cookie, name'⟩, T⟩]

theorem events_movedChanges (wd wd' : Option ℤ) (cookie : ℕ) (name name' S T : Str) :
    (movedChanges wd wd' cookie name name' S T).flatMap Change.events =
      notify wd (IN_MOVED_FROM ||| IN_ISDIR) cookie name S ++
        notify wd' (IN_MOVED_TO ||| IN_ISDIR) cookie name' T := by
  cases wd <;> cases wd' <;> rfl

theorem movedChanges_shape {wd wd' : Option ℤ} {cookie : ℕ} {name name' S T : Str} (h : cookie ≠ 0) :
    ∀ x ∈ movedChanges wd wd' cookie name name' S T, x.Shape := by
  cases wd <;> cases wd' <;> simp [movedChanges, Change.Shape, h]

theorem movedChanges_events {wd wd' : Option ℤ} {cookie : ℕ} {name name' S T : Str} :
    ∀ x ∈ movedChanges wd wd' cookie name name' S T, ∀ q ∈ x.events,
      (wd = some q.ev.wd ∨ wd' = some q.ev.wd) ∧ q.ev.cookie = cookie := by
  cases wd <;> cases wd' <;> simp [movedChanges, Change.events]

theorem movedChanges_cookies {wd wd' : Option ℤ} {cookie : ℕ} {name name' S T : Str} :
    (movedChanges wd wd' cookie name name' S T).Pairwise OwnCookie := by
  cases wd <;> cases wd' <;> simp [movedChanges]

theorem not_gone_mem_movedChanges {wd wd' : Option ℤ} {cookie : ℕ} {name name' S T : Str} (q : Queued) :
    .gone q ∉ movedChanges wd wd' cookie name name' S T := by
  cases wd <;> cases wd' <;> simp [movedChanges]

section Rename

variable {argv : List Str} {s : State} {changes : List Change} {c : ℤ → Option Str} {k' : Kernel}
  {p name p' name' S T : Str}

theorem Renamed.watch_of_mem (h : Renamed argv s.kernel k' p name p' name' S T)
    (ht : Tree argv s.kernel) {d : Dir} (hd : d ∈ s.kernel.dirs) (hne : d.path ≠ T) :
    k'.watch d.ino = s.kernel.watch d.ino := by
  apply Option.ext
  intro w
  rw [h.watch]
  refine ⟨fun h => h.1, fun h => ⟨h, fun e he hi => ?_⟩⟩
  rwa [ht.ino_inj e he d hd hi]

/-- The watch of a directory that stays is not the one of the replaced directory. -/
theorem Base.wdAt_ne (hb : Base argv s changes) {d : Dir} (hd : d ∈ s.kernel.dirs) (hne : d.path ≠ T)
    {w : ℤ} (hw : s.kernel.watch d.ino = some w) : s.kernel.wdAt T ≠ some w := by
  intro heq
  by_cases habsent : ∃ dT ∈ s.kernel.dirs, dT.path = T
  · obtain ⟨dT, hdT, rfl⟩ := habsent
    rw [wdAt_of_mem hb.tree hdT] at heq
    exact hne (congrArg Dir.path (hb.tree.ino_inj d hd dT hdT (hb.watch_inj _ _ w hw heq)))
  · push Not at habsent
    rw [wdAt_of_absent habsent] at heq
    exact nomatch heq

/-- What is left to show of a rename, once it is known which change it is: what the change
does to the replayed cache (`hreplay`, `hkeep`), and where the directories are that were
carried (`hmoved`). -/
theorem good_of_moved (hb : Base argv s changes) (hg : Good argv s.kernel c changes)
    (h : Renamed argv s.kernel k' p name p' name' S T) {moved : List Change}
    (hsound : Sound argv (replay c changes) moved) (hone : moved.Pairwise Apart)
    (hapart : ∀ x ∈ changes, ∀ y ∈ moved, Apart x y) (hout : ∀ q, .out q ∈ moved → q.place = S)
    (hreplay : ∀ w P', replay c (changes ++ moved) w = some P' →
      ∃ P, replay c changes w = some P ∧ P' = carried S T P)
    (hkeep : ∀ w P, replay c changes w = some P → ¬Under S P →
      replay c (changes ++ moved) w = some P)
    (hmoved : ∀ d ∈ s.kernel.dirs, Under S d.path → Inside argv (rebase S T d.path) →
      (∃ w, s.kernel.watch d.ino = some w ∧
        replay c (changes ++ moved) w = some (rebase S T d.path)) ∨
      Covered c (changes ++ moved) (s.kernel.watch d.ino) (rebase S T d.path)) :
    Fine argv k' c (changes ++ moved ++ goneChanges (s.kernel.wdAt T) T) := by
  have hsound' : Sound argv c (changes ++ moved) := sound_append hg.sound hsound
  have hknown := known_goneChanges (c := replay c (changes ++ moved)) hb.tree h.root' (by
    intro d hd hpath w hw
    rcases hg.known_or_none hb hd hw with hnone | hsome
    · left
      rw [replay_append]
      exact replay_none moved hnone
    · exact Or.inr (hkeep w T (hpath ▸ hsome) h.apart))
  rcases hknown with hdoomed | hgone
  · exact Or.inl (doomed_of_missing hsound' hdoomed)
  right
  refine ⟨sound_append hsound' hgone, ?_, hg.inside, ?_, ?_⟩
  · refine List.pairwise_append.mpr ⟨List.pairwise_append.mpr ⟨hg.apart, hone, hapart⟩, ?_,
      fun x _ => apart_goneChanges x⟩
    exact List.pairwise_of_forall_mem_list fun x _ => apart_goneChanges x
  · intro w P' hP'
    rw [replay_append, replay_goneChanges] at hP'
    split at hP'
    · exact nomatch hP'
    · rename_i hne
      obtain ⟨P, hP, rfl⟩ := hreplay w P' hP'
      obtain ⟨d, hd, rfl, hw⟩ := hg.actual w P hP
      have hdne : d.path ≠ T := by
        intro heq
        apply hne
        rw [← heq, wdAt_of_mem hb.tree hd, hw]
      refine ⟨_, (h.mem _).mpr ⟨d, hd, hdne, rfl⟩, rfl, ?_⟩
      rw [h.watch_of_mem hb.tree hd hdne, hw]
  · intro d' hd' hin
    obtain ⟨d, hd, hdne, rfl⟩ := (h.mem d').mp hd'
    dsimp only at hin ⊢
    rw [h.watch_of_mem hb.tree hd hdne]
    -- the replaced directory matters to no other
    have hrest : ∀ P, (∃ w, s.kernel.watch d.ino = some w ∧ replay c (changes ++ moved) w = some P) ∨
        Covered c (changes ++ moved) (s.kernel.watch d.ino) P →
        (∃ w, s.kernel.watch d.ino = some w ∧
          replay c (changes ++ moved ++ goneChanges (s.kernel.wdAt T) T) w = some P) ∨
        Covered c (changes ++ moved ++ goneChanges (s.kernel.wdAt T) T) (s.kernel.watch d.ino) P := by
      intro P hP
      refine hP.imp ?_ fun h => h.append (not_zapsOver not_out_mem_goneChanges _)
      rintro ⟨w, hw, hP⟩
      refine ⟨w, hw, ?_⟩
      rw [replay_append, replay_goneChanges, if_neg (hb.wdAt_ne hd hdne hw), hP]
    by_cases hS : Under S d.path
    · rw [carried_of_under T hS] at hin ⊢
      exact hrest _ (hmoved d hd hS hin)
    · rw [carried_of_not_under T hS] at hin ⊢
      apply hrest
      refine (hg.covered d hd hin).imp ?_ fun h => h.append ?_
      · rintro ⟨w, hw, hP⟩
        exact ⟨w, hw, hkeep w _ hP hS⟩
      · rintro ⟨q, hq, hunder⟩
        exact hS (hout q hq ▸ hunder)

/-- When the old parent is not watched, nothing that is carried is in the replayed cache. -/
theorem Good.not_carried (hg : Good argv s.kernel c changes)
    (h : Renamed argv s.kernel k' p name p' name' S T)
    (hsafe : SafeRename argv s.kernel p p' S T) (hp : s.kernel.wdAt p = none) {w : ℤ} {P : Str}
    (hP : replay c changes w = some P) : ¬Under S P := by
  intro hS
  obtain ⟨d, hd, rfl, hw⟩ := hg.actual w P hP
  have hcarries : Carries s.kernel S := ⟨d, hd, hS, fun hnone => nomatch hw.symm.trans hnone⟩
  have hin := h.inside_source hS (inside_replay hg.sound hg.inside w _ hP)
  exact hsafe.source hcarries hin hp

/-- When the new parent is not watched, a walk that finds it finds what is carried there. -/
theorem Good.covered_target (hg : Good argv s.kernel c changes) (hb : Base argv s changes)
    (h : Renamed argv s.kernel k' p name p' name' S T)
    (hsafe : SafeRename argv s.kernel p p' S T) (hp' : s.kernel.wdAt p' = none) {moved : List Change}
    (hout : ∀ q, .out q ∈ moved → q.place = S) {d : Dir} (hd : d ∈ s.kernel.dirs)
    (hS : Under S d.path) (hin : Inside argv (rebase S T d.path)) :
    Covered c (changes ++ moved) (s.kernel.watch d.ino) (rebase S T d.path) := by
  have hinT := h.inside_target hb.tree hS hin
  obtain ⟨dp', hdp', rfl⟩ := h.parent'
  rw [wdAt_of_mem hb.tree hdp'] at hp'
  have hunwatched : s.kernel.watch d.ino = none := by
    by_contra hw
    exact (hsafe.target ⟨d, hd, hS, hw⟩ hinT).1 ((wdAt_of_mem hb.tree hdp').trans hp')
  have hpT : Under dp'.path T := h.target ▸ under_child _ _
  rw [hunwatched]
  refine Covered.deeper ((hg.covered_of_unwatched hdp' ?_ hp').append ?_)
    (hpT.trans (under_rebase T hS))
  · exact inside_parent h.validName' (h.target ▸ h.root') (h.target ▸ hinT)
  · rintro ⟨q, hq, hunder⟩
    exact h.apart ((hout q hq ▸ hunder).trans hpT)

theorem good_rename (hb : Base argv s changes) (hg : Good argv s.kernel c changes)
    (h : Renamed argv s.kernel k' p name p' name' S T)
    (hsafe : SafeRename argv s.kernel p p' S T) :
    Fine argv k' c (changes ++ movedChanges (s.kernel.wdAt p) (s.kernel.wdAt p') s.kernel.nextCookie
      name name' S T ++ goneChanges (s.kernel.wdAt T) T) := by
  obtain ⟨dp, hdp, hp⟩ := h.parent
  obtain ⟨dp', hdp', hp'⟩ := h.parent'
  have hwd : s.kernel.wdAt p = s.kernel.watch dp.ino := hp ▸ wdAt_of_mem hb.tree hdp
  have hwd' : s.kernel.wdAt p' = s.kernel.watch dp'.ino := hp' ▸ wdAt_of_mem hb.tree hdp'
  have hann : ∀ q, .made q ∈ changes → q.place ∈ announced s.kernel.queue :=
    fun q hq => mem_announced hb hq
  cases hw : s.kernel.wdAt p with
  | none =>
    cases hw' : s.kernel.wdAt p' with
    | none =>
      -- no event: what is carried was not watched, and will be found at its new place
      refine good_of_moved hb hg h (by trivial) .nil (fun _ _ _ hy => absurd hy List.not_mem_nil)
        (fun _ hq => absurd hq List.not_mem_nil) ?_ ?_ ?_
      · intro w P hP
        rw [movedChanges, List.append_nil] at hP
        exact ⟨P, hP, (carried_of_not_under T (hg.not_carried h hsafe hw hP)).symm⟩
      · intro w P hP _
        rwa [movedChanges, List.append_nil]
      · intro d hd hS hin
        exact Or.inr (hg.covered_target hb h hsafe hw' (fun _ hq => absurd hq List.not_mem_nil) hd hS hin)
    | some w' =>
      rcases hg.known_or_none hb hdp' (hwd'.symm.trans hw') with hnone | hknown
      · exact Or.inl (Doomed.append _ (doomed_of_missing hg.sound (Or.inl hnone)))
      -- an announcement of the new place
      refine good_of_moved hb hg h ?_ (List.pairwise_singleton _ _) ?_ (by simp [movedChanges]) ?_ ?_ ?_
      · exact ⟨⟨dp'.path, hknown, by rw [h.target, hp']⟩, trivial⟩
      · intro x _ y hy
        rw [List.mem_singleton.mp hy]
        cases x <;> exact trivial
      · intro w P hP
        rw [replay_append] at hP
        exact ⟨P, hP, (carried_of_not_under T (hg.not_carried h hsafe hw hP)).symm⟩
      · intro w P hP _
        rwa [replay_append]
      · intro d hd hS hin
        right
        refine ⟨changes, _, [], rfl, ⟨under_rebase T hS, ?_, ?_⟩, ?_⟩
        · intro w hT
          obtain ⟨dT, hdT, heq, hwT⟩ := hg.actual w T hT
          refine hsafe.replaced ?_ hw
          rw [← heq, wdAt_of_mem hb.tree hdT, hwT]
          exact fun h => nomatch h
        · exact not_zapsOver (by simp) _
        · intro w hsome
          constructor
          · cases hP : replay c changes w with
            | none => rfl
            | some P =>
              have hpath := hg.path_of_watch hb hd hsome hP
              exact absurd (hpath ▸ hS) (hg.not_carried h hsafe hw hP)
          · intro before₁ q₁ before₂ heq _ hunder
            have hq₁ : q₁.place ∈ announced s.kernel.queue :=
              hann q₁ (heq ▸ List.mem_append_right _ List.mem_cons_self)
            have hcarries : Carries s.kernel S := ⟨d, hd, hS, fun hnone => nomatch hsome.symm.trans hnone⟩
            exact absurd hunder
              ((hsafe.target hcarries (h.inside_target hb.tree hS hin)).2 hw _ hq₁)
  | some w =>
    have hpw : s.kernel.wdAt p ≠ none := fun hnone => nomatch hw.symm.trans hnone
    rcases hg.known_or_none hb hdp (hwd.symm.trans hw) with hnone | hknown
    · left
      cases s.kernel.wdAt p' with
      | none => exact Doomed.append _ (doomed_of_missing hg.sound (Or.inl hnone))
      | some w' => exact Doomed.append _ (doomed_of_missing hg.sound (Or.inl (Or.inl hnone)))
    have hplace : S = child dp.path name := by rw [h.source, hp]
    cases hw' : s.kernel.wdAt p' with
    | none =>
      -- the subtree is zapped
      refine good_of_moved hb hg h ?_ (List.pairwise_singleton _ _) ?_ (by simp [movedChanges]) ?_ ?_ ?_
      · exact ⟨⟨dp.path, hknown, hplace⟩, trivial⟩
      · intro x hx y hy
        rw [List.mem_singleton.mp hy]
        cases x with
        | made q => exact hsafe.outward hpw hw' q.place (hann q hx)
        | _ => exact trivial
      · intro w₀ P' hP'
        rw [replay_append] at hP'
        obtain ⟨hP, hnot⟩ := Option.filter_eq_some_iff.mp hP'
        exact ⟨P', hP, (carried_of_not_under T (of_decide_eq_true hnot)).symm⟩
      · intro w₀ P hP hnot
        rw [replay_append]
        exact Option.filter_eq_some_iff.mpr ⟨hP, decide_eq_true hnot⟩
      · intro d hd hS hin
        exact Or.inr (hg.covered_target hb h hsafe hw' (by simp [movedChanges]) hd hS hin)
    | some w' =>
      have hpw' : s.kernel.wdAt p' ≠ none := fun hnone => nomatch hw'.symm.trans hnone
      rcases hg.known_or_none hb hdp' (hwd'.symm.trans hw') with hnone | hknown'
      · exact Or.inl (Doomed.append _ (doomed_of_missing hg.sound (Or.inl (Or.inr hnone))))
      -- the pathnames are rewritten
      refine good_of_moved hb hg h ?_ (List.pairwise_singleton _ _) ?_ (by simp [movedChanges]) ?_ ?_ ?_
      · exact ⟨⟨⟨dp.path, hknown, hplace⟩, dp'.path, hknown', by rw [h.target, hp']⟩, trivial⟩
      · intro x hx y hy
        rw [List.mem_singleton.mp hy]
        cases x with
        | made q => exact hsafe.within hpw hpw' q.place (hann q hx)
        | _ => exact trivial
      · intro w₀ P' hP'
        rw [replay_append] at hP'
        obtain ⟨P, hP, heq⟩ := Option.map_eq_some_iff.mp hP'
        exact ⟨P, hP, heq.symm⟩
      · intro w₀ P hP hnot
        rw [replay_append]
        exact Option.map_eq_some_iff.mpr ⟨P, hP, carried_of_not_under T hnot⟩
      · intro d hd hS _
        have hin : Inside argv d.path :=
          (inside_replay hg.sound hg.inside w _ hknown).under
            ((hplace ▸ under_child dp.path name : Under dp.path S).trans hS)
        rcases hg.covered d hd hin with ⟨w₀, hsome, hP⟩ | ⟨before, q, after, heq, hfinds, -⟩
        · left
          refine ⟨w₀, hsome, ?_⟩
          rw [replay_append]
          exact Option.map_eq_some_iff.mpr ⟨d.path, hP, carried_of_under T hS⟩
        · -- nothing that waits for an announcement is carried
          have hq := hsafe.within hpw hpw' q.place
            (hann q (heq ▸ List.mem_append_right _ List.mem_cons_self))
          exact ((hS.total hfinds.under).elim hq.2 hq.1).elim

theorem inv_rename (hi : Inv argv s) (hsafe : SafeRename argv s.kernel p p' (child p name) (child p' name'))
    (h : s.kernel.rename argv p name p' name' = some k') : Inv argv { s with kernel := k' } := by
  obtain ⟨changes, hb, hfine⟩ := hi
  have hren := rename_spec h
  set S := child p name
  set T := child p' name'
  refine ⟨changes ++ (movedChanges (s.kernel.wdAt p) (s.kernel.wdAt p') s.kernel.nextCookie name name'
    S T ++ goneChanges (s.kernel.wdAt T) T), ?_, ?_⟩
  · have hwatched : ∀ P w, s.kernel.wdAt P = some w → ∃ i, s.kernel.watch i = some w := by
      intro P w hw
      unfold Kernel.wdAt at hw
      obtain ⟨d, -, hw⟩ := Option.bind_eq_some_iff.mp hw
      exact ⟨d.ino, hw⟩
    -- what is queued: the two halves of the rename, then the events of a directory that it replaced
    refine hb.operate (hren.tree hb.tree) ?_ hren.nextWd ?_ ?_ ?_ ?_ ?_ ?_
    · intro i w hw
      obtain ⟨hw, hne⟩ := (hren.watch i w).mp hw
      obtain ⟨d, hd, hdi⟩ := hb.watch_dir i w hw
      exact ⟨hw, _, (hren.mem _).mpr ⟨d, hd, hne d hd hdi, rfl⟩, hdi⟩
    · rw [hren.nextCookie]
      exact Nat.le_succ _
    · rw [hren.queue, List.flatMap_append, events_movedChanges, events_goneChanges]
    · intro x hx
      rcases List.mem_append.mp hx with hx | hx
      · exact movedChanges_shape (Nat.ne_of_gt hb.nextCookie) x hx
      · exact goneChanges_shape x hx
    · intro x hx q hq
      rw [hren.nextCookie]
      rcases List.mem_append.mp hx with hx | hx
      · obtain ⟨hw, hcookie⟩ := movedChanges_events x hx q hq
        refine ⟨hw.elim (hwatched p _) (hwatched p' _), Or.inr (Nat.le_of_eq hcookie.symm), ?_⟩
        rw [hcookie]
        exact Nat.lt_succ_self _
      · obtain ⟨hw, hcookie⟩ := goneChanges_events x hx q hq
        exact ⟨hwatched T _ hw, Or.inl hcookie, hcookie ▸ Nat.succ_pos _⟩
    · refine List.pairwise_append.mpr ⟨movedChanges_cookies, goneChanges_cookies, ?_⟩
      intro x _ y hy q _ q' hq' hne heq
      exact hne (heq.trans (goneChanges_events y hy q' hq').2)
    · intro q hq i hi
      rcases List.mem_append.mp hq with hq | hq
      · exact not_gone_mem_movedChanges q hq
      · obtain ⟨hw, hne⟩ := (hren.watch i _).mp hi
        obtain ⟨d, hd, hdi⟩ := hb.watch_dir i _ hw
        exact hb.wdAt_ne hd (hne d hd hdi) (hdi ▸ hw) (goneChanges_wd hq)
  · rcases hfine with hdoomed | hg
    · exact Or.inl (hdoomed.append _)
    · rw [← List.append_assoc]
      exact good_rename hb hg hren hsafe

end Rename

end Tlpi.InotifyDtree
