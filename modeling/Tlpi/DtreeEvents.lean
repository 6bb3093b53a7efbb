/-
Handling the events: `processNextInotifyEvent()` keeps the invariant.

Each kind of change is handled as `Change.apply` says, which leaves a queue that is one
change shorter (`inv_of_tail`), except for two: an announcement makes the program walk a
subtree (`inv_of_walk`), and a watch descriptor that is not in the cache makes it rebuild
the cache (`inv_reinitialize`).
-/
import Tlpi.DtreeWalk

set_option autoImplicit false

namespace Tlpi.InotifyDtree

open Tlpi.Pathname Tlpi.Inotify Tlpi.Transition

/-! ## One change less -/

section Ignored

variable {argv : List Str} {ignored : List Change}

theorem sound_ignored : ∀ {ignored : List Change} {c : ℤ → Option Str},
    (∀ x ∈ ignored, ∃ q, x = .ignored q) → Sound argv c ignored := by
  intro ignored
  induction ignored with
  | nil => exact fun _ => trivial
  | cons x ignored ih =>
    intro c h
    obtain ⟨q, rfl⟩ := h x List.mem_cons_self
    exact ⟨trivial, ih fun y hy => h y (List.mem_cons_of_mem _ hy)⟩

theorem replay_ignored : ∀ {ignored : List Change} {c : ℤ → Option Str},
    (∀ x ∈ ignored, ∃ q, x = .ignored q) → replay c ignored = c := by
  intro ignored
  induction ignored with
  | nil => exact fun _ => rfl
  | cons x ignored ih =>
    intro c h
    obtain ⟨q, rfl⟩ := h x List.mem_cons_self
    exact ih fun y hy => h y (List.mem_cons_of_mem _ hy)

/-- `IN_IGNORED` events at the end of the queue make no difference. -/
theorem Fine.append_ignored {k : Kernel} {c : ℤ → Option Str} {changes : List Change}
    (h : Fine argv k c changes) (hign : ∀ x ∈ ignored, ∃ q, x = .ignored q) :
    Fine argv k c (changes ++ ignored) := by
  have hreplay : replay c (changes ++ ignored) = replay c changes := by
    rw [replay_append, replay_ignored hign]
  have hapart : ∀ x, ∀ y ∈ ignored, Apart x y := by
    intro x y hy
    obtain ⟨q, rfl⟩ := hign y hy
    cases x <;> exact trivial
  have hout : ∀ q, .out q ∉ ignored := by
    intro q hq
    obtain ⟨q', h⟩ := hign _ hq
    exact nomatch h
  rcases h with hdoomed | hg
  · exact Or.inl (hdoomed.append _)
  · right
    refine ⟨sound_append hg.sound (sound_ignored hign), ?_, hg.inside, ?_, ?_⟩
    · exact List.pairwise_append.mpr
        ⟨hg.apart, List.pairwise_of_forall_mem_list fun x _ => hapart x, fun x _ => hapart x⟩
    · rw [hreplay]
      exact hg.actual
    · intro d hd hin
      rw [hreplay]
      exact (hg.covered d hd hin).imp_right fun h => h.append (not_zapsOver hout _)

end Ignored

/-- The first change is looked up and takes effect. -/
theorem Doomed.tail {argv : List Str} {c : ℤ → Option Str} {x : Change} {changes : List Change}
    (h : Doomed argv c (x :: changes)) (hx : ¬x.Missing c) :
    x.Known argv c ∧ Doomed argv (x.apply c) changes :=
  h.resolve_left hx

theorem Good.tail {argv : List Str} {k k' : Kernel} {c : ℤ → Option Str} {x : Change}
    {changes : List Change} (hg : Good argv k c (x :: changes))
    (hfirst : ∀ q, x = .made q → ¬Absent c [] q.place) (hdirs : k'.dirs = k.dirs)
    (hwatch : ∀ i w, k'.watch i = some w → k.watch i = some w)
    (hkeep : ∀ i w, k.watch i = some w → x.apply c w ≠ none → k'.watch i = some w) :
    Good argv k' (x.apply c) changes := by
  have hkept : ∀ i w P, k.watch i = some w → replay (x.apply c) changes w = some P →
      k'.watch i = some w := by
    intro i w P hw hP
    refine hkeep i w hw fun hnone => ?_
    rw [replay_none changes hnone] at hP
    exact nomatch hP
  refine ⟨hg.sound.2, (List.pairwise_cons.mp hg.apart).2, inside_apply hg.sound.1 hg.inside, ?_, ?_⟩
  · intro w P hP
    obtain ⟨d, hd, hpath, hw⟩ := hg.actual w P hP
    exact ⟨d, hdirs.symm ▸ hd, hpath, hkept d.ino w P hw hP⟩
  · intro d hd hin
    rcases hg.covered d (hdirs ▸ hd) hin with ⟨w, hw, hP⟩ | hcovered
    · exact Or.inl ⟨w, hkept d.ino w _ hw hP, hP⟩
    · right
      rcases hcovered.tail with ⟨q, rfl, hfinds, -⟩ | h
      · exact absurd hfinds.absent (hfirst q rfl)
      · exact h.unwatch fun w => hwatch d.ino w

/-- The queue of a state that is left when the first change has been handled. -/
theorem Base.tail {argv : List Str} {s s' : State} {x : Change} {changes ignored : List Change}
    (hb : Base argv s (x :: changes)) (hl : Linked argv s')
    (hqueue : s'.kernel.queue = (changes ++ ignored).flatMap Change.events)
    (hign : ∀ y ∈ ignored, ∃ w, y = .ignored ⟨⟨w, IN_IGNORED, 0, []⟩, []⟩ ∧ 0 ≤ w ∧ w < s.kernel.nextWd)
    (hnextWd : s.kernel.nextWd ≤ s'.kernel.nextWd) (hnextCookie : s'.kernel.nextCookie = s.kernel.nextCookie)
    (hwatch : ∀ i w, s'.kernel.watch i = some w → s.kernel.watch i = some w ∨ s.kernel.nextWd ≤ w) :
    Base argv s' (changes ++ ignored) := by
  have hmem : ∀ y ∈ changes, y ∈ x :: changes := fun y hy => List.mem_cons_of_mem x hy
  refine ⟨hl, hqueue, ?_, ?_, ?_, ?_⟩
  · intro y hy
    rcases List.mem_append.mp hy with hy | hy
    · exact hb.shape y (hmem y hy)
    · obtain ⟨w, rfl, -⟩ := hign y hy
      rfl
  · intro y hy q hq
    rw [hnextCookie]
    rcases List.mem_append.mp hy with hy | hy
    · obtain ⟨h₁, h₂, h₃⟩ := hb.events y (hmem y hy) q hq
      exact ⟨h₁, Int.lt_of_lt_of_le h₂ hnextWd, h₃⟩
    · obtain ⟨w, rfl, h₁, h₂⟩ := hign y hy
      rw [List.mem_singleton.mp hq]
      exact ⟨h₁, Int.lt_of_lt_of_le h₂ hnextWd, hb.nextCookie⟩
  · refine List.pairwise_append.mpr ⟨(List.pairwise_cons.mp hb.cookies).2, ?_, ?_⟩
    · refine List.pairwise_of_forall_mem_list fun y hy z hz => ?_
      obtain ⟨w, rfl, -⟩ := hign y hy
      intro q hq q' _ hne
      rw [List.mem_singleton.mp hq] at hne
      exact absurd rfl hne
    · intro y _ z hz q _ q' hq' hne heq
      obtain ⟨w, rfl, -⟩ := hign z hz
      rw [List.mem_singleton.mp hq'] at heq
      exact hne heq
  · intro q hq i hi
    rcases List.mem_append.mp hq with hq | hq
    · rcases hwatch i _ hi with hw | hle
      · exact hb.dead q (hmem _ hq) i hw
      · -- a watch added meanwhile has a descriptor that no queued event can name
        have := (hb.events _ (hmem _ hq) q List.mem_cons_self).2.1
        omega
    · obtain ⟨w, h, -⟩ := hign _ hq
      exact nomatch h

/-- **A change that is handled as `Change.apply` says keeps the invariant.** -/
theorem inv_of_tail {argv : List Str} {s s' : State} {x : Change} {changes : List Change}
    (ignored : List Change)
    (hb : Base argv s (x :: changes)) (hfine : Fine argv s.kernel (view s.wlCache) (x :: changes))
    (hx : ¬x.Missing (view s.wlCache)) (hfirst : ∀ q, x = .made q → ¬Absent (view s.wlCache) [] q.place)
    (hl : Linked argv s') (hview : view s'.wlCache = x.apply (view s.wlCache))
    (hdirs : s'.kernel.dirs = s.kernel.dirs) (hnextWd : s'.kernel.nextWd = s.kernel.nextWd)
    (hnextCookie : s'.kernel.nextCookie = s.kernel.nextCookie)
    (hqueue : s'.kernel.queue = (changes ++ ignored).flatMap Change.events)
    (hign : ∀ y ∈ ignored, ∃ w, y = .ignored ⟨⟨w, IN_IGNORED, 0, []⟩, []⟩ ∧ 0 ≤ w ∧ w < s.kernel.nextWd)
    (hwatch : ∀ i w, s'.kernel.watch i = some w → s.kernel.watch i = some w)
    (hkeep : ∀ i w, s.kernel.watch i = some w → view s'.wlCache w ≠ none → s'.kernel.watch i = some w) :
    Inv argv s' := by
  refine ⟨changes ++ ignored, hb.tail hl hqueue hign (Int.le_of_eq hnextWd.symm) hnextCookie
    fun i w hw => Or.inl (hwatch i w hw), ?_⟩
  refine Fine.append_ignored ?_ fun y hy => ⟨_, (hign y hy).choose_spec.1⟩
  rw [hview] at hkeep ⊢
  exact hfine.imp (fun h => (h.tail hx).2) fun h => h.tail hfirst hdirs hwatch hkeep

/-! ## The walk of an announcement -/

/-- **An announcement whose walk is made keeps the invariant.** -/
theorem inv_of_walk {argv : List Str} {s s' : State} {q : Queued} {changes : List Change}
    (hb : Base argv s (.made q :: changes))
    (hfine : Fine argv s.kernel (view s.wlCache) (.made q :: changes))
    (hx : ¬(Change.made q).Missing (view s.wlCache)) (habsent : ∀ w, view s.wlCache w ≠ some q.place)
    (hl : Linked argv s') (hwalk : Walk (s.kernel.nftw q.place) s s') :
    Inv argv { s' with kernel := { s'.kernel with queue := s'.kernel.queue.drop 1 } } := by
  have hdirs := hwalk.dirs
  have hqueue : s'.kernel.queue.drop 1 = (changes ++ []).flatMap Change.events := by
    rw [hwalk.kernel]
    dsimp only
    rw [hb.queue, List.append_nil]
    rfl
  have hl' : Linked argv { s' with kernel := { s'.kernel with queue := s'.kernel.queue.drop 1 } } :=
    ⟨tree_of_dirs hl.tree rfl rfl, hl.rootDirPaths, hl.distinct, hl.nextWd, hl.nextCookie, hl.watch_dir,
      hl.watch_lt, hl.watch_inj, hl.watch_cached, hl.cache_lt⟩
  have hwds : ∀ x ∈ changes, ∀ w ∈ x.wds, w < s.kernel.nextWd := fun x hx =>
    hb.wd_lt x (List.mem_cons_of_mem _ hx)
  have hold : ∀ w < s.kernel.nextWd, view s.wlCache w = view s'.wlCache w := fun w hw =>
    (hwalk.view_old w hw).symm
  refine ⟨changes ++ [], hb.tail hl' hqueue (by simp) hwalk.nextWd (by rw [hwalk.kernel]) ?_, ?_⟩
  · intro i w hw
    exact (hwalk.watch_new i w hw).imp_right fun h => h.2.1
  rw [List.append_nil]
  rcases hfine with hdoomed | hg
  · exact Or.inl ((hdoomed.tail hx).2.congr hwds hold)
  right
  have hapart := List.pairwise_cons.mp hg.apart
  have hwalked : Walked (view s.wlCache) (view s'.wlCache) s.kernel.nextWd q changes := by
    refine ⟨hold, hb.cache_lt, ?_, hwds, hapart.1⟩
    intro w P hw hP
    obtain ⟨-, d, -, hunder, rfl⟩ := mem_nftw.mp (hwalk.view_new w P hw hP).1
    exact hunder
  -- the announced directory is in a monitored tree
  have hin : Inside argv q.place := by
    obtain ⟨p, hp, hplace⟩ := hg.sound.1
    rw [hplace]
    exact (hg.inside _ p hp).under (under_child _ _)
  refine ⟨hg.sound.2.congr hwds hold, hapart.2, ?_, ?_, ?_⟩
  · intro w P hP
    by_cases hlt : w < s.kernel.nextWd
    · exact hg.inside w P ((hold w hlt).trans hP)
    · exact hin.under (hwalked.new w P (Int.not_lt.mp hlt) hP)
  · intro w P hP
    by_cases hlt : w < s.kernel.nextWd
    · rw [hwalked.replay_old changes hlt] at hP
      obtain ⟨d, hd, hpath, hw⟩ := hg.actual w P hP
      exact ⟨d, hdirs.symm ▸ hd, hpath, hwalk.watch_old d.ino w hw⟩
    · have hge := Int.not_lt.mp hlt
      cases hP₀ : view s'.wlCache w with
      | none =>
        rw [replay_none changes hP₀] at hP
        exact nomatch hP
      | some P₀ =>
        obtain ⟨hz, hnz⟩ := hwalked.replay_new changes (fun _ hx => hx) w P₀ _ hge
          (hwalked.new w P₀ hge hP₀) hP₀
        by_cases hzaps : ZapsOver changes P₀
        · exact nomatch (hz hzaps).symm.trans hP
        · have heq : P₀ = P := Option.some.inj ((hnz hzaps).symm.trans hP)
          obtain ⟨-, d, hd, hpath, hw⟩ := hwalk.view_new w P₀ hge hP₀
          exact ⟨d, hdirs.symm ▸ hd, hpath.trans heq, hw⟩
  · intro d hd hind
    dsimp only at hd ⊢
    rw [hdirs] at hd
    rcases hg.covered d hd hind with ⟨w, hw, hP⟩ | hcovered
    · left
      refine ⟨w, hwalk.watch_old d.ino w hw, ?_⟩
      rw [hwalked.replay_old changes (hb.watch_lt d.ino w hw).2]
      exact hP
    · cases hw : s.kernel.watch d.ino with
      | some w =>
        rw [hwalk.watch_old d.ino w hw]
        right
        rw [hw] at hcovered
        refine hwalked.covered_old habsent ?_ nofun hcovered
        rintro w' ⟨⟩
        exact hb.watch_cached d.ino w hw
      | none =>
        rw [hw] at hcovered
        by_cases hunder : Under q.place d.path
        · -- the walk finds the directory, since what is above it exists
          obtain ⟨r, hr, hrq⟩ := hin
          obtain ⟨dr, hdr, rfl⟩ := hb.tree.roots r hr
          have hmem := mem_nftw.mpr ⟨hb.tree.between dr hdr d hd q.place hrq hunder, d, hd, hunder, rfl⟩
          cases hw' : s'.kernel.watch d.ino with
          | none => exact absurd hw' (hwalk.watched d hd hmem)
          | some w =>
            rcases hwalk.watch_new d.ino w hw' with h | ⟨-, hge, d', hd', hino, -, hview⟩
            · exact nomatch hw.symm.trans h
            · rw [hb.tree.ino_inj d' hd' d hd hino] at hview
              have hfound : Finds (view s.wlCache) [] q changes d.path ∨
                  Covered (view s.wlCache) changes none d.path := by
                rcases hcovered.tail with ⟨q', heq, hfinds, -⟩ | h
                · exact Or.inl (Change.made.inj heq ▸ hfinds)
                · exact Or.inr h
              refine (hwalked.covered_new hapart.2 hge hview hfound).imp_left fun h => ⟨w, rfl, h⟩
        · right
          have hw' : s'.kernel.watch d.ino = none := by
            by_contra hne
            obtain ⟨w, hsome⟩ := Option.ne_none_iff_exists'.mp hne
            rcases hwalk.watch_new d.ino w hsome with h | ⟨-, -, d', hd', hino, hmem, -⟩
            · exact nomatch hw.symm.trans h
            · rw [hb.tree.ino_inj d' hd' d hd hino] at hmem
              obtain ⟨-, e, -, he, heq⟩ := mem_nftw.mp hmem
              exact hunder (heq ▸ he)
          rw [hw']
          exact hwalked.covered_old habsent nofun (fun _ => hunder) hcovered

/-! ## What the program does with each event -/

section Handle

variable {s : State} {ev : Event} {buf : List Event} {firstTry : Bool}

/-- The lookup fails, and the cache is rebuilt. -/
theorem process_of_missing (hd : Distinct s.wlCache) (hwd : 0 ≤ ev.wd)
    (hmask : has ev.mask IN_IGNORED = false) (hview : view s.wlCache ev.wd = none) :
    processNextInotifyEvent s ev buf firstTry = ( reinitialize s, .buffer) := by
  unfold processNextInotifyEvent
  rw [if_pos ⟨by omega, hmask⟩, (findWatch_spec hd hwd).1.mpr hview]

/-- The lookup finds the slot. -/
theorem process_of_known (buf : List Event) (firstTry : Bool) (hd : Distinct s.wlCache)
    (hwd : 0 ≤ ev.wd) (hmask : has ev.mask IN_IGNORED = false) {p : Str} (hview : view s.wlCache ev.wd = some p) :
    ∃ slot, findWatch s.wlCache ev.wd = some slot ∧ slotPath s.wlCache slot = p ∧
      processNextInotifyEvent s ev buf firstTry = handleEvent s slot ev buf firstTry := by
  unfold processNextInotifyEvent
  rw [if_pos ⟨by omega, hmask⟩]
  cases hf : findWatch s.wlCache ev.wd with
  | none => exact nomatch ((findWatch_spec hd hwd).1.mp hf).symm.trans hview
  | some slot =>
    obtain ⟨P, hslot, hP⟩ := (findWatch_spec hd hwd).2 slot hf
    refine ⟨slot, rfl, ?_, rfl⟩
    rw [slotPath, hslot, Option.map_some, Option.getD_some]
    exact Option.some.inj (hP.symm.trans hview)

theorem handleEvent_made {slot : ℕ} (hmask : ev.mask = IN_CREATE ||| IN_ISDIR ∨
    ev.mask = IN_MOVED_TO ||| IN_ISDIR) :
    handleEvent s slot ev buf firstTry =
      (if pathnameInCache s.wlCache (child (slotPath s.wlCache slot) ev.name) then s
        else watchSubtree s (child (slotPath s.wlCache slot) ev.name), .events 1) := by
  unfold handleEvent
  rw [if_pos]
  rcases hmask with h | h <;> rw [h] <;> decide

theorem handleEvent_gone {slot : ℕ} (hmask : ev.mask = IN_DELETE_SELF)
    (hroot : isRootDirPath s (slotPath s.wlCache slot) = false) :
    handleEvent s slot ev buf firstTry =
      ({ s with wlCache := markCacheSlotEmpty s.wlCache slot }, .events 1) := by
  unfold handleEvent
  rw [hmask, if_neg (by decide), if_pos (by decide), deleted, hroot]
  rfl

theorem handleEvent_ignored {slot : ℕ} (hmask : ev.mask = IN_IGNORED) :
    handleEvent s slot ev buf firstTry = (s, .events 1) := by
  unfold handleEvent
  rw [hmask, if_neg (by decide), if_neg (by decide), if_neg (by decide), if_neg (by decide),
    if_neg (by decide)]
  rw [if_neg (by rw [show has IN_IGNORED IN_MOVE_SELF = false by decide]; exact Bool.false_ne_true)]

theorem handleEvent_moved {slot : ℕ} (hmask : ev.mask = IN_MOVED_FROM ||| IN_ISDIR) {ev' : Event}
    (hmask' : ev'.mask = IN_MOVED_TO ||| IN_ISDIR) (hcookie : ev'.cookie = ev.cookie) :
    (findWatch s.wlCache ev'.wd = none →
      handleEvent s slot ev (ev' :: buf) firstTry = ( reinitialize s, .buffer)) ∧
    ∀ slot', findWatch s.wlCache ev'.wd = some slot' →
      handleEvent s slot ev (ev' :: buf) firstTry =
        ({ s with
            wlCache := rewriteCachedPaths s.wlCache (slotPath s.wlCache slot) ev.name
              (slotPath s.wlCache slot') ev'.name }, .events 2) := by
  have hpair : (has ev'.mask IN_MOVED_TO && ev'.cookie == ev.cookie) = true := by
    rw [hmask', hcookie, beq_self_eq_true]
    decide
  unfold handleEvent
  rw [hmask, if_neg (by decide), if_neg (by decide), if_pos (by decide)]
  refine ⟨fun hfind => ?_, fun slot' hfind => ?_⟩ <;> simp only [hpair, if_true, hfind]

/-- An `IN_MOVED_FROM` with no `IN_MOVED_TO` right after it. -/
theorem handleEvent_out {slot : ℕ} (hmask : ev.mask = IN_MOVED_FROM ||| IN_ISDIR)
    (hnext : ∀ ev' rest, buf = ev' :: rest → has ev'.mask IN_MOVED_TO = true → ev'.cookie ≠ ev.cookie) :
    handleEvent s slot ev buf firstTry =
      if buf = [] ∧ firstTry = true then (s, .again)
      else movedOut s (child (slotPath s.wlCache slot) ev.name) := by
  unfold handleEvent
  rw [hmask, if_neg (by decide), if_neg (by decide), if_pos (by decide)]
  cases buf with
  | nil =>
    cases firstTry <;> simp
  | cons ev' rest =>
    have hpair : (has ev'.mask IN_MOVED_TO && ev'.cookie == ev.cookie) = false := by
      rw [Bool.and_eq_false_imp]
      intro h
      exact beq_false_of_ne (hnext ev' rest rfl h)
    simp only [hpair, Bool.false_eq_true, if_false, reduceCtorEq, false_and]

end Handle

/-! ## Every step -/

section Process

variable {argv : List Str} {s s' : State} {changes : List Change} {n : ℕ} {firstTry : Bool}

/-- What a call is given, and what comes of it. -/
theorem process_spec {q : Queued} (rest : List Queued) (hqueue : s.kernel.queue = q :: rest)
    (h : process s n firstTry = some s') :
    ∃ m, (firstTry = true ∨ 1 ≤ m ∨ m = rest.length) ∧
      advance (processNextInotifyEvent s q.ev ((rest.take m).map Queued.ev) firstTry) = some s' := by
  unfold process at h
  rw [hqueue] at h
  cases n with
  | zero => exact nomatch h
  | succ m =>
    rw [List.take_succ_cons] at h
    dsimp only at h
    split at h
    · rename_i hc
      refine ⟨m, hc.2.imp_right (Or.imp ?_ ?_), h⟩
      · intro h
        omega
      · intro h
        rw [List.length_cons] at h
        omega
    · exact nomatch h

/-- Only the first change of the queue matters to the cache slots. -/
theorem Linked.of_cache (hl : Linked argv s) {wlCache : List Watch} {queue : List Queued}
    (hd : Distinct wlCache)
    (hwatch : ∀ i w, s.kernel.watch i = some w → view wlCache w ≠ none)
    (hview : ∀ w, view wlCache w ≠ none → view s.wlCache w ≠ none) :
    Linked argv { s with kernel := { s.kernel with queue := queue }, wlCache := wlCache } :=
  ⟨tree_of_dirs hl.tree rfl rfl, hl.rootDirPaths, hd, hl.nextWd, hl.nextCookie, hl.watch_dir,
    hl.watch_lt, hl.watch_inj, hwatch, fun w hw => hl.cache_lt w (hview w hw)⟩

theorem Fine.known {k : Kernel} {c : ℤ → Option Str} {x : Change}
    (h : Fine argv k c (x :: changes)) (hx : ¬x.Missing c) : x.Known argv c :=
  h.elim (fun h => (h.tail hx).1) fun h => h.sound.1

theorem inv_rebuilt (hb : Base argv s changes) : Inv argv ( reinitialize s) :=
  inv_reinitialize hb.tree hb.rootDirPaths hb.nextCookie

/-- The event at the head of the queue is looked up: the cache is rebuilt, or the slot is
found and the event handled with it. -/
theorem process_lookup {q : Queued} (rest : List Queued) (hb : Base argv s changes)
    (hqueue : s.kernel.queue = q :: rest) (hwd : 0 ≤ q.ev.wd)
    (hig : has q.ev.mask IN_IGNORED = false) (h : process s n firstTry = some s') :
    Inv argv s' ∨ ∃ m slot p, (firstTry = true ∨ 1 ≤ m ∨ m = rest.length) ∧
      view s.wlCache q.ev.wd = some p ∧ findWatch s.wlCache q.ev.wd = some slot ∧
      slotPath s.wlCache slot = p ∧
      advance (handleEvent s slot q.ev ((rest.take m).map Queued.ev) firstTry) = some s' := by
  obtain ⟨m, hm, h⟩ := process_spec rest hqueue h
  cases hview : view s.wlCache q.ev.wd with
  | none =>
    left
    rw [process_of_missing hb.distinct hwd hig hview] at h
    exact Option.some.inj h ▸ inv_rebuilt hb
  | some p =>
    right
    obtain ⟨slot, hfind, hslot, heq⟩ := process_of_known ((rest.take m).map Queued.ev) firstTry
      hb.distinct hwd hig hview
    rw [heq] at h
    exact ⟨m, slot, p, hm, rfl, hfind, hslot, h⟩

/-- A change that is handled in the cache alone: the kernel only loses its events. -/
theorem inv_of_cache {x : Change} {wlCache : List Watch} {events : ℕ}
    (hb : Base argv s (x :: changes)) (hfine : Fine argv s.kernel (view s.wlCache) (x :: changes))
    (hx : ¬x.Missing (view s.wlCache)) (hfirst : ∀ q, x = .made q → ¬Absent (view s.wlCache) [] q.place)
    (hd : Distinct wlCache) (hview : view wlCache = x.apply (view s.wlCache))
    (hwatch : ∀ i w, s.kernel.watch i = some w → view wlCache w ≠ none)
    (hsub : ∀ w, view wlCache w ≠ none → view s.wlCache w ≠ none)
    (hevents : x.events.length = events)
    (h : advance ({ s with wlCache := wlCache }, .events events) = some s') : Inv argv s' := by
  rw [← Option.some.inj h]
  refine inv_of_tail [] hb hfine hx hfirst (hb.toLinked.of_cache hd hwatch hsub) hview rfl rfl rfl ?_
    (by simp) (fun _ _ h => h) fun _ _ h _ => h
  dsimp only
  rw [hb.queue, List.append_nil, List.flatMap_cons, ← hevents, List.drop_left]

theorem inv_process_made {q : Queued} (hb : Base argv s (.made q :: changes))
    (hfine : Fine argv s.kernel (view s.wlCache) (.made q :: changes))
    (h : process s n firstTry = some s') : Inv argv s' := by
  have hwd := (hb.events _ List.mem_cons_self q List.mem_cons_self).1
  have hmask : q.ev.mask = IN_CREATE ||| IN_ISDIR ∨ q.ev.mask = IN_MOVED_TO ||| IN_ISDIR :=
    (hb.shape _ List.mem_cons_self).imp_right fun h => h.1
  have hig : has q.ev.mask IN_IGNORED = false := by
    rcases hmask with h | h <;> rw [h] <;> decide
  rcases process_lookup (changes.flatMap Change.events) hb hb.queue hwd hig h with
    hinv | ⟨m, slot, p, -, hview, -, hslot, h⟩
  · exact hinv
  · have hx : ¬(Change.made q).Missing (view s.wlCache) := fun hnone => nomatch hview.symm.trans hnone
    obtain ⟨p', hp', hplace⟩ := hfine.known hx
    rw [handleEvent_made hmask, hslot, Option.some.inj (hview.symm.trans hp'), ← hplace] at h
    by_cases hin : pathnameInCache s.wlCache q.place
    · -- cached already: the event is skipped
      rw [if_pos hin] at h
      obtain ⟨w, hw⟩ := (pathnameInCache_iff hb.distinct).mp hin
      refine inv_of_cache hb hfine hx ?_ hb.distinct rfl hb.watch_cached (fun _ h => h) rfl h
      intro q' hq'
      rw [← Change.made.inj hq']
      exact fun habsent => habsent w hw
    · -- not cached: the subtree is walked, and every directory in it gets a watch
      rw [if_neg hin] at h
      rw [← Option.some.inj h]
      obtain ⟨hl, hwalk⟩ := walk_foldl (s.kernel.nftw q.place) hb.toLinked
      exact inv_of_walk hb hfine hx
        (fun w hw => hin ((pathnameInCache_iff hb.distinct).mpr ⟨w, hw⟩)) hl hwalk

theorem inv_process_ignored {q : Queued} (hb : Base argv s (.ignored q :: changes))
    (hfine : Fine argv s.kernel (view s.wlCache) (.ignored q :: changes))
    (h : process s n firstTry = some s') : Inv argv s' := by
  obtain ⟨m, -, h⟩ := process_spec (changes.flatMap Change.events) hb.queue h
  have hmask : q.ev.mask = IN_IGNORED := hb.shape _ List.mem_cons_self
  unfold processNextInotifyEvent at h
  rw [if_neg (by rw [hmask]; exact fun hc => absurd hc.2 (by decide)), handleEvent_ignored hmask] at h
  exact inv_of_cache hb hfine (fun h => h) nofun hb.distinct rfl hb.watch_cached (fun _ h => h) rfl h

theorem inv_process_gone {q : Queued} (hb : Base argv s (.gone q :: changes))
    (hfine : Fine argv s.kernel (view s.wlCache) (.gone q :: changes))
    (h : process s n firstTry = some s') : Inv argv s' := by
  have hwd := (hb.events _ List.mem_cons_self q List.mem_cons_self).1
  have hmask : q.ev.mask = IN_DELETE_SELF := hb.shape _ List.mem_cons_self
  have hig : has q.ev.mask IN_IGNORED = false := by rw [hmask]; decide
  rcases process_lookup (changes.flatMap Change.events) hb hb.queue hwd hig h with
    hinv | ⟨m, slot, p, -, hview, hfind, hslot, h⟩
  · exact hinv
  · have hx : ¬(Change.gone q).Missing (view s.wlCache) := fun hnone => nomatch hview.symm.trans hnone
    obtain ⟨hp, hroot⟩ := hfine.known hx
    have hnot : isRootDirPath s (slotPath s.wlCache slot) = false := by
      unfold isRootDirPath
      rw [hslot, Option.some.inj (hview.symm.trans hp), hb.rootDirPaths, ← Bool.not_eq_true,
        List.contains_iff_mem, List.mem_map]
      rintro ⟨r, hr, heq⟩
      exact hroot (Option.some.inj heq ▸ hr)
    rw [handleEvent_gone hmask hnot] at h
    have hv := view_markCacheSlotEmpty hb.distinct hwd hfind
    have hdead := hb.dead q List.mem_cons_self
    -- the watch of the slot is gone from the kernel too, so no watch loses its slot
    have hkeep : ∀ i w, s.kernel.watch i = some w → view (markCacheSlotEmpty s.wlCache slot) w ≠ none := by
      intro i w hw
      rw [hv, if_neg fun h : w = q.ev.wd => hdead i (h ▸ hw)]
      exact hb.watch_cached i w hw
    refine inv_of_cache hb hfine hx nofun (distinct_markCacheSlotEmpty hb.distinct slot) (funext hv)
      hkeep ?_ rfl h
    intro w hne
    rw [hv] at hne
    split at hne
    · exact absurd rfl hne
    · exact hne

theorem inv_process_moved {q q' : Queued} (hb : Base argv s (.moved q q' :: changes))
    (hfine : Fine argv s.kernel (view s.wlCache) (.moved q q' :: changes))
    (h : process s n firstTry = some s') : Inv argv s' := by
  have hwd := (hb.events _ List.mem_cons_self q List.mem_cons_self).1
  have hwd' := (hb.events _ List.mem_cons_self q' (List.mem_cons_of_mem q List.mem_cons_self)).1
  obtain ⟨hmask, hmask', hcookie⟩ : _ ∧ _ ∧ _ := hb.shape _ List.mem_cons_self
  have hig : has q.ev.mask IN_IGNORED = false := by rw [hmask]; decide
  rcases process_lookup (q' :: changes.flatMap Change.events) hb hb.queue hwd hig h with
    hinv | ⟨m, slot, p, hm, hview, -, hslot, h⟩
  · exact hinv
  · cases m with
    | zero =>
      -- the pair is cut: wait for the rest of it
      have hfirst : firstTry = true := by
        rcases hm with h | h | h
        · exact h
        · omega
        · rw [List.length_cons] at h
          omega
      rw [List.take_zero, List.map_nil, handleEvent_out hmask (by simp), if_pos ⟨rfl, hfirst⟩] at h
      exact Option.some.inj h ▸ ⟨_, hb, hfine⟩
    | succ m =>
      rw [List.take_succ_cons, List.map_cons] at h
      cases hview' : view s.wlCache q'.ev.wd with
      | none =>
        have hfind' := (findWatch_spec hb.distinct hwd').1.mpr hview'
        rw [(handleEvent_moved hmask hmask' hcookie).1 hfind'] at h
        exact Option.some.inj h ▸ inv_rebuilt hb
      | some p' =>
        have hx : ¬(Change.moved q q').Missing (view s.wlCache) := by
          rintro (hnone | hnone)
          · exact nomatch hview.symm.trans hnone
          · exact nomatch hview'.symm.trans hnone
        obtain ⟨⟨p₀, hp₀, hplace⟩, p₀', hp₀', hplace'⟩ := hfine.known hx
        cases hfind' : findWatch s.wlCache q'.ev.wd with
        | none => exact nomatch ((findWatch_spec hb.distinct hwd').1.mp hfind').symm.trans hview'
        | some slot' =>
          obtain ⟨P', hP', hviewP'⟩ := (findWatch_spec hb.distinct hwd').2 slot' hfind'
          have hslot' : slotPath s.wlCache slot' = p₀' := by
            rw [slotPath, hP', Option.map_some, Option.getD_some]
            exact Option.some.inj (hviewP'.symm.trans hp₀')
          have hp : p = p₀ := Option.some.inj (hview.symm.trans hp₀)
          rw [(handleEvent_moved hmask hmask' hcookie).2 slot' hfind', hslot, hslot', hp] at h
          have hv : ∀ w, view (rewriteCachedPaths s.wlCache p₀ q.ev.name p₀' q'.ev.name) w =
              (view s.wlCache w).map (carried q.place q'.place) := by
            intro w
            rw [view_rewriteCachedPaths, hplace, hplace']
          have hne : ∀ w, view (rewriteCachedPaths s.wlCache p₀ q.ev.name p₀' q'.ev.name) w ≠ none ↔
              view s.wlCache w ≠ none := by
            intro w
            rw [hv, ne_eq, Option.map_eq_none_iff]
          exact inv_of_cache hb hfine hx nofun (distinct_rewriteCachedPaths hb.distinct _ _ _ _)
            (funext hv) (fun i w hw => (hne w).mpr (hb.watch_cached i w hw))
            (fun w hw => (hne w).mp hw) rfl h

/-- A rename out of the trees is handled: the subtree is zapped, or the cache rebuilt. -/
theorem inv_movedOut {q : Queued} (hb : Base argv s (.out q :: changes))
    (hfine : Fine argv s.kernel (view s.wlCache) (.out q :: changes))
    (hx : ¬(Change.out q).Missing (view s.wlCache)) (h : advance (movedOut s q.place) = some s') :
    Inv argv s' := by
  unfold movedOut at h
  obtain ⟨hdirs, hino, hcookie⟩ := zapSubtree_frame q.place s.wlCache s.kernel
  split at h
  · rename_i k' slots cnt hz
    obtain ⟨rfl, ⟨evs, hevs, hk'⟩, hwatch⟩ := zapSubtree_spec q.place s.wlCache s.kernel k' slots cnt hz
    have hv := view_zapped hb.distinct q.place
    have hdirs' : k'.dirs = s.kernel.dirs := by rw [hk']
    -- a watch that is left is in the cache, and one in the cache is left
    have hleft : ∀ i w, s.kernel.watch i = some w →
        (k'.watch i = some w ↔ view (s.wlCache.map (zapped q.place)) w ≠ none) := by
      intro i w hw
      obtain ⟨P, hP⟩ := Option.ne_none_iff_exists'.mp (hb.watch_cached i w hw)
      have hwd : 0 ≤ w := Int.le_of_lt (hb.watch_lt i w hw).1
      rw [hwatch, hv, hP, Option.filter_some, ne_eq, and_iff_right hw]
      constructor
      · intro hnot
        obtain ⟨-, j, hj⟩ := (view_eq_some_iff hb.distinct).mp hP
        have := hnot ⟨w, P⟩ (List.mem_of_getElem? hj) rfl hwd
        simp only [this, not_false_eq_true, decide_true, if_true, reduceCtorEq]
      · intro hne w' hw' hw'w _ hunder
        have hpath : w'.path = P :=
          Option.some.inj ((view_of_mem hb.distinct hw' (hw'w ▸ hwd)).symm.trans (hw'w ▸ hP))
        apply hne
        rw [hpath] at hunder
        simp only [hunder, not_true_eq_false, decide_false, Bool.false_eq_true, if_false]
    have hold : ∀ i w, k'.watch i = some w → s.kernel.watch i = some w := fun i w hw =>
      ((hwatch i w).mp hw).1
    have hnot : ∀ w, view (s.wlCache.map (zapped q.place)) w ≠ none → view s.wlCache w ≠ none := by
      intro w hne hnone
      rw [hv, hnone] at hne
      exact hne rfl
    rw [← Option.some.inj h]
    refine inv_of_tail (evs.map .ignored) hb hfine hx nofun ?_ (funext hv) hdirs' (by rw [hk'])
      (by rw [hk']) ?_ ?_ hold ?_
    · refine ⟨tree_of_dirs hb.tree hdirs' (by rw [hk']), hb.rootDirPaths, distinct_zapped hb.distinct _,
        ?_, ?_, ?_, ?_, ?_, ?_, ?_⟩
      · rw [hk']
        exact hb.nextWd
      · rw [hk']
        exact hb.nextCookie
      · intro i w hw
        rw [hk']
        exact hb.watch_dir i w (hold i w hw)
      · intro i w hw
        rw [hk']
        exact hb.watch_lt i w (hold i w hw)
      · exact fun i j w hi hj => hb.watch_inj i j w (hold i w hi) (hold j w hj)
      · exact fun i w hw => (hleft i w (hold i w hw)).mp hw
      · intro w hw
        rw [hk']
        exact hb.cache_lt w (hnot w hw)
    · have hign : (evs.map Change.ignored).flatMap Change.events = evs := by
        rw [List.flatMap_map]
        exact List.flatMap_singleton' evs
      dsimp only
      rw [hk', hb.queue, List.flatMap_append, hign]
      rfl
    · intro y hy
      obtain ⟨q', hq', rfl⟩ := List.mem_map.mp hy
      obtain ⟨w, hw, hwd, rfl⟩ := hevs q' hq'
      have hview := view_of_mem hb.distinct hw hwd
      exact ⟨w.wd, rfl, hwd, hb.cache_lt _ fun hnone => nomatch hview.symm.trans hnone⟩
    · exact fun i w hw hne => (hleft i w hw).mpr hne
  · rename_i k' slots hz
    rw [hz] at hdirs hino hcookie
    rw [← Option.some.inj h]
    refine inv_reinitialize (tree_of_dirs hb.tree hdirs hino) hb.rootDirPaths ?_
    dsimp only at hcookie ⊢
    rw [hcookie]
    exact hb.nextCookie

theorem inv_process_out {q : Queued} (hb : Base argv s (.out q :: changes))
    (hfine : Fine argv s.kernel (view s.wlCache) (.out q :: changes))
    (h : process s n firstTry = some s') : Inv argv s' := by
  have hwd := (hb.events _ List.mem_cons_self q List.mem_cons_self).1
  obtain ⟨hmask, hcookie⟩ : _ ∧ _ := hb.shape _ List.mem_cons_self
  have hig : has q.ev.mask IN_IGNORED = false := by rw [hmask]; decide
  rcases process_lookup (changes.flatMap Change.events) hb hb.queue hwd hig h with
    hinv | ⟨m, slot, p, -, hview, -, hslot, h⟩
  · exact hinv
  · have hx : ¬(Change.out q).Missing (view s.wlCache) := fun hnone => nomatch hview.symm.trans hnone
    obtain ⟨p', hp', hplace⟩ := hfine.known hx
    -- no other event has the cookie
    have hnext : ∀ ev' rest, (List.take m (changes.flatMap Change.events)).map Queued.ev = ev' :: rest →
        has ev'.mask IN_MOVED_TO = true → ev'.cookie ≠ q.ev.cookie := by
      intro ev' rest hbuf _ hsame
      have hmem : ev' ∈ (List.take m (changes.flatMap Change.events)).map Queued.ev :=
        hbuf ▸ List.mem_cons_self
      obtain ⟨q', hq', rfl⟩ := List.mem_map.mp hmem
      obtain ⟨y, hy, hq'y⟩ := List.mem_flatMap.mp (List.mem_of_mem_take hq')
      exact (List.pairwise_cons.mp hb.cookies).1 y hy q List.mem_cons_self q' hq'y hcookie hsame.symm
    rw [handleEvent_out hmask hnext, hslot, Option.some.inj (hview.symm.trans hp'), ← hplace] at h
    split at h
    · exact Option.some.inj h ▸ ⟨_, hb, hfine⟩
    · exact inv_movedOut hb hfine hx h

/-- **Handling an event keeps the invariant.** -/
theorem inv_process (hi : Inv argv s) (h : process s n firstTry = some s') : Inv argv s' := by
  obtain ⟨changes, hb, hfine⟩ := hi
  cases changes with
  | nil =>
    unfold process at h
    rw [hb.queue, List.flatMap_nil, List.take_nil] at h
    exact nomatch h
  | cons x changes =>
    cases x with
    | made q => exact inv_process_made hb hfine h
    | gone q => exact inv_process_gone hb hfine h
    | moved q q' => exact inv_process_moved hb hfine h
    | out q => exact inv_process_out hb hfine h
    | ignored q => exact inv_process_ignored hb hfine h

end Process

/-! ## The cache and the tree -/

theorem inv_step {argv : List Str} {s s' : State} {a : Act} (hi : Inv argv s) (ha : Safe argv s a)
    (hs : step argv s a = some s') : Inv argv s' := by
  cases a with
  | process n firstTry => exact inv_process hi hs
  | mkdir p name =>
    obtain ⟨k', hk', rfl⟩ := Option.map_eq_some_iff.mp hs
    exact inv_mkdir hi hk'
  | rmdir P =>
    obtain ⟨k', hk', rfl⟩ := Option.map_eq_some_iff.mp hs
    exact inv_rmdir hi hk'
  | rename p name p' name' =>
    obtain ⟨k', hk', rfl⟩ := Option.map_eq_some_iff.mp hs
    exact inv_rename hi ha hk'

theorem inv_of_reaches {argv : List Str} {s : State} (h : Reaches (inotifyDtree argv) (Safe argv) s) :
    Inv argv s := by
  refine Reaches.invariant (I := Inv argv) ?_ ?_ h
  · rintro s ⟨-, k, ht, hcookie, rfl⟩
    exact inv_reinitialize ht rfl hcookie
  · intro s a s' hi ha hs
    exact inv_step hi ha hs

/-- With nothing in the queue, the invariant says that the cache is the tree. -/
theorem Inv.tracks {argv : List Str} {s : State} (hi : Inv argv s) (hqueue : s.kernel.queue = []) :
    Tracks argv s := by
  obtain ⟨changes, hb, hfine⟩ := hi
  have hnil : changes = [] := by
    cases changes with
    | nil => rfl
    | cons x changes =>
      have h := hb.queue.symm.trans hqueue
      cases x <;> exact nomatch h
  subst hnil
  rcases hfine with hdoomed | hg
  · exact hdoomed.elim
  refine ⟨?_, ?_, ?_⟩
  · intro w hw hwd
    have hview := view_of_mem hb.distinct hw hwd
    obtain ⟨d, hd, hpath, hwatch⟩ := hg.actual w.wd w.path hview
    refine ⟨hg.inside _ _ hview, ?_⟩
    rw [← hpath, wdAt_of_mem hb.tree hd, hwatch]
  · intro d hd hin
    rcases hg.covered d hd hin with ⟨w, -, hview⟩ | ⟨before, q, after, heq, -⟩
    · obtain ⟨hwd, i, hi⟩ := (view_eq_some_iff hb.distinct).mp hview
      exact ⟨⟨w, d.path⟩, List.mem_of_getElem? hi, hwd, rfl⟩
    · exact absurd heq (by simp)
  · intro i j a b hi hj ha hb' hpath
    obtain ⟨d, hd, hda, hwa⟩ := hg.actual _ _ (view_of_mem hb.distinct (List.mem_of_getElem? hi) ha)
    obtain ⟨d', hd', hdb, hwb⟩ := hg.actual _ _ (view_of_mem hb.distinct (List.mem_of_getElem? hj) hb')
    have hdd : d = d' := hb.tree.path_inj d hd d' hd' (by rw [hda, hdb, hpath])
    have hwd : a.wd = b.wd := Option.some.inj (hwa.symm.trans (hdd ▸ hwb))
    exact hb.distinct i j a.wd a.path b.path ha hi (by rw [hj, hwd])

/-- A root `r` and a directory `o` elsewhere, both empty. -/
def twoDirs : Kernel :=
  { dirs := [⟨1, ['r']⟩, ⟨2, ['o']⟩], nextIno := 3, watch := fun _ => none, nextWd := 1, nextCookie := 1
    queue := [] }

theorem tree_twoDirs : Tree [['r']] twoDirs := by
  refine ⟨by decide, by decide, by decide, ?_, by decide⟩
  intro d hd d' hd' F hF hF'
  -- neither is under the other, so only the two themselves are between
  have heq : d = d' := by
    have hunder : ∀ d ∈ twoDirs.dirs, ∀ d' ∈ twoDirs.dirs, Under d.path d'.path → d = d' := by decide
    exact hunder d hd d' hd' (hF.trans hF')
  exact ⟨d, hd, hF.antisymm (heq ▸ hF')⟩

def started : State := reinitialize { kernel := twoDirs, rootDirPaths := [some ['r']], wlCache := [] }

theorem started_init : (inotifyDtree [['r']]).init started :=
  ⟨by decide, twoDirs, tree_twoDirs, by decide, rfl⟩

/-- **The cache tracks the tree**: in every run in which every rename is safe, whenever the
queue is drained the cache is the tree. -/
theorem cache_tracks_tree (argv : List Str) (s : State)
    (h : Reaches (inotifyDtree argv) (Safe argv) s) (hqueue : s.kernel.queue = []) : Tracks argv s :=
  (inv_of_reaches h).tracks hqueue

/-- `mkdir r/a`, and once that is handled `rename r/a r/b`, whose two events come in two reads. -/
theorem cache_tracks_tree_one_rename : ∃ s : State, s.kernel.queue = [] ∧
    s.wlCache.filter (fun w => 0 ≤ w.wd) = [⟨1, ['r']⟩, ⟨2, ['r', '/', 'b']⟩] ∧ Tracks [['r']] s := by
  have hrun : ((inotifyDtree [['r']]).runWith (Safe [['r']]) started
      [.mkdir ['r'] ['a'], .process 1 true, .rename ['r'] ['a'] ['r'] ['b'], .process 1 true,
        .process 2 true]).map (fun s => (s.kernel.queue, s.wlCache.filter fun w => 0 ≤ w.wd)) =
      some ([], [⟨1, ['r']⟩, ⟨2, ['r', '/', 'b']⟩]) := by
    decide +kernel
  obtain ⟨s, hs, heq⟩ := Option.map_eq_some_iff.mp hrun
  obtain ⟨hqueue, hcache⟩ := Prod.mk.inj heq
  exact ⟨s, hqueue, hcache, cache_tracks_tree [['r']] s
    (System.reaches_of_runWith _ (.init started_init) hs) hqueue⟩

/-- `mkdir r/a` and `rename r/a r/c` before the first is handled: `r/c` is never cached. -/
theorem cache_misses_renamed :
    ¬∀ s, Reachable (inotifyDtree [['r']]) s → s.kernel.queue = [] → Tracks [['r']] s := by
  intro hall
  have hrun : ((inotifyDtree [['r']]).run started
      [.mkdir ['r'] ['a'], .rename ['r'] ['a'] ['r'] ['c'], .process 3 true, .process 2 true]).map
        (fun s => (s.kernel.queue, s.kernel.dirs, s.wlCache.filter fun w => 0 ≤ w.wd)) =
      some ([], [⟨1, ['r']⟩, ⟨2, ['o']⟩, ⟨3, ['r', '/', 'c']⟩], [⟨1, ['r']⟩]) := by
    decide +kernel
  obtain ⟨s, hs, heq⟩ := Option.map_eq_some_iff.mp hrun
  simp only [Prod.mk.injEq] at heq
  obtain ⟨hqueue, hdirs, hcache⟩ := heq
  have htracks := hall s (System.reachable_of_run _ (.init started_init) hs) hqueue
  obtain ⟨w, hw, hwd, hpath⟩ := htracks.cached ⟨3, ['r', '/', 'c']⟩ (by rw [hdirs]; decide) (by decide)
  have hmem : w ∈ s.wlCache.filter fun w => 0 ≤ w.wd := List.mem_filter.mpr ⟨hw, decide_eq_true hwd⟩
  rw [hcache, List.mem_singleton] at hmem
  rw [hmem] at hpath
  exact absurd hpath (by decide)

end Tlpi.InotifyDtree
