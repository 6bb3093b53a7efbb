/-
`inotify/inotify_dtree.c`: the slots of the cache and the watches of the kernel, over whole runs
in a world that does as it likes (`Tlpi.DtreeWorld`).

Six operations write the slots: the walk of `watchSubtree()` fills them, `zapSubtree()`, a
deletion and an unmount empty them, `rewriteCachedPaths()` changes their pathnames, and
`reinitialize()` starts anew. Each of them is one lemma about `Inv`, and so is each thing that
may happen in the kernel in the meantime. What `Inv` adds to the statement proved of every
reachable state is what it takes to carry it on: a watch descriptor that was dropped is not
given again, so the event that announces it never finds the slot of another directory.
-/
import Tlpi.DtreeWorld

set_option autoImplicit false

namespace Tlpi.DtreeWorld

open Tlpi.Pathname Tlpi.Inotify Tlpi.InotifyDtree Tlpi.Transition

/-! ## 1. The system -/

/-- The program between two of its calls; `buf` is what it has read and not handled. -/
structure Run where
  state : State
  buf : List Event

/-- The events were handled: those among them that announce a dropped watch are. -/
def State.handled (s : State) (evs : List Event) : State :=
  { s with
    inotify := { s.inotify with
      gone := s.inotify.gone.filter fun wd => !evs.any fun ev => isSelf ev && ev.wd == wd } }

/-- What `processInotifyEvents()` makes of the result of a call. -/
def advance (buf : List Event) : State × Consumed → Option Run
  | (s, .events n) => some ⟨s.handled (buf.take n), buf.drop n⟩
  | (s, .buffer) => some ⟨s, []⟩
  | (s, .again) => some ⟨s, buf⟩
  | (_, .exit) => none

inductive Act where
  /-- Something happens in the file system. -/
  | change (c : Change)
  /-- A `read()` of `n` events, behind those in the buffer. -/
  | read (n : ℕ)
  /-- A call of `processNextInotifyEvent()`. -/
  | process (w : World) (firstTry : Bool)
  /-- The commands `a path`, `z path` and `0`, which are executed between two buffers. -/
  | add (w : World) (arg : Str)
  | zap (w : World) (arg : Str)
  | rebuild (w : World)

/-- `executeCommand()` runs when the buffer has been processed. -/
def command (r : Run) (f : State → State) : Option Run :=
  if r.buf = [] then some { r with state := f r.state } else none

def step (num : Numbering) (r : Run) : Act → Option Run
  | .change c => some { r with state := r.state.changes [c] }
  | .read n =>
    let k := r.state.inotify
    some ⟨{ r.state with inotify := { k with queue := k.queue.drop n } }, r.buf ++ k.queue.take n⟩
  | .process w firstTry =>
    match r.buf with
    | [] => none
    | ev :: buf =>
      advance r.buf (processNextInotifyEvent num w r.state ev buf.head? firstTry)
  | .add w arg => command r fun s => watchSubtree num w (zapSubtree w s arg).1 arg
  | .zap w arg => command r fun s => (zapSubtree w s arg).1
  | .rebuild w => command r ( reinitialize num w)

/-- `inotify_dtree` from its first `reinitialize()` on, with any directories as roots. -/
def inotifyDtree (num : Numbering) : System Run Act where
  init r := ∃ (argv : List Str) (w : World),
    r = ⟨ reinitialize num w ⟨{}, argv.map some, []⟩, []⟩
  step := step num

/-- **The slots are the watches.** -/
structure SlotsMatch (s : State) : Prop where
  /-- No two used slots hold one watch descriptor. -/
  distinct : ∀ (i j : ℕ) (a b : Watch), s.wlCache[i]? = some a → s.wlCache[j]? = some b →
    a.wd ≠ -1 → a.wd = b.wd → i = j
  /-- An unused slot has an empty pathname. -/
  unused : ∀ a ∈ s.wlCache, a.wd = -1 → a.path = []
  /-- The watch descriptors in used slots are the watches that are active and those that the
  kernel has dropped and whose own event has not been handled. -/
  watches : ∀ wd, (∃ a ∈ s.wlCache, a.wd ≠ -1 ∧ a.wd = wd) ↔
    s.inotify.active wd ∨ wd ∈ s.inotify.gone

/-! ## 2. The invariant -/

/-- An event that the kernel may have queued: the one of an overflow, or of a watch that was
removed, or one that leaves its watch as it is, or that of a watch that was dropped. -/
inductive Announced (k : Instance) (ev : Event) : Prop
  | overflow (hwd : ev.wd = -1) (hmask : ev.mask = IN_Q_OVERFLOW)
  | ignored (hmask : ev.mask = IN_IGNORED)
  | plain (hmask : isPlain ev.mask = true)
  | self (hmask : ev.mask ∈ selfMasks) (hwd : 0 ≤ ev.wd) (hissued : ev.wd ∈ k.issued)
    (hdropped : k.active ev.wd = false)

structure Inv (s : State) (buf : List Event) : Prop where
  distinct : Distinct s.wlCache
  unused : ∀ a ∈ s.wlCache, a.wd = -1 → a.path = []
  used : ∀ a ∈ s.wlCache, a.wd ≠ -1 → 0 ≤ a.wd
  cached : ∀ wd, (view s.wlCache wd).isSome ↔ s.inotify.active wd ∨ wd ∈ s.inotify.gone
  issued : ∀ wd, s.inotify.active wd ∨ wd ∈ s.inotify.gone → wd ∈ s.inotify.issued
  dropped : ∀ wd ∈ s.inotify.gone, s.inotify.active wd = false
  announced : ∀ ev, ev ∈ buf ∨ ev ∈ s.inotify.queue → Announced s.inotify ev

variable {num : Numbering} {w : World} {s : State} {buf : List Event}

theorem Inv.slotsMatch (h : Inv s buf) : SlotsMatch s where
  distinct := by
    rintro i j ⟨wd, P⟩ ⟨wd', Q⟩ hi hj hused rfl
    exact h.distinct i j wd P Q (h.used _ (List.mem_of_getElem? hi) hused) hi hj
  unused := h.unused
  watches := by
    intro wd
    rw [← h.cached]
    constructor
    · rintro ⟨⟨wd, P⟩, ha, hused, rfl⟩
      obtain ⟨i, hi⟩ := List.mem_iff_getElem?.mp ha
      have hview := (view_eq_some_iff h.distinct).mpr ⟨h.used _ ha hused, i, hi⟩
      rw [hview]
      rfl
    · intro hsome
      obtain ⟨P, hP⟩ := Option.isSome_iff_exists.mp hsome
      obtain ⟨hwd, i, hi⟩ := (view_eq_some_iff h.distinct).mp hP
      refine ⟨_, List.mem_of_getElem? hi, ?_, rfl⟩
      rintro rfl
      exact absurd hwd (by decide)

/-- Fewer events in the buffer. -/
theorem Inv.of_subset (h : Inv s buf) {buf' : List Event} (hsub : ∀ ev ∈ buf', ev ∈ buf) :
    Inv s buf' :=
  { h with announced := fun ev hev => h.announced ev (hev.imp_left (hsub ev)) }

/-! ## 3. What happens in the kernel -/

theorem any_filter_ne (watches : List (ℕ × ℤ)) (wd wd' : ℤ) :
    ((watches.filter fun w => w.2 ≠ wd).any fun w => w.2 = wd') =
      (decide (wd' ≠ wd) && watches.any fun w => w.2 = wd') := by
  rw [List.any_filter, Bool.eq_iff_iff]
  simp only [List.any_eq_true, Bool.and_eq_true, decide_eq_true_eq]
  constructor
  · rintro ⟨w, hw, hne, rfl⟩
    exact ⟨hne, w, hw, rfl⟩
  · rintro ⟨hne, w, hw, rfl⟩
    exact ⟨w, hw, hne, rfl⟩

/-- An announcement holds as long as no number that was given becomes active again. -/
theorem Announced.mono {k k' : Instance} {ev : Event} (h : Announced k ev)
    (hissued : ∀ wd ∈ k.issued, wd ∈ k'.issued)
    (hactive : ∀ wd ∈ k.issued, k.active wd = false → k'.active wd = false) : Announced k' ev := by
  cases h with
  | overflow hwd hmask => exact .overflow hwd hmask
  | ignored hmask => exact .ignored hmask
  | plain hmask => exact .plain hmask
  | self hmask hwd hiss hdropped =>
    exact .self hmask hwd (hissued _ hiss) (hactive _ hiss hdropped)

theorem Inv.nonneg (h : Inv s buf) {wd : ℤ} (hwd : s.inotify.active wd ∨ wd ∈ s.inotify.gone) :
    0 ≤ wd := by
  by_contra hneg
  have hsome := (h.cached wd).mpr hwd
  rw [view_of_neg (Int.not_le.mp hneg)] at hsome
  exact nomatch hsome

/-- A queue of other events that the kernel may queue. -/
theorem Inv.requeue (h : Inv s buf) {queue : List Event}
    (hqueue : ∀ ev ∈ queue, ev ∈ s.inotify.queue ∨ Announced s.inotify ev) :
    Inv { s with inotify := { s.inotify with queue := queue } } buf := by
  refine ⟨h.distinct, h.unused, h.used, h.cached, h.issued, h.dropped, ?_⟩
  intro ev hev
  have hold : Announced s.inotify ev := by
    rcases hev with hev | hev
    · exact h.announced ev (.inl hev)
    · rcases hqueue ev hev with hev | hev
      · exact h.announced ev (.inr hev)
      · exact hev
  exact hold.mono (fun _ hwd => hwd) fun _ _ hactive => hactive

/-- A watch that the kernel drops. -/
theorem Inv.drop (h : Inv s buf) {wd : ℤ} {mask : BitVec 32} (hactive : s.inotify.active wd = true)
    (hmask : mask ∈ selfMasks) :
    Inv { s with inotify := { s.inotify with
      watches := s.inotify.watches.filter fun w => w.2 ≠ wd
      gone := wd :: s.inotify.gone
      queue := s.inotify.queue ++ [⟨wd, mask, 0, []⟩, ⟨wd, IN_IGNORED, 0, []⟩] } } buf := by
  refine ⟨h.distinct, h.unused, h.used, ?_, ?_, ?_, ?_⟩
  · intro wd'
    rw [h.cached, Instance.active, Instance.active, any_filter_ne, List.mem_cons]
    by_cases heq : wd' = wd
    · subst heq
      exact iff_of_true (.inl hactive) (.inr (.inl rfl))
    · simp [heq]
  · intro wd' hwd'
    rw [Instance.active, any_filter_ne, List.mem_cons, Bool.and_eq_true] at hwd'
    rcases hwd' with ⟨-, hactive'⟩ | rfl | hgone
    · exact h.issued wd' (.inl hactive')
    · exact h.issued wd' (.inl hactive)
    · exact h.issued wd' (.inr hgone)
  · intro wd' hwd'
    rw [Instance.active, any_filter_ne, Bool.and_eq_false_iff]
    rcases List.mem_cons.mp hwd' with rfl | hgone
    · exact .inl (by simp)
    · exact .inr (h.dropped wd' hgone)
  · intro ev hev
    -- both events are of a descriptor that is not active any more
    have hself : Instance.active { s.inotify with
        watches := s.inotify.watches.filter fun w => w.2 ≠ wd } wd = false := by
      rw [Instance.active, any_filter_ne]
      simp
    have hold : Announced s.inotify ev ∨ ev ∈ [(⟨wd, mask, 0, []⟩ : Event), ⟨wd, IN_IGNORED, 0, []⟩] := by
      rw [List.mem_append] at hev
      rcases hev with hev | hev | hev
      · exact .inl (h.announced ev (.inl hev))
      · exact .inl (h.announced ev (.inr hev))
      · exact .inr hev
    rcases hold with hold | hnew
    · refine hold.mono (fun _ hwd => hwd) fun wd' _ hactive' => ?_
      rw [Instance.active, any_filter_ne, Bool.and_eq_false_iff]
      exact .inr hactive'
    · rcases List.mem_cons.mp hnew with rfl | hnew
      · exact .self hmask (h.nonneg (.inl hactive)) (h.issued wd (.inl hactive)) hself
      · exact .ignored (by rw [List.mem_singleton.mp hnew])

/-- **What a change does**: it does something to the queue, or drops a watch. -/
theorem Instance.change_cases (k : Instance) (c : Change) :
    (∃ queue, k.change c = { k with queue := queue } ∧ ∀ ev ∈ queue, ev ∈ k.queue ∨
      (c = .notify ev ∧ isPlain ev.mask = true) ∨ ev = ⟨-1, IN_Q_OVERFLOW, 0, []⟩) ∨
    ∃ wd mask, k.active wd = true ∧ mask ∈ selfMasks ∧ k.change c =
      { k with
        watches := k.watches.filter fun w => w.2 ≠ wd
        gone := wd :: k.gone
        queue := k.queue ++ [⟨wd, mask, 0, []⟩, ⟨wd, IN_IGNORED, 0, []⟩] } := by
  -- a change that is not possible leaves the queue as it is
  have hnone : ∀ ev ∈ k.queue, ev ∈ k.queue ∨
      (c = .notify ev ∧ isPlain ev.mask = true) ∨ ev = ⟨-1, IN_Q_OVERFLOW, 0, []⟩ := fun _ hev => .inl hev
  have hsnoc : ∀ ev₀ : Event, ((c = .notify ev₀ ∧ isPlain ev₀.mask = true) ∨
      ev₀ = ⟨-1, IN_Q_OVERFLOW, 0, []⟩) → ∀ ev ∈ k.queue ++ [ev₀], ev ∈ k.queue ∨
        (c = .notify ev ∧ isPlain ev.mask = true) ∨ ev = ⟨-1, IN_Q_OVERFLOW, 0, []⟩ := by
    intro ev₀ hev₀ ev hev
    rcases List.mem_append.mp hev with hev | hev
    · exact .inl hev
    · rw [List.mem_singleton.mp hev]
      exact .inr hev₀
  cases c with
  | notify ev =>
    rw [Instance.change]
    split
    · rename_i hev
      exact .inl ⟨_, rfl, hsnoc ev (.inl ⟨rfl, hev.2⟩)⟩
    · exact .inl ⟨k.queue, rfl, hnone⟩
  | drop wd mask =>
    rw [Instance.change]
    split
    · rename_i hdrop
      exact .inr ⟨wd, mask, hdrop.1, hdrop.2, rfl⟩
    · exact .inl ⟨k.queue, rfl, hnone⟩
  | overflow => exact .inl ⟨_, rfl, hsnoc _ (.inr rfl)⟩
  | lose i => exact .inl ⟨_, rfl, fun ev hev => .inl (List.mem_of_mem_eraseIdx hev)⟩
  | reorder queue =>
    rw [Instance.change]
    split
    · rename_i hperm
      exact .inl ⟨queue, rfl, fun ev hev => .inl (hperm.mem_iff.mp hev)⟩
    · exact .inl ⟨k.queue, rfl, hnone⟩

/-- Whatever happens in the file system. -/
theorem Inv.change (h : Inv s buf) (c : Change) :
    Inv { s with inotify := s.inotify.change c } buf := by
  rcases s.inotify.change_cases c with ⟨queue, heq, hqueue⟩ | ⟨wd, mask, hactive, hmask, heq⟩
  · rw [heq]
    refine h.requeue fun ev hev => (hqueue ev hev).imp_right ?_
    rintro (⟨-, hplain⟩ | rfl)
    · exact .plain hplain
    · exact .overflow rfl rfl
  · rw [heq]
    exact h.drop hactive hmask

theorem Inv.changes (h : Inv s buf) (cs : List Change) : Inv (s.changes cs) buf := by
  induction cs generalizing s with
  | nil => exact h
  | cons c cs ih => exact ih (h.change c)

/-- Whatever happens in the kernel, no watch is added. -/
theorem mem_watches_changes {k : Instance} (cs : List Change) {watch : ℕ × ℤ} :
    watch ∈ (cs.foldl Instance.change k).watches → watch ∈ k.watches := by
  refine List.foldlRecOn (motive := fun k' : Instance => watch ∈ k'.watches → watch ∈ k.watches) cs _
    (fun h => h) ?_
  intro k' ih c _ h
  rcases k'.change_cases c with ⟨queue, heq, -⟩ | ⟨wd, mask, -, -, heq⟩
  · rw [heq] at h
    exact ih h
  · rw [heq] at h
    exact ih (List.mem_of_mem_filter h)

theorem inactive_changes (cs : List Change) {wd : ℤ} (h : s.inotify.active wd = false) :
    (s.changes cs).inotify.active wd = false := by
  rw [Instance.active, List.any_eq_false] at h ⊢
  exact fun watch hwatch => h watch (mem_watches_changes cs hwatch)

/-! ## 4. The operations on the slots -/

theorem mem_addWatchToCache {wlCache : List Watch} {wd : ℤ} {P : Str} {a : Watch}
    (h : a ∈ addWatchToCache wlCache wd P) : a = ⟨wd, P⟩ ∨ a ∈ wlCache ∨ a = ⟨-1, []⟩ := by
  rcases List.mem_or_eq_of_mem_set h with h | h
  · refine .inr ?_
    unfold findEmptyCacheSlot at h
    split at h
    · exact .inl h
    · rcases List.mem_append.mp h with h | h
      · exact .inl h
      · exact .inr (List.eq_of_mem_replicate h)
  · exact .inl h

theorem mem_markCacheSlotEmpty {wlCache : List Watch} {slot : ℕ} {a : Watch}
    (h : a ∈ markCacheSlotEmpty wlCache slot) : a ∈ wlCache ∨ a = ⟨-1, []⟩ :=
  List.mem_or_eq_of_mem_set h

/-- A watch on an inode that has none, and a slot for it. -/
theorem Inv.addWatch (h : Inv s buf) (ino : ℕ) (P : Str) :
    Inv { s with
      inotify := { s.inotify with
        watches := (ino, num.next s.inotify.issued) :: s.inotify.watches
        issued := num.next s.inotify.issued :: s.inotify.issued }
      wlCache := addWatchToCache s.wlCache (num.next s.inotify.issued) P } buf ∧
    view s.wlCache (num.next s.inotify.issued) = none := by
  have hnonneg := num.nonneg s.inotify.issued
  have hfresh := num.fresh s.inotify.issued
  -- of the new descriptor no more is needed than that it is fresh
  generalize num.next s.inotify.issued = wd at hnonneg hfresh ⊢
  have hnew : view s.wlCache wd = none := by
    rw [← Option.not_isSome_iff_eq_none, h.cached]
    exact fun hwd => hfresh (h.issued wd hwd)
  refine ⟨⟨distinct_addWatchToCache h.distinct P hnew, ?_, ?_, ?_, ?_, ?_, ?_⟩, hnew⟩
  · intro a ha hunused
    rcases mem_addWatchToCache ha with rfl | ha | rfl
    · have hwd : wd = -1 := hunused
      omega
    · exact h.unused a ha hunused
    · rfl
  · intro a ha hused
    rcases mem_addWatchToCache ha with rfl | ha | rfl
    · exact hnonneg
    · exact h.used a ha hused
    · exact absurd rfl hused
  · intro wd'
    rw [view_addWatchToCache h.distinct hnonneg P hnew]
    simp only [Instance.active, List.any_cons, Bool.or_eq_true, decide_eq_true_eq]
    split
    · rename_i heq
      exact iff_of_true rfl (.inl (.inl heq.symm))
    · rename_i hne
      rw [h.cached, or_iff_right (Ne.symm hne)]
      rfl
  · intro wd' hwd'
    simp only [Instance.active, List.any_cons, Bool.or_eq_true, decide_eq_true_eq] at hwd'
    rcases hwd' with (rfl | hactive) | hgone
    · exact List.mem_cons_self
    · exact List.mem_cons_of_mem _ (h.issued wd' (.inl hactive))
    · exact List.mem_cons_of_mem _ (h.issued wd' (.inr hgone))
  · intro wd' hwd'
    simp only [Instance.active, List.any_cons, Bool.or_eq_false_iff, decide_eq_false_iff_not]
    refine ⟨?_, h.dropped wd' hwd'⟩
    rintro rfl
    exact hfresh (h.issued wd (.inr hwd'))
  · intro ev hev
    refine (h.announced ev hev).mono (fun _ hwd => List.mem_cons_of_mem _ hwd) ?_
    intro wd' hissued hactive
    simp only [Instance.active, List.any_cons, Bool.or_eq_false_iff, decide_eq_false_iff_not]
    refine ⟨?_, hactive⟩
    rintro rfl
    exact hfresh hissued

/-- The state with a watch on an inode that had none, and a slot for it. -/
def State.watched (num : Numbering) (s : State) (ino : ℕ) (P : Str) : State :=
  { s with
    inotify := { s.inotify with
      watches := (ino, num.next s.inotify.issued) :: s.inotify.watches
      issued := num.next s.inotify.issued :: s.inotify.issued }
    wlCache := addWatchToCache s.wlCache (num.next s.inotify.issued) P }

/-- **What a visit does**: beside what happens in the meantime, nothing, or it watches an inode. -/
theorem Inv.traverseTree_cases (h : Inv s buf) (v : Visit) :
    traverseTree num s v = s.changes v.changes ∨ ∃ ino, v.ino = some ino ∧
      traverseTree num s v = (s.changes v.changes).watched num ino v.pathname := by
  have h := h.changes v.changes
  rw [DtreeWorld.traverseTree]
  split
  · split
    · exact .inl rfl
    · rename_i ino hino
      rw [Instance.inotifyAddWatch]
      cases hfind : (s.changes v.changes).inotify.watches.find? fun w => w.1 = ino with
      | some watch =>
        -- the inode is watched, and the watch is in the cache
        have hactive : (s.changes v.changes).inotify.active watch.2 = true :=
          List.any_eq_true.mpr ⟨watch, List.mem_of_find?_eq_some hfind, decide_eq_true rfl⟩
        have hsome : (findWatch (s.changes v.changes).wlCache watch.2).isSome := by
          rw [Option.isSome_iff_ne_none, ne_eq,
            (findWatch_spec h.distinct (h.nonneg (.inl hactive))).1, ← ne_eq,
            ← Option.isSome_iff_ne_none]
          exact (h.cached watch.2).mpr (.inl hactive)
        left
        simp only [hsome, if_true]
      | none =>
        obtain ⟨-, hnew⟩ := @Inv.addWatch num _ _ h ino v.pathname
        have hnone := (findWatch_spec h.distinct (num.nonneg _)).1.mpr hnew
        simp only [hnone, Option.isSome_none, Bool.false_eq_true, if_false]
        exact .inr ⟨ino, hino, rfl⟩
  · exact .inl rfl

theorem Inv.traverseTree (h : Inv s buf) (v : Visit) : Inv (traverseTree num s v) buf := by
  rcases @Inv.traverseTree_cases num _ _ h v with heq | ⟨ino, -, heq⟩
  · rw [heq]
    exact h.changes v.changes
  · rw [heq]
    exact ((h.changes v.changes).addWatch ino v.pathname).1

theorem Inv.watchSubtree (h : Inv s buf) (P : Str) : Inv (watchSubtree num w s P) buf :=
  List.foldlRecOn (motive := fun s => Inv s buf) _ _ h fun _ hs v _ => hs.traverseTree v

theorem findWatch_of_slot {wlCache : List Watch} (hd : Distinct wlCache) {j : ℕ} {a : Watch}
    (hj : wlCache[j]? = some a) (hwd : 0 ≤ a.wd) : findWatch wlCache a.wd = some j := by
  obtain ⟨hnone, hsome⟩ := findWatch_spec hd hwd
  cases hf : findWatch wlCache a.wd with
  | none =>
    have hview := (view_eq_some_iff hd).mpr ⟨hwd, j, hj⟩
    rw [hnone.mp hf] at hview
    exact nomatch hview
  | some slot =>
    obtain ⟨P, hslot, -⟩ := hsome slot hf
    rw [hd slot j a.wd P a.path hwd hslot hj]

/-- A slot is emptied whose watch the kernel does not have, or does not have any more. -/
theorem Inv.markCacheSlotEmpty {k : Instance} (h : Inv s buf) {wd : ℤ} {slot : ℕ} (hwd : 0 ≤ wd)
    (hslot : findWatch s.wlCache wd = some slot)
    (hactive : ∀ wd', k.active wd' = true ↔ wd' ≠ wd ∧ s.inotify.active wd' = true)
    (hgone : ∀ wd', wd' ∈ k.gone ↔ wd' ≠ wd ∧ wd' ∈ s.inotify.gone)
    (hissued : k.issued = s.inotify.issued)
    (hqueue : ∀ ev ∈ k.queue, ev ∈ s.inotify.queue ∨ ev.mask = IN_IGNORED) :
    Inv { s with inotify := k, wlCache := markCacheSlotEmpty s.wlCache slot } buf := by
  refine ⟨distinct_markCacheSlotEmpty h.distinct slot, ?_, ?_, ?_, ?_, ?_, ?_⟩
  · intro a ha hunused
    rcases mem_markCacheSlotEmpty ha with ha | rfl
    · exact h.unused a ha hunused
    · rfl
  · intro a ha hused
    rcases mem_markCacheSlotEmpty ha with ha | rfl
    · exact h.used a ha hused
    · exact absurd rfl hused
  · intro wd'
    rw [view_markCacheSlotEmpty h.distinct hwd hslot, hactive, hgone, ← and_or_left, ← h.cached]
    by_cases heq : wd' = wd
    · rw [if_pos heq]
      exact iff_of_false (fun hsome => nomatch hsome) fun hne => hne.1 heq
    · rw [if_neg heq]
      exact (and_iff_right heq).symm
  · intro wd' hwd'
    rw [hactive, hgone, ← and_or_left] at hwd'
    rw [hissued]
    exact h.issued wd' hwd'.2
  · intro wd' hwd'
    rw [hgone] at hwd'
    have hold := h.dropped wd' hwd'.2
    rw [← Bool.not_eq_true, hactive, hold]
    exact fun hne => nomatch hne.2
  · intro ev hev
    -- no descriptor becomes active, so what was announced stays announced
    have hold : Announced s.inotify ev := by
      rcases hev with hev | hev
      · exact h.announced ev (.inl hev)
      · rcases hqueue ev hev with hev | hmask
        · exact h.announced ev (.inr hev)
        · exact .ignored hmask
    refine hold.mono (fun wd' hwd' => hissued ▸ hwd') fun wd' _ hinactive => ?_
    rw [← Bool.not_eq_true, hactive, hinactive]
    exact fun hne => nomatch hne.2

/-- `inotify_rm_watch()` and its slot. -/
theorem Inv.rmWatch (h : Inv s buf) {j : ℕ} {a : Watch} {k : Instance}
    (hj : s.wlCache[j]? = some a) (hwd : 0 ≤ a.wd)
    (hrm : s.inotify.inotifyRmWatch a.wd = some k) :
    Inv { s with inotify := k, wlCache := InotifyDtree.markCacheSlotEmpty s.wlCache j } buf := by
  rw [Instance.inotifyRmWatch] at hrm
  split at hrm
  · rename_i hactive
    rw [Option.some.injEq] at hrm
    subst hrm
    refine h.markCacheSlotEmpty hwd (findWatch_of_slot h.distinct hj hwd) ?_ ?_ rfl ?_
    · intro wd'
      rw [Instance.active, any_filter_ne, Bool.and_eq_true, decide_eq_true_eq]
      rfl
    · intro wd'
      refine ⟨fun hgone => ⟨?_, hgone⟩, fun hgone => hgone.2⟩
      rintro rfl
      rw [h.dropped _ hgone] at hactive
      exact nomatch hactive
    · intro ev hev
      rcases List.mem_append.mp hev with hev | hev
      · exact .inl hev
      · rw [List.mem_singleton.mp hev]
        exact .inr rfl
  · exact nomatch hrm

/-- `zapSubtree()`, whether it gets to the end or not. -/
theorem Inv.zapSlots (pn : Str) (js : List ℕ) : ∀ {s : State}, Inv s buf →
    Inv (zapSlots w pn js s).1 buf := by
  induction js with
  | nil => exact fun h => h
  | cons j js ih =>
    intro s h
    rw [DtreeWorld.zapSlots]
    cases hj : s.wlCache[j]? with
    | none => exact h
    | some a =>
      simp only
      split
      · rename_i ha
        have h := h.changes (w.rmWatch a.wd).1
        split
        · exact h
        · rename_i k hrm
          split at hrm
          · exact nomatch hrm
          · exact ih (h.rmWatch hj ha.1 hrm)
      · exact ih h

theorem Inv.zapSubtree (h : Inv s buf) (P : Str) : Inv (zapSubtree w s P).1 buf :=
  h.zapSlots P _

/-- The pathname that is renamed has a slash in it, so that of an unused slot is not under it. -/
theorem Inv.rewriteCachedPaths (h : Inv s buf) (p name p' name' : Str) :
    Inv { s with wlCache := rewriteCachedPaths s.wlCache p name p' name' } buf := by
  have hmem : ∀ a ∈ InotifyDtree.rewriteCachedPaths s.wlCache p name p' name', ∃ a₀ ∈ s.wlCache,
      a.wd = a₀.wd ∧ (a₀.path = [] → a.path = []) := by
    intro a ha
    rw [rewriteCachedPaths_eq, List.mem_map] at ha
    obtain ⟨a₀, ha₀, rfl⟩ := ha
    refine ⟨a₀, ha₀, rfl, fun hnil => ?_⟩
    rw [carried, if_neg, hnil]
    intro hunder
    have hle := hunder.length_le
    rw [hnil, length_child] at hle
    exact absurd hle (by simp)
  refine ⟨distinct_rewriteCachedPaths h.distinct p name p' name', ?_, ?_, ?_, h.issued, h.dropped,
    h.announced⟩
  · intro a ha hunused
    obtain ⟨a₀, ha₀, hwd, hpath⟩ := hmem a ha
    exact hpath (h.unused a₀ ha₀ (hwd ▸ hunused))
  · intro a ha hused
    obtain ⟨a₀, ha₀, hwd, -⟩ := hmem a ha
    rw [hwd] at hused ⊢
    exact h.used a₀ ha₀ hused
  · intro wd
    rw [view_rewriteCachedPaths, Option.isSome_map]
    exact h.cached wd

theorem Inv.watchRoots (h : Inv s buf) (roots : List Str) :
    Inv (roots.foldl (DtreeWorld.watchSubtree num w) s) buf :=
  List.foldlRecOn (motive := fun s => Inv s buf) _ _ h fun _ hs r _ => hs.watchSubtree r

/-- Nothing is watched and the cache is empty. -/
theorem inv_empty (rootDirPaths : List (Option Str)) : Inv ⟨{}, rootDirPaths, []⟩ [] := by
  refine ⟨?_, ?_, ?_, ?_, ?_, ?_, ?_⟩
  · exact fun i j wd P Q _ hi _ => nomatch hi
  · exact fun a ha => nomatch ha
  · exact fun a ha => nomatch ha
  · intro wd
    rw [view]
    split <;> exact iff_of_false (fun hsome => nomatch hsome) (by simp [Instance.active])
  · intro wd hwd
    simp [Instance.active] at hwd
  · exact fun wd hwd => nomatch hwd
  · intro ev hev
    simp at hev

/-- `reinitialize()`, from whatever there was. -/
theorem inv_reinitialize (s : State) : Inv ( reinitialize num w s) [] :=
  (inv_empty s.rootDirPaths).watchRoots _

/-! ## 5. The events -/

theorem has_or (mask a b : BitVec 32) : has mask (a ||| b) = (has mask a || has mask b) := by
  rw [Bool.eq_iff_iff, Bool.or_eq_true]
  simp only [has, bne_iff_ne, ne_eq, BitVec.and_or_distrib_left]
  rw [← not_and_or]
  exact not_congr BitVec.or_eq_zero_iff

/-- What the event of a dropped watch is and is not. -/
theorem Announced.of_isSelf {k : Instance} {ev : Event} (h : Announced k ev)
    (hself : isSelf ev = true) :
    (0 ≤ ev.wd ∧ ev.wd ∈ k.issued ∧ k.active ev.wd = false) ∧
      has ev.mask (IN_CREATE ||| IN_MOVED_TO) = false ∧
      ev.mask &&& (IN_MOVED_FROM ||| IN_ISDIR) ≠ IN_MOVED_FROM ||| IN_ISDIR ∧
      has ev.mask IN_MOVE_SELF = false ∧ has ev.mask IN_IGNORED = false := by
  rw [isSelf] at hself
  cases h with
  | overflow _ hmask =>
    rw [hmask] at hself
    exact absurd hself (by decide)
  | ignored hmask =>
    rw [hmask] at hself
    exact absurd hself (by decide)
  | plain hmask =>
    rw [isPlain, has_or, has_or, hself] at hmask
    exact nomatch hmask
  | self hmask hwd hissued hdropped =>
    have hmasks : ∀ mask ∈ selfMasks, has mask (IN_CREATE ||| IN_MOVED_TO) = false ∧
        mask &&& (IN_MOVED_FROM ||| IN_ISDIR) ≠ IN_MOVED_FROM ||| IN_ISDIR ∧
        has mask IN_MOVE_SELF = false ∧ has mask IN_IGNORED = false := by
      intro mask hmask
      simp only [selfMasks, List.mem_cons, List.not_mem_nil, or_false] at hmask
      rcases hmask with rfl | rfl | rfl | rfl <;> decide
    exact ⟨⟨hwd, hissued, hdropped⟩, hmasks _ hmask⟩

/-- Events that announce nothing. -/
theorem handled_of_not_self {evs : List Event} (h : ∀ ev ∈ evs, isSelf ev = false) :
    s.handled evs = s := by
  have hany : ∀ wd, (evs.any fun ev => isSelf ev && ev.wd == wd) = false := by
    intro wd
    rw [List.any_eq_false]
    intro ev hev
    simp only [h ev hev, Bool.false_and, Bool.false_eq_true, not_false_eq_true]
  rw [State.handled]
  simp only [hany, Bool.not_false, List.filter_true]

/-- What is to hold after a call that was given `ev :: buf`. -/
def After (buf : List Event) : State × Consumed → Prop
  | (s, .events n) => Inv (s.handled (buf.take n)) (buf.drop n)
  | (s, .buffer) => Inv s []
  | (s, .again) => Inv s buf
  | (_, .exit) => True

variable {ev : Event}

/-- An event that announces nothing is consumed. -/
theorem Inv.consumed (h : Inv s (ev :: buf)) (hself : isSelf ev = false) :
    After (ev :: buf) (s, .events 1) := by
  show Inv (s.handled [ev]) buf
  rw [handled_of_not_self (by simpa using hself)]
  exact h.of_subset fun _ => List.mem_cons_of_mem _

theorem Inv.movedOut (h : Inv s (ev :: buf)) (hself : isSelf ev = false) (P : Str) :
    After (ev :: buf) (movedOut num w s P) := by
  have hzap := @Inv.zapSubtree w _ _ h P
  rw [DtreeWorld.movedOut]
  split
  · rename_i s' _ heq
    rw [heq] at hzap
    exact hzap.consumed hself
  · exact inv_reinitialize _

/-- The slot of a dropped watch is emptied when its event is handled. -/
theorem Inv.handled_self (h : Inv s (ev :: buf)) (hself : isSelf ev = true) {slot : ℕ}
    (hslot : findWatch s.wlCache ev.wd = some slot) :
    After (ev :: buf)
      ({ s with wlCache := InotifyDtree.markCacheSlotEmpty s.wlCache slot }, .events 1) := by
  obtain ⟨⟨hwd, -, hdropped⟩, -⟩ := (h.announced ev (.inl List.mem_cons_self)).of_isSelf hself
  refine @Inv.of_subset _ (ev :: buf) ?_ _ fun _ => List.mem_cons_of_mem _
  refine h.markCacheSlotEmpty hwd hslot ?_ ?_ rfl fun ev' hev' => .inl hev'
  · intro wd'
    refine ⟨fun hactive => ⟨?_, hactive⟩, fun hactive => hactive.2⟩
    rintro rfl
    exact nomatch hdropped.symm.trans hactive
  · intro wd'
    rw [List.mem_filter, and_comm]
    refine and_congr_left fun _ => ?_
    rw [List.take_succ_cons, List.take_zero, List.any_cons, List.any_nil, hself, Bool.true_and,
      Bool.or_false, Bool.not_eq_true', beq_eq_false_iff_ne, ne_comm]

theorem Inv.setRoots (h : Inv s buf) (roots : List (Option Str)) :
    Inv { s with rootDirPaths := roots } buf :=
  ⟨h.distinct, h.unused, h.used, h.cached, h.issued, h.dropped, h.announced⟩

theorem zapRootDirPath_eq {s s' : State} {path : Str} (h : zapRootDirPath s path = some s') :
    ∃ roots, s' = { s with rootDirPaths := roots } := by
  obtain ⟨-, h⟩ := Option.ite_none_left_eq_some.mp h
  exact ⟨_, (Option.some.inj h).symm⟩

theorem Inv.deleted (h : Inv s (ev :: buf)) (hself : isSelf ev = true) {slot : ℕ}
    (hslot : findWatch s.wlCache ev.wd = some slot) (P : Str) :
    After (ev :: buf) (deleted s slot P) := by
  rw [DtreeWorld.deleted]
  split
  · trivial
  · rename_i s' hs'
    split at hs'
    · obtain ⟨roots, rfl⟩ := zapRootDirPath_eq hs'
      exact (h.setRoots roots).handled_self hself hslot
    · rw [← Option.some.inj hs']
      exact h.handled_self hself hslot

theorem Inv.rootMoved (h : Inv s (ev :: buf)) (hself : isSelf ev = false) (P : Str) :
    After (ev :: buf) (rootMoved num w s P) := by
  rw [DtreeWorld.rootMoved]
  split
  · trivial
  · rename_i s' hs'
    obtain ⟨roots, rfl⟩ := zapRootDirPath_eq hs'
    exact (h.setRoots roots).movedOut hself P

theorem Inv.movedFrom (h : Inv s (ev :: buf)) (hself : isSelf ev = false) (P : Str)
    (firstTry : Bool) : After (ev :: buf) (movedFrom num w s P ev buf.head? firstTry) := by
  cases buf with
  | nil =>
    rw [List.head?_nil, DtreeWorld.movedFrom]
    split
    · exact h
    · exact h.movedOut hself _
  | cons nextEv buf =>
    rw [List.head?_cons, DtreeWorld.movedFrom]
    split
    · rename_i hto
      rw [Bool.and_eq_true] at hto
      split
      · exact inv_reinitialize _
      · rename_i slot _
        -- the second of the two events announces nothing either
        have hself' : isSelf nextEv = false := by
          by_contra hself'
          have hnext := (h.announced nextEv (.inl (List.mem_cons_of_mem _ List.mem_cons_self))).of_isSelf
            ((Bool.not_eq_false _).mp hself')
          rw [has_or, hto.1, Bool.or_true] at hnext
          exact nomatch hnext.2.1
        show Inv (State.handled _ [ev, nextEv]) buf
        rw [handled_of_not_self (by simp [hself, hself'])]
        refine (h.rewriteCachedPaths P ev.name _ nextEv.name).of_subset fun ev' hev' => ?_
        exact List.mem_cons_of_mem _ (List.mem_cons_of_mem _ hev')
    · exact h.movedOut hself _

/-- The part after the look-up; an event of a dropped watch was looked up. -/
theorem Inv.handleEvent (h : Inv s (ev :: buf)) {slot : ℕ}
    (hslot : isSelf ev = true → findWatch s.wlCache ev.wd = some slot) (firstTry : Bool) :
    After (ev :: buf) (handleEvent num w s slot ev buf.head? firstTry) := by
  have hself : isSelf ev = (has ev.mask IN_DELETE_SELF || has ev.mask IN_UNMOUNT) := has_or _ _ _
  have hannounced := h.announced ev (.inl List.mem_cons_self)
  -- in a branch for another kind of event the event announces nothing
  have hother : ∀ {P : Prop}, (isSelf ev = true → ¬P) → P → isSelf ev = false := by
    intro P hP hp
    rw [← Bool.not_eq_true]
    exact fun ht => hP ht hp
  rw [DtreeWorld.handleEvent]
  split
  · rename_i hmade
    rw [Bool.and_eq_true] at hmade
    have hself' := hother (fun ht => ne_true_of_eq_false (hannounced.of_isSelf ht).2.1) hmade.2
    split
    · exact h.consumed hself'
    · exact (h.watchSubtree _).consumed hself'
  · split
    · rename_i hdel
      have ht : isSelf ev = true := by rw [hself, hdel, Bool.true_or]
      exact h.deleted ht (hslot ht) _
    · rename_i hdel
      split
      · rename_i hfrom
        exact h.movedFrom (hother (fun ht => (hannounced.of_isSelf ht).2.2.1) hfrom) _ _
      · split
        · exact inv_reinitialize _
        · split
          · rename_i hunmount
            have ht : isSelf ev = true := by rw [hself, hunmount, Bool.or_true]
            exact h.handled_self ht (hslot ht)
          · rename_i hunmount
            have hself' : isSelf ev = false := by
              rw [hself, (Bool.not_eq_true _).mp hdel, (Bool.not_eq_true _).mp hunmount]
              rfl
            split
            · exact h.rootMoved hself' _
            · exact h.consumed hself'

theorem Inv.processNextInotifyEvent (h : Inv s (ev :: buf)) (firstTry : Bool) :
    After (ev :: buf) (processNextInotifyEvent num w s ev buf.head? firstTry) := by
  rw [DtreeWorld.processNextInotifyEvent]
  split
  · split
    · exact inv_reinitialize _
    · rename_i slot hslot
      exact h.handleEvent (fun _ => hslot) firstTry
  · rename_i hnot
    refine h.handleEvent (fun ht => ?_) firstTry
    obtain ⟨⟨hwd, -⟩, -, -, -, hignored⟩ :=
      (h.announced ev (.inl List.mem_cons_self)).of_isSelf ht
    exact absurd ⟨fun heq => absurd (heq ▸ hwd) (by decide), hignored⟩ hnot

/-! ## 6. Every run -/

theorem command_eq {r r' : Run} {f : State → State} (h : command r f = some r') :
    r.buf = [] ∧ { r with state := f r.state } = r' := by
  obtain ⟨hbuf, h⟩ := Option.ite_none_right_eq_some.mp h
  exact ⟨hbuf, Option.some.inj h⟩

theorem inv_step {r r' : Run} {a : Act} (h : Inv r.state r.buf) (hstep : step num r a = some r') :
    Inv r'.state r'.buf := by
  cases a with
  | change c =>
    rw [step, Option.some.injEq] at hstep
    subst hstep
    exact h.changes [c]
  | read n =>
    rw [step, Option.some.injEq] at hstep
    subst hstep
    refine ⟨h.distinct, h.unused, h.used, h.cached, h.issued, h.dropped, ?_⟩
    -- a `read()` moves events from the queue to the buffer, in their order
    intro ev hev
    refine (h.announced ev ?_).mono (fun _ hwd => hwd) fun _ _ hactive => hactive
    rcases hev with hev | hev
    · rcases List.mem_append.mp hev with hev | hev
      · exact .inl hev
      · exact .inr (List.mem_of_mem_take hev)
    · exact .inr (List.mem_of_mem_drop hev)
  | process w firstTry =>
    rw [step] at hstep
    split at hstep
    · exact nomatch hstep
    · rename_i ev buf hbuf
      rw [hbuf] at h hstep
      -- whatever the call consumed, the invariant is that of what is left of the buffer
      have hafter := @Inv.processNextInotifyEvent num w _ _ _ h firstTry
      revert hstep hafter
      generalize DtreeWorld.processNextInotifyEvent num w r.state ev buf.head? firstTry = res
      obtain ⟨s', c⟩ := res
      cases c with
      | events n => intro hstep hafter; rw [← Option.some.inj hstep]; exact hafter
      | buffer => intro hstep hafter; rw [← Option.some.inj hstep]; exact hafter
      | again => intro hstep hafter; rw [← Option.some.inj hstep]; exact hafter
      | exit => intro hstep; exact nomatch hstep
  | add w arg =>
    rw [step] at hstep
    obtain ⟨-, rfl⟩ := command_eq hstep
    exact (h.zapSubtree arg).watchSubtree arg
  | zap w arg =>
    rw [step] at hstep
    obtain ⟨-, rfl⟩ := command_eq hstep
    exact h.zapSubtree arg
  | rebuild w =>
    rw [step] at hstep
    obtain ⟨hbuf, rfl⟩ := command_eq hstep
    rw [hbuf]
    exact inv_reinitialize _

theorem inv_of_reachable {r : Run} (h : Reachable (inotifyDtree num) r) : Inv r.state r.buf := by
  refine @Reaches.invariant _ _ _ _ (fun r => Inv r.state r.buf) ?_ ?_ _ h
  · rintro r ⟨argv, w, rfl⟩
    exact inv_reinitialize _
  · exact fun r a r' hinv _ hstep => inv_step hinv hstep

/-- In every state of every run the used slots hold different watch descriptors, the unused ones
empty pathnames, and the watch descriptors in the slots are the watches that the kernel has, or
has dropped without the program having handled the event. -/
theorem slots_match_watches (num : Numbering) (r : Run) (h : Reachable (inotifyDtree num) r) :
    SlotsMatch r.state :=
  (inv_of_reachable h).slotsMatch

/-- Every directory has one subdirectory `x`, and `inotify_rm_watch()` succeeds. -/
def oneChild : World where
  nftw P := [⟨[], P, true, some 1⟩, ⟨[], child P ['x'], true, some 2⟩]
  rmWatch _ := ([], false)

/-- The subdirectory is deleted, and the events of that are read; the first is handled. -/
theorem slots_match_watches_deletion :
    ∃ r, (inotifyDtree counting).run ⟨ reinitialize counting oneChild ⟨{}, [some ['d']], []⟩, []⟩
        [.change (.drop 2 IN_DELETE_SELF), .read 2, .process oneChild true] = some r ∧
      SlotsMatch r.state := by
  obtain ⟨r, hr⟩ : ∃ r, (inotifyDtree counting).run
      ⟨ reinitialize counting oneChild ⟨{}, [some ['d']], []⟩, []⟩
      [.change (.drop 2 IN_DELETE_SELF), .read 2, .process oneChild true] = some r := ⟨_, rfl⟩
  refine ⟨r, hr, slots_match_watches counting r ?_⟩
  exact System.reachable_of_run _ (.init ⟨[['d']], oneChild, rfl⟩) hr

end Tlpi.DtreeWorld
