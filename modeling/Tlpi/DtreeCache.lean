/-
`inotify/inotify_dtree.c`, the watch list cache: a dynamically sized array of slots, each
with a watch descriptor and a pathname, or with the watch descriptor -1 when it is unused.

The functions are the source's, slot by slot. `view` is what the slots stand for: the
pathname cached for each watch descriptor. It is a function because no two used slots hold
one watch descriptor (`Distinct`), and every function of the cache is stated by what it
does to the view.

Pathnames are not cut at `PATH_MAX` characters, a limitation that the source states. Log
messages are left out, and with them the counts that only they use.
-/
import Mathlib.Data.Option.Basic
import Tlpi.Inotify

set_option autoImplicit false

namespace Tlpi.InotifyDtree

open Tlpi.Pathname Tlpi.Inotify

/-- `struct watch`: a slot of the cache. -/
structure Watch where
  wd : ℤ
  path : Str
deriving Repr, DecidableEq

abbrev ALLOC_INCR : ℕ := 200

/-! ## The functions of the cache -/

/-- The slot of a watch descriptor; `none` is -1. -/
def findWatch (wlCache : List Watch) (wd : ℤ) : Option ℕ := wlCache.findIdx? fun w => w.wd = wd

def markCacheSlotEmpty (wlCache : List Watch) (slot : ℕ) : List Watch := wlCache.set slot ⟨-1, []⟩

/-- A free slot, and the cache that has it. -/
def findEmptyCacheSlot (wlCache : List Watch) : List Watch × ℕ :=
  match wlCache.findIdx? fun w => w.wd = -1 with
  | some slot => (wlCache, slot)
  | none => (wlCache ++ List.replicate ALLOC_INCR ⟨-1, []⟩, wlCache.length)

def addWatchToCache (wlCache : List Watch) (wd : ℤ) (pathname : Str) : List Watch :=
  (findEmptyCacheSlot wlCache).1.set (findEmptyCacheSlot wlCache).2 ⟨wd, pathname⟩

def pathnameToCacheSlot (wlCache : List Watch) (pathname : Str) : Option ℕ :=
  wlCache.findIdx? fun w => 0 ≤ w.wd ∧ w.path = pathname

def pathnameInCache (wlCache : List Watch) (pathname : Str) : Bool :=
  (pathnameToCacheSlot wlCache pathname).isSome

/-- `strncmp(pn, path, len) == 0 && (path[len] == '/' || path[len] == '\0')` with `len` the
length of `pn`. -/
def inSubtree (pn path : Str) : Bool :=
  path.take pn.length == pn &&
    match path.drop pn.length with
    | [] => true
    | c :: _ => c == '/'

def rewriteCachedPaths (wlCache : List Watch) (oldPathPrefix oldName newPathPrefix newName : Str) :
    List Watch :=
  let fullPath := child oldPathPrefix oldName
  let newPrefix := child newPathPrefix newName
  wlCache.map fun w =>
    if inSubtree fullPath w.path then { w with path := newPrefix ++ w.path.drop fullPath.length } else w

/-- The loop of `zapSubtree()`, over the slots from the current one on: the kernel and the
slots it leaves, and the count, `none` for -1. -/
def zapSubtree (k : Kernel) (pn : Str) : List Watch → Kernel × List Watch × Option ℕ
  | [] => (k, [], some 0)
  | w :: rest =>
    if 0 ≤ w.wd ∧ inSubtree pn w.path then
      match k.inotifyRmWatch w.wd with
      | none => (k, w :: rest, none)
      | some k' =>
        let (k'', rest', cnt) := zapSubtree k' pn rest
        (k'', ⟨-1, []⟩ :: rest', cnt.map (· + 1))
    else
      let (k', rest', cnt) := zapSubtree k pn rest
      (k', w :: rest', cnt)

/-! ## What the slots stand for -/

/-- No two used slots hold one watch descriptor. -/
def Distinct (wlCache : List Watch) : Prop :=
  ∀ (i j : ℕ) (wd : ℤ) (P Q : Str), 0 ≤ wd → wlCache[i]? = some ⟨wd, P⟩ →
    wlCache[j]? = some ⟨wd, Q⟩ → i = j

/-- The pathname cached for a watch descriptor. -/
def view (wlCache : List Watch) (wd : ℤ) : Option Str :=
  if 0 ≤ wd then (wlCache.find? fun w => w.wd = wd).map Watch.path else none

theorem view_eq_some_iff {wlCache : List Watch} (hd : Distinct wlCache) {wd : ℤ} {P : Str} :
    view wlCache wd = some P ↔ 0 ≤ wd ∧ ∃ i : ℕ, wlCache[i]? = some ⟨wd, P⟩ := by
  unfold view
  constructor
  · intro h
    split at h
    · rename_i hwd
      obtain ⟨w, hw, rfl⟩ := Option.map_eq_some_iff.mp h
      have hmem := List.mem_of_find?_eq_some hw
      have heq : w.wd = wd := by simpa only [decide_eq_true_eq] using List.find?_some hw
      obtain ⟨i, hi⟩ := List.mem_iff_getElem?.mp hmem
      exact ⟨hwd, i, by rw [hi, ← heq]⟩
    · exact nomatch h
  · rintro ⟨hwd, i, hi⟩
    rw [if_pos hwd]
    cases hf : wlCache.find? fun w => w.wd = wd with
    | none =>
      have := List.find?_eq_none.mp hf ⟨wd, P⟩ (List.mem_of_getElem? hi)
      simp only [decide_true, not_true_eq_false] at this
    | some w =>
      have heq : w.wd = wd := by simpa only [decide_eq_true_eq] using List.find?_some hf
      obtain ⟨j, hj⟩ := List.mem_iff_getElem?.mp (List.mem_of_find?_eq_some hf)
      have hij : i = j := hd i j wd P w.path hwd hi (by rw [hj, ← heq])
      rw [← hij, hi, Option.some.injEq] at hj
      rw [Option.map_some, ← hj]

theorem view_of_mem {wlCache : List Watch} (hd : Distinct wlCache) {w : Watch} (hw : w ∈ wlCache)
    (hwd : 0 ≤ w.wd) : view wlCache w.wd = some w.path := by
  obtain ⟨i, hi⟩ := List.mem_iff_getElem?.mp hw
  exact (view_eq_some_iff hd).mpr ⟨hwd, i, hi⟩

theorem view_of_neg {wlCache : List Watch} {wd : ℤ} (h : wd < 0) : view wlCache wd = none :=
  if_neg (Int.not_le.mpr h)

/-- An unused slot is found or made, and no used slot changes. -/
theorem findEmptyCacheSlot_spec (wlCache : List Watch) :
    (findEmptyCacheSlot wlCache).2 < (findEmptyCacheSlot wlCache).1.length ∧
      (∀ wd P, (findEmptyCacheSlot wlCache).1[(findEmptyCacheSlot wlCache).2]? = some ⟨wd, P⟩ →
        wd = -1) ∧
      ∀ (i : ℕ) (wd : ℤ) (P : Str), 0 ≤ wd →
        ((findEmptyCacheSlot wlCache).1[i]? = some ⟨wd, P⟩ ↔ wlCache[i]? = some ⟨wd, P⟩) := by
  unfold findEmptyCacheSlot
  cases hf : wlCache.findIdx? fun w => w.wd = -1 with
  | some slot =>
    obtain ⟨hlt, heq, -⟩ := List.findIdx?_eq_some_iff_getElem.mp hf
    refine ⟨hlt, ?_, fun i wd P _ => Iff.rfl⟩
    intro wd P h
    rw [List.getElem?_eq_getElem hlt, Option.some.injEq] at h
    rw [h] at heq
    exact of_decide_eq_true heq
  | none =>
    have hlen : wlCache.length < (wlCache ++ List.replicate ALLOC_INCR (⟨-1, []⟩ : Watch)).length := by
      rw [List.length_append, List.length_replicate]
      exact Nat.lt_add_of_pos_right (by decide)
    -- what is beyond the end of the old array is unused
    have hnew : ∀ (i : ℕ) (wd : ℤ) (P : Str), wlCache.length ≤ i →
        (wlCache ++ List.replicate ALLOC_INCR (⟨-1, []⟩ : Watch))[i]? = some ⟨wd, P⟩ → wd = -1 := by
      intro i wd P hi h
      rw [List.getElem?_append_right hi] at h
      have hmem := List.mem_of_getElem? h
      rw [List.mem_replicate] at hmem
      exact congrArg Watch.wd hmem.2
    refine ⟨hlen, fun wd P h => hnew _ wd P (Nat.le_refl _) h, ?_⟩
    intro i wd P hwd
    by_cases hi : i < wlCache.length
    · exact iff_of_eq (congrArg (· = some (⟨wd, P⟩ : Watch)) (List.getElem?_append_left hi))
    · constructor
      · intro h
        have := hnew i wd P (Nat.le_of_not_lt hi) h
        omega
      · intro h
        rw [List.getElem?_eq_none (Nat.le_of_not_lt hi)] at h
        exact nomatch h

theorem addWatchToCache_slot {wlCache : List Watch} {wd₀ : ℤ} (P₀ : Str) (i : ℕ) {wd : ℤ} (P : Str)
    (hwd : 0 ≤ wd) :
    (addWatchToCache wlCache wd₀ P₀)[i]? = some ⟨wd, P⟩ ↔
      (i = (findEmptyCacheSlot wlCache).2 ∧ wd₀ = wd ∧ P₀ = P) ∨ wlCache[i]? = some ⟨wd, P⟩ := by
  obtain ⟨hlt, hfree, hkept⟩ := findEmptyCacheSlot_spec wlCache
  unfold addWatchToCache
  rw [List.getElem?_set]
  by_cases hi : (findEmptyCacheSlot wlCache).2 = i
  · rw [if_pos hi, if_pos hlt, Option.some.injEq, Watch.mk.injEq]
    constructor
    · rintro ⟨rfl, rfl⟩
      exact Or.inl ⟨hi.symm, rfl, rfl⟩
    · rintro (⟨-, h⟩ | h)
      · exact h
      · -- the slot was unused
        have := hfree wd P (hi.symm ▸ (hkept i wd P hwd).mpr h)
        omega
  · rw [if_neg hi, hkept i wd P hwd]
    exact ⟨Or.inr, fun h => h.elim (fun h => absurd h.1.symm hi) id⟩

theorem distinct_addWatchToCache {wlCache : List Watch} (hd : Distinct wlCache) {wd : ℤ} (P : Str)
    (hnew : view wlCache wd = none) : Distinct (addWatchToCache wlCache wd P) := by
  have habs : ∀ (i : ℕ) (Q : Str), 0 ≤ wd → wlCache[i]? ≠ some ⟨wd, Q⟩ := by
    intro i Q hwd hi
    rw [(view_eq_some_iff hd).mpr ⟨hwd, i, hi⟩] at hnew
    exact nomatch hnew
  intro i j w Q R hw hi hj
  rw [addWatchToCache_slot P i Q hw] at hi
  rw [addWatchToCache_slot P j R hw] at hj
  rcases hi with ⟨hi, rfl, -⟩ | hi
  · rcases hj with ⟨hj, -, -⟩ | hj
    · rw [hi, hj]
    · exact absurd hj (habs j R hw)
  · rcases hj with ⟨-, rfl, -⟩ | hj
    · exact absurd hi (habs i Q hw)
    · exact hd i j w Q R hw hi hj

theorem view_addWatchToCache {wlCache : List Watch} (hd : Distinct wlCache) {wd : ℤ} (hwd : 0 ≤ wd)
    (P : Str) (hnew : view wlCache wd = none) (w : ℤ) :
    view (addWatchToCache wlCache wd P) w = if w = wd then some P else view wlCache w := by
  apply Option.ext
  intro Q
  rw [view_eq_some_iff (distinct_addWatchToCache hd P hnew)]
  constructor
  · rintro ⟨hw, i, hi⟩
    rcases (addWatchToCache_slot P i Q hw).mp hi with ⟨-, rfl, rfl⟩ | hi
    · rw [if_pos rfl]
    · have hQ := (view_eq_some_iff hd).mpr ⟨hw, i, hi⟩
      rw [if_neg, hQ]
      rintro rfl
      rw [hnew] at hQ
      exact nomatch hQ
  · intro h
    split at h
    · rename_i hw
      subst hw
      rw [Option.some.injEq] at h
      exact ⟨hwd, _, (addWatchToCache_slot P _ Q hwd).mpr (Or.inl ⟨rfl, rfl, h⟩)⟩
    · obtain ⟨hw, i, hi⟩ := (view_eq_some_iff hd).mp h
      exact ⟨hw, i, (addWatchToCache_slot P i Q hw).mpr (Or.inr hi)⟩

/-- `findWatch()` finds what is in the view. -/
theorem findWatch_spec {wlCache : List Watch} (hd : Distinct wlCache) {wd : ℤ} (hwd : 0 ≤ wd) :
    (findWatch wlCache wd = none ↔ view wlCache wd = none) ∧
      ∀ slot, findWatch wlCache wd = some slot →
        ∃ P, wlCache[slot]? = some ⟨wd, P⟩ ∧ view wlCache wd = some P := by
  have hsome : ∀ slot, findWatch wlCache wd = some slot →
      ∃ P, wlCache[slot]? = some ⟨wd, P⟩ ∧ view wlCache wd = some P := by
    intro slot h
    obtain ⟨hlt, heq, -⟩ := List.findIdx?_eq_some_iff_getElem.mp h
    have heq : wlCache[slot].wd = wd := of_decide_eq_true heq
    have hi : wlCache[slot]? = some ⟨wd, wlCache[slot].path⟩ := by
      rw [List.getElem?_eq_getElem hlt, Option.some.injEq, ← heq]
    exact ⟨_, hi, (view_eq_some_iff hd).mpr ⟨hwd, slot, hi⟩⟩
  refine ⟨⟨?_, ?_⟩, hsome⟩
  · intro h
    rw [Option.eq_none_iff_forall_ne_some]
    intro P hP
    obtain ⟨-, i, hi⟩ := (view_eq_some_iff hd).mp hP
    have := List.findIdx?_eq_none_iff.mp h ⟨wd, P⟩ (List.mem_of_getElem? hi)
    simp only [decide_true, Bool.true_eq_false] at this
  · intro h
    cases hf : findWatch wlCache wd with
    | none => rfl
    | some slot =>
      obtain ⟨P, -, hP⟩ := hsome slot hf
      rw [h] at hP
      exact nomatch hP

theorem markCacheSlotEmpty_slot {wlCache : List Watch} (slot i : ℕ) {wd : ℤ} (P : Str) (hwd : 0 ≤ wd) :
    (markCacheSlotEmpty wlCache slot)[i]? = some ⟨wd, P⟩ ↔ slot ≠ i ∧ wlCache[i]? = some ⟨wd, P⟩ := by
  unfold markCacheSlotEmpty
  rw [List.getElem?_set]
  by_cases hi : slot = i
  · rw [if_pos hi]
    constructor
    · intro h
      split at h
      · rw [Option.some.injEq, Watch.mk.injEq] at h
        omega
      · exact nomatch h
    · exact fun h => absurd hi h.1
  · rw [if_neg hi]
    exact ⟨fun h => ⟨hi, h⟩, fun h => h.2⟩

theorem distinct_markCacheSlotEmpty {wlCache : List Watch} (hd : Distinct wlCache) (slot : ℕ) :
    Distinct (markCacheSlotEmpty wlCache slot) := by
  intro i j wd P Q hwd hi hj
  exact hd i j wd P Q hwd ((markCacheSlotEmpty_slot slot i P hwd).mp hi).2
    ((markCacheSlotEmpty_slot slot j Q hwd).mp hj).2

theorem view_markCacheSlotEmpty {wlCache : List Watch} (hd : Distinct wlCache) {wd : ℤ} (hwd : 0 ≤ wd)
    {slot : ℕ} (hslot : findWatch wlCache wd = some slot) (w : ℤ) :
    view (markCacheSlotEmpty wlCache slot) w = if w = wd then none else view wlCache w := by
  obtain ⟨P, hP, -⟩ := (findWatch_spec hd hwd).2 slot hslot
  apply Option.ext
  intro Q
  rw [view_eq_some_iff (distinct_markCacheSlotEmpty hd slot)]
  constructor
  · rintro ⟨hw, i, hi⟩
    obtain ⟨hne, hi⟩ := (markCacheSlotEmpty_slot slot i Q hw).mp hi
    rw [if_neg, (view_eq_some_iff hd).mpr ⟨hw, i, hi⟩]
    rintro rfl
    exact hne (hd slot i w P Q hw hP hi)
  · intro h
    split at h
    · exact nomatch h
    · rename_i hne
      obtain ⟨hw, i, hi⟩ := (view_eq_some_iff hd).mp h
      refine ⟨hw, i, (markCacheSlotEmpty_slot slot i Q hw).mpr ⟨?_, hi⟩⟩
      rintro rfl
      rw [hP, Option.some.injEq, Watch.mk.injEq] at hi
      exact hne hi.1.symm

theorem pathnameInCache_iff {wlCache : List Watch} (hd : Distinct wlCache) {P : Str} :
    pathnameInCache wlCache P = true ↔ ∃ wd, view wlCache wd = some P := by
  unfold pathnameInCache pathnameToCacheSlot
  rw [List.findIdx?_isSome, List.any_eq_true]
  constructor
  · rintro ⟨w, hw, h⟩
    obtain ⟨hwd, rfl⟩ := of_decide_eq_true h
    exact ⟨w.wd, view_of_mem hd hw hwd⟩
  · rintro ⟨wd, h⟩
    obtain ⟨hwd, i, hi⟩ := (view_eq_some_iff hd).mp h
    exact ⟨⟨wd, P⟩, List.mem_of_getElem? hi, decide_eq_true ⟨hwd, rfl⟩⟩

/-! ## Renaming and zapping a subtree -/

/-- The test that both functions make is the order on pathnames. -/
theorem inSubtree_iff {pn path : Str} : inSubtree pn path = true ↔ Under pn path := by
  unfold inSubtree
  rw [Bool.and_eq_true, beq_iff_eq]
  constructor
  · rintro ⟨htake, hdrop⟩
    refine ⟨path.drop pn.length, ?_, ?_⟩
    · exact (List.take_append_drop pn.length path).symm.trans
        (congrArg (· ++ path.drop pn.length) htake)
    · cases hc : path.drop pn.length with
      | nil => exact .nil
      | cons c t =>
        rw [hc] at hdrop
        exact Or.inr ⟨t, by rw [beq_iff_eq.mp hdrop]⟩
  · rintro ⟨t, rfl, ht⟩
    rw [List.take_left, List.drop_left]
    refine ⟨rfl, ?_⟩
    rcases ht with rfl | ⟨u, rfl⟩
    · rfl
    · exact beq_self_eq_true '/'

/-- A pathname after the rename of `S` to `T`. -/
def carried (S T P : Str) : Str := if Under S P then rebase S T P else P

theorem carried_of_under (T : Str) {S P : Str} (h : Under S P) : carried S T P = rebase S T P :=
  if_pos h

theorem carried_of_not_under (T : Str) {S P : Str} (h : ¬Under S P) : carried S T P = P := if_neg h

theorem rewriteCachedPaths_eq (wlCache : List Watch) (p name p' name' : Str) :
    rewriteCachedPaths wlCache p name p' name' =
      wlCache.map fun w => ⟨w.wd, carried (child p name) (child p' name') w.path⟩ := by
  unfold rewriteCachedPaths carried
  apply List.map_congr_left
  intro w _
  by_cases h : Under (child p name) w.path
  · rw [if_pos (inSubtree_iff.mpr h), if_pos h]
    rfl
  · rw [if_neg (fun h' => h (inSubtree_iff.mp h')), if_neg h]

theorem distinct_map {wlCache : List Watch} (hd : Distinct wlCache) (f : Watch → Watch)
    (hf : ∀ w, 0 ≤ (f w).wd → (f w).wd = w.wd) : Distinct (wlCache.map f) := by
  intro i j wd P Q hwd hi hj
  rw [List.getElem?_map] at hi hj
  obtain ⟨a, ha, hfa⟩ := Option.map_eq_some_iff.mp hi
  obtain ⟨b, hb, hfb⟩ := Option.map_eq_some_iff.mp hj
  have haw : a.wd = wd := by
    rw [← hf a (by rw [hfa]; exact hwd), hfa]
  have hbw : b.wd = wd := by
    rw [← hf b (by rw [hfb]; exact hwd), hfb]
  exact hd i j wd a.path b.path hwd (by rw [ha, ← haw]) (by rw [hb, ← hbw])

theorem distinct_rewriteCachedPaths {wlCache : List Watch} (hd : Distinct wlCache)
    (p name p' name' : Str) : Distinct (rewriteCachedPaths wlCache p name p' name') := by
  rw [rewriteCachedPaths_eq]
  exact distinct_map hd _ fun _ _ => rfl

theorem view_rewriteCachedPaths (wlCache : List Watch) (p name p' name' : Str) (w : ℤ) :
    view (rewriteCachedPaths wlCache p name p' name') w =
      (view wlCache w).map (carried (child p name) (child p' name')) := by
  rw [rewriteCachedPaths_eq]
  unfold view
  split
  · rw [List.find?_map, Option.map_map, Option.map_map]
    rfl
  · rfl

/-- A slot after `zapSubtree()` has passed over it. -/
def zapped (pn : Str) (w : Watch) : Watch := if 0 ≤ w.wd ∧ Under pn w.path then ⟨-1, []⟩ else w

theorem distinct_zapped {wlCache : List Watch} (hd : Distinct wlCache) (pn : Str) :
    Distinct (wlCache.map (zapped pn)) := by
  refine distinct_map hd _ fun w hw => ?_
  unfold zapped at hw ⊢
  split at hw
  · exact absurd hw (by decide)
  · rename_i h
    rw [if_neg h]

theorem view_zapped {wlCache : List Watch} (hd : Distinct wlCache) (pn : Str) (w : ℤ) :
    view (wlCache.map (zapped pn)) w = (view wlCache w).filter fun P => ¬Under pn P := by
  apply Option.ext
  intro P
  rw [view_eq_some_iff (distinct_zapped hd pn), Option.filter_eq_some_iff, view_eq_some_iff hd,
    decide_eq_true_iff]
  constructor
  · rintro ⟨hw, i, hi⟩
    rw [List.getElem?_map] at hi
    obtain ⟨a, ha, hz⟩ := Option.map_eq_some_iff.mp hi
    unfold zapped at hz
    split at hz
    · rw [Watch.mk.injEq] at hz
      omega
    · rename_i hnot
      subst hz
      exact ⟨⟨hw, i, ha⟩, fun h => hnot ⟨hw, h⟩⟩
  · rintro ⟨⟨hw, i, hi⟩, hnot⟩
    refine ⟨hw, i, ?_⟩
    rw [List.getElem?_map, hi, Option.map_some, zapped, if_neg fun h => hnot h.2]

/-- `IN_IGNORED` events of watches in the cache. -/
def Ignored (wlCache : List Watch) (evs : List Queued) : Prop :=
  ∀ q ∈ evs, ∃ w ∈ wlCache, 0 ≤ w.wd ∧ q = ⟨⟨w.wd, IN_IGNORED, 0, []⟩, []⟩

/-- What a successful `zapSubtree()` leaves of the kernel: the watches of the subtree are
gone, an `IN_IGNORED` for each is queued, and nothing else has changed. -/
structure Unwatched (pn : Str) (wlCache : List Watch) (k k' : Kernel) : Prop where
  rest : ∃ evs, Ignored wlCache evs ∧ k' = { k with watch := k'.watch, queue := k.queue ++ evs }
  watch : ∀ i wd, k'.watch i = some wd ↔
    k.watch i = some wd ∧ ∀ w ∈ wlCache, w.wd = wd → 0 ≤ wd → ¬Under pn w.path

theorem inotifyRmWatch_eq_some {k k₁ : Kernel} {wd : ℤ} (h : k.inotifyRmWatch wd = some k₁) :
    k₁ = { k with
      watch := fun i => if k.watch i = some wd then none else k.watch i
      queue := k.queue ++ [⟨⟨wd, IN_IGNORED, 0, []⟩, []⟩] } := by
  rw [Kernel.inotifyRmWatch] at h
  split at h
  · exact (Option.some.inj h).symm
  · exact nomatch h

theorem Ignored.cons {wlCache : List Watch} {evs : List Queued} (h : Ignored wlCache evs)
    (w : Watch) : Ignored (w :: wlCache) evs := by
  intro q hq
  obtain ⟨w', hw', hignored⟩ := h q hq
  exact ⟨w', List.mem_cons_of_mem w hw', hignored⟩

/-- The watch of the first slot is removed before those of the others. -/
theorem Unwatched.cons_removed {pn : Str} {w : Watch} {wlCache : List Watch} {k k₁ k' : Kernel}
    (hw : 0 ≤ w.wd ∧ Under pn w.path) (hrm : k.inotifyRmWatch w.wd = some k₁)
    (h : Unwatched pn wlCache k₁ k') : Unwatched pn (w :: wlCache) k k' := by
  obtain ⟨⟨evs, hevs, hrest⟩, hwatch⟩ := h
  have hk₁ := inotifyRmWatch_eq_some hrm
  refine ⟨⟨⟨⟨w.wd, IN_IGNORED, 0, []⟩, []⟩ :: evs, ?_, ?_⟩, ?_⟩
  · intro q hq
    rcases List.mem_cons.mp hq with rfl | hq
    · exact ⟨w, List.mem_cons_self, hw.1, rfl⟩
    · exact hevs.cons w q hq
  · rw [hrest, hk₁]
    simp only [List.append_assoc, List.cons_append, List.nil_append]
  · intro i wd
    rw [hwatch, hk₁]
    simp only [List.forall_mem_cons]
    -- the call takes away the one descriptor that the first slot holds
    constructor
    · rintro ⟨hi, hothers⟩
      split at hi
      · exact nomatch hi
      · rename_i hne
        refine ⟨hi, ?_, hothers⟩
        rintro rfl
        exact absurd hi hne
    · rintro ⟨hi, hhead, hothers⟩
      refine ⟨?_, hothers⟩
      rw [if_neg, hi]
      intro heq
      have hwd : w.wd = wd := Option.some.inj (heq.symm.trans hi)
      exact hhead hwd (hwd ▸ hw.1) hw.2

/-- The first slot is unused or of another subtree, and its watch stays. -/
theorem Unwatched.cons_kept {pn : Str} {w : Watch} {wlCache : List Watch} {k k' : Kernel}
    (hw : ¬(0 ≤ w.wd ∧ Under pn w.path)) (h : Unwatched pn wlCache k k') :
    Unwatched pn (w :: wlCache) k k' := by
  obtain ⟨⟨evs, hevs, hrest⟩, hwatch⟩ := h
  refine ⟨⟨evs, hevs.cons w, hrest⟩, ?_⟩
  intro i wd
  rw [hwatch]
  simp only [List.forall_mem_cons]
  refine and_congr_right fun _ => ⟨fun h => ⟨?_, h⟩, fun h => h.2⟩
  rintro rfl hwd hunder
  exact hw ⟨hwd, hunder⟩

theorem zapSubtree_spec (pn : Str) : ∀ (wlCache : List Watch) (k k' : Kernel)
    (slots : List Watch) (cnt : ℕ), zapSubtree k pn wlCache = (k', slots, some cnt) →
    slots = wlCache.map (zapped pn) ∧ Unwatched pn wlCache k k' := by
  intro wlCache
  induction wlCache with
  | nil =>
    intro k k' slots cnt h
    simp only [zapSubtree, Prod.mk.injEq] at h
    obtain ⟨rfl, rfl, -⟩ := h
    refine ⟨rfl, ⟨[], fun _ h => (List.not_mem_nil h).elim, ?_⟩, ?_⟩
    · rw [List.append_nil]
    · intro i wd
      exact ⟨fun h => ⟨h, fun _ h => (List.not_mem_nil h).elim⟩, fun h => h.1⟩
  | cons w wlCache ih =>
    intro k k' slots cnt h
    unfold zapSubtree at h
    by_cases hw : 0 ≤ w.wd ∧ Under pn w.path
    · rw [if_pos ⟨hw.1, inSubtree_iff.mpr hw.2⟩] at h
      split at h
      · -- `inotify_rm_watch()` failed, and then no count is returned
        exact nomatch h
      · rename_i k₁ hrm
        simp only [Prod.mk.injEq, Option.map_eq_some_iff] at h
        obtain ⟨hk', hslots, c, hcnt, -⟩ := h
        obtain ⟨hs, hrest⟩ := ih k₁ k' (zapSubtree k₁ pn wlCache).2.1 c (by rw [← hk', ← hcnt])
        refine ⟨?_, hrest.cons_removed hw hrm⟩
        rw [← hslots, hs, List.map_cons, zapped, if_pos hw]
    · rw [if_neg fun h => hw ⟨h.1, inSubtree_iff.mp h.2⟩] at h
      simp only [Prod.mk.injEq] at h
      obtain ⟨hk', hslots, hcnt⟩ := h
      obtain ⟨hs, hrest⟩ := ih k k' (zapSubtree k pn wlCache).2.1 cnt (by rw [← hk', ← hcnt])
      refine ⟨?_, hrest.cons_kept hw⟩
      rw [← hslots, hs, List.map_cons, zapped, if_neg hw]

/-- Whatever becomes of it, `zapSubtree()` does not touch the tree. -/
theorem zapSubtree_frame (pn : Str) : ∀ (wlCache : List Watch) (k : Kernel),
    (zapSubtree k pn wlCache).1.dirs = k.dirs ∧ (zapSubtree k pn wlCache).1.nextIno = k.nextIno ∧
      (zapSubtree k pn wlCache).1.nextCookie = k.nextCookie := by
  intro wlCache
  induction wlCache with
  | nil => exact fun k => ⟨rfl, rfl, rfl⟩
  | cons w wlCache ih =>
    intro k
    unfold zapSubtree
    split
    · unfold Kernel.inotifyRmWatch
      split
      · exact ⟨rfl, rfl, rfl⟩
      · rename_i k' hrm
        split at hrm
        · rw [Option.some.injEq] at hrm
          rw [← hrm]
          exact ih _
        · exact nomatch hrm
    · exact ih k

end Tlpi.InotifyDtree
