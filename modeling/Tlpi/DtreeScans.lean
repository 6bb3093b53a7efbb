/-
`inotify/inotify_dtree.c`: the functions that go through all slots of the cache, on caches of any
content.

* `rewriteCachedPaths()`, here with the buffers of `PATH_MAX` characters in which it puts the
  pathnames together;
* `zapSubtree()`, whose argument may be a pathname in a slot that it empties, with any pattern of
  `inotify_rm_watch()` failures;
* `checkCacheConsistency()` and `checkAllCachedPathnamesExist()`, which make the same check, the
  one when an event was handled and the other as a command.

A slot is a watch descriptor and a string (`Tlpi.DtreeCache`).
-/
import Mathlib.Data.List.Nodup
import Tlpi.DtreeCache

set_option autoImplicit false

namespace Tlpi.DtreeScans

open Tlpi.Pathname Tlpi.InotifyDtree

/-! ## 1. `rewriteCachedPaths()` -/

abbrev PATH_MAX : ℕ := 4096

/-- `snprintf()` into a buffer of `PATH_MAX` characters. -/
def snprintf (s : Str) : Str := s.take (PATH_MAX - 1)

/-- `strncpy(path, s, PATH_MAX)` -/
def strncpy (s : Str) : Str := s.take PATH_MAX

def rewriteCachedPaths (wlCache : List Watch) (oldPathPrefix oldName newPathPrefix newName : Str) :
    List Watch :=
  let fullPath := snprintf (child oldPathPrefix oldName)
  let newPrefix := snprintf (child newPathPrefix newName)
  wlCache.map fun w =>
    -- unused slots are looked at as well
    if inSubtree fullPath w.path then
      let newPath := snprintf (newPrefix ++ w.path.drop fullPath.length)
      { w with path := strncpy newPath }
    else w

/-- The cache, with pathnames that its slots can hold. -/
structure WellFormed (wlCache : List Watch) : Prop where
  distinct : Distinct wlCache
  unused : ∀ w ∈ wlCache, ¬0 ≤ w.wd → w.wd = -1 ∧ w.path = []
  short : ∀ w ∈ wlCache, w.path.length < PATH_MAX

/-- The pathnames that a rename is about, and those that it makes, are short enough. -/
structure Short (wlCache : List Watch) (P Q : Str) : Prop where
  old : P.length < PATH_MAX
  new : Q.length < PATH_MAX
  made : ∀ w ∈ wlCache, Under P w.path → (rebase P Q w.path).length < PATH_MAX

theorem snprintf_of_lt {s : Str} (h : s.length < PATH_MAX) : snprintf s = s :=
  List.take_of_length_le (by rw [PATH_MAX] at *; omega)

theorem strncpy_of_lt {s : Str} (h : s.length < PATH_MAX) : strncpy s = s :=
  List.take_of_length_le h.le

section Rewrite

variable {wlCache : List Watch} {p name p' name' : Str}

/-- Nothing is cut. -/
theorem rewriteCachedPaths_eq_map (h : Short wlCache (child p name) (child p' name')) :
    rewriteCachedPaths wlCache p name p' name' =
      wlCache.map fun w => ⟨w.wd, carried (child p name) (child p' name') w.path⟩ := by
  rw [rewriteCachedPaths, snprintf_of_lt h.old, snprintf_of_lt h.new]
  refine List.map_congr_left fun w hw => ?_
  by_cases hunder : Under (child p name) w.path
  · have hmade := h.made w hw hunder
    rw [if_pos (inSubtree_iff.mpr hunder), carried_of_under _ hunder]
    rw [rebase] at hmade ⊢
    dsimp only
    rw [snprintf_of_lt hmade, strncpy_of_lt hmade]
  · rw [if_neg fun hin => hunder (inSubtree_iff.mp hin), carried_of_not_under _ hunder]

/-- A rename and the rename back. -/
theorem carried_back {P Q F : Str} (h : ¬Under Q F) : carried Q P (carried P Q F) = F := by
  by_cases hunder : Under P F
  · rw [carried_of_under _ hunder, carried_of_under _ (under_rebase Q hunder)]
    obtain ⟨t, rfl, -⟩ := hunder
    rw [rebase_append, rebase_append]
  · rw [carried_of_not_under _ hunder, carried_of_not_under _ h]

theorem not_under_nil (p name : Str) : ¬Under (child p name) [] := by
  intro h
  have hle := h.length_le
  rw [length_child, List.length_nil] at hle
  omega

/-- The pathnames of the rename back are those that there were. -/
theorem Short.back (h : Short wlCache (child p name) (child p' name')) (hwf : WellFormed wlCache)
    (hfree : ∀ w ∈ wlCache, ¬Under (child p' name') w.path) :
    Short (rewriteCachedPaths wlCache p name p' name') (child p' name') (child p name) := by
  refine ⟨h.new, h.old, ?_⟩
  intro w hw hunder
  rw [rewriteCachedPaths_eq_map h, List.mem_map] at hw
  obtain ⟨w₀, hw₀, rfl⟩ := hw
  have hback := @carried_back (child p name) _ _ (hfree w₀ hw₀)
  rw [carried_of_under _ hunder] at hback
  rw [hback]
  exact hwf.short w₀ hw₀

/-- **The pathnames under the old one are rewritten, and nothing else**: the suffix stays, the other
slots, the watch descriptors and the size stay, and the rename back restores the cache if nothing
was under the new pathname. -/
theorem rewriteCachedPaths_exact (wlCache : List Watch) (p name p' name' : Str)
    (hwf : WellFormed wlCache) (hshort : Short wlCache (child p name) (child p' name')) :
    (∀ (j : ℕ) (wd : ℤ) (t : Str), Boundary t → wlCache[j]? = some ⟨wd, child p name ++ t⟩ →
        (rewriteCachedPaths wlCache p name p' name')[j]? = some ⟨wd, child p' name' ++ t⟩) ∧
      (∀ (j : ℕ) (w : Watch), wlCache[j]? = some w → (¬∃ t, Boundary t ∧ w.path = child p name ++ t) →
        (rewriteCachedPaths wlCache p name p' name')[j]? = some w) ∧
      (rewriteCachedPaths wlCache p name p' name').length = wlCache.length ∧
      ((∀ w ∈ wlCache, 0 ≤ w.wd → ¬Under (child p' name') w.path) →
        rewriteCachedPaths (rewriteCachedPaths wlCache p name p' name') p' name' p name = wlCache) := by
  refine ⟨?_, ?_, ?_, ?_⟩
  · intro j wd t ht hj
    have hunder : Under (child p name) (child p name ++ t) := ⟨t, rfl, ht⟩
    rw [rewriteCachedPaths_eq_map hshort, List.getElem?_map, hj, Option.map_some,
      carried_of_under _ hunder, rebase_append]
  · intro j w hj hnot
    have hunder : ¬Under (child p name) w.path := fun ⟨t, heq, ht⟩ => hnot ⟨t, ht, heq⟩
    rw [rewriteCachedPaths_eq_map hshort, List.getElem?_map, hj, Option.map_some,
      carried_of_not_under _ hunder]
  · rw [rewriteCachedPaths_eq_map hshort, List.length_map]
  · intro hfree
    -- an unused slot has no pathname, and that is under nothing
    have hall : ∀ w ∈ wlCache, ¬Under (child p' name') w.path := by
      intro w hw
      by_cases hused : 0 ≤ w.wd
      · exact hfree w hw hused
      · rw [(hwf.unused w hw hused).2]
        exact not_under_nil p' name'
    rw [rewriteCachedPaths_eq_map (hshort.back hwf hall), rewriteCachedPaths_eq_map hshort,
      List.map_map]
    refine (List.map_congr_left fun w hw => ?_).trans (List.map_id wlCache)
    rw [Function.comp_apply, carried_back (hall w hw)]
    rfl

/-- A directory under `/a/b`, another under `/a`, and an unused slot. -/
def siblings : List Watch := [⟨1, ['/', 'a', '/', 'b', '/', 'x']⟩, ⟨2, ['/', 'a', '/', 'b', 'c']⟩, ⟨-1, []⟩]

theorem wellFormed_siblings : WellFormed siblings := by
  refine ⟨?_, by decide, by decide⟩
  have hwds : ∀ i j : Fin 3, (siblings.get i).wd = (siblings.get j).wd → i = j := by decide
  intro i j wd P Q _ hi hj
  obtain ⟨hi₁, hi₂⟩ := List.getElem?_eq_some_iff.mp hi
  obtain ⟨hj₁, hj₂⟩ := List.getElem?_eq_some_iff.mp hj
  exact Fin.val_eq_of_eq (hwds ⟨i, hi₁⟩ ⟨j, hj₁⟩
    ((congrArg Watch.wd hi₂).trans (congrArg Watch.wd hj₂).symm))

/-- `/a/b` becomes `/a/cd`. -/
theorem rewriteCachedPaths_exact_siblings : WellFormed siblings ∧
    Short siblings (child ['/', 'a'] ['b']) (child ['/', 'a'] ['c', 'd']) ∧
      (rewriteCachedPaths siblings ['/', 'a'] ['b'] ['/', 'a'] ['c', 'd'])[0]? =
        some ⟨1, ['/', 'a', '/', 'c', 'd', '/', 'x']⟩ := by
  have hshort : Short siblings (child ['/', 'a'] ['b']) (child ['/', 'a'] ['c', 'd']) :=
    ⟨by decide, by decide, by decide⟩
  exact ⟨wellFormed_siblings, hshort, (rewriteCachedPaths_exact siblings _ _ _ _ wellFormed_siblings
    hshort).1 0 1 ['/', 'x'] (.inr ⟨_, rfl⟩) rfl⟩

end Rewrite

/-! ## 2. `zapSubtree()` -/

/-- The argument of `zapSubtree()`: a string of its own, or the pathname that is in a slot. -/
inductive PathArg where
  | str (s : Str)
  | slot (j : ℕ)
deriving Repr, DecidableEq

/-- The string that the argument points to at the moment. -/
def PathArg.value (wlCache : List Watch) : PathArg → Str
  | .str s => s
  | .slot j => (wlCache[j]?.map Watch.path).getD []

/-- The cache, and the `inotify_rm_watch()` calls so far: their number, and the watch descriptors
of those that were successful. -/
structure Zap where
  wlCache : List Watch
  calls : ℕ
  removed : List ℤ
  cnt : ℕ
deriving Repr, DecidableEq

/-- The call fails if the pattern says so; and a watch that was removed is not there any more. -/
def rmWatchFails (fails : ℕ → Bool) (z : Zap) (wd : ℤ) : Bool := fails z.calls || decide (wd ∈ z.removed)

/-- The loop over the slots `js`, with the copy `pn` of the argument; `none` is -1. -/
def zapLoop (fails : ℕ → Bool) (pn : Str) : List ℕ → Zap → Zap × Option ℕ
  | [], z => (z, some z.cnt)
  | j :: js, z =>
    match z.wlCache[j]? with
    | none => (z, some z.cnt)
    | some w =>
      if 0 ≤ w.wd ∧ inSubtree pn w.path then
        if rmWatchFails fails z w.wd then ({ z with calls := z.calls + 1 }, none)
        else
          zapLoop fails pn js
            ⟨markCacheSlotEmpty z.wlCache j, z.calls + 1, z.removed ++ [w.wd], z.cnt + 1⟩
      else zapLoop fails pn js z

def zapSubtree (fails : ℕ → Bool) (wlCache : List Watch) (path : PathArg) : Zap × Option ℕ :=
  -- `strdup(path)`: the slot that the argument may point to can be emptied by the loop
  let pn := path.value wlCache
  zapLoop fails pn (List.range wlCache.length) ⟨wlCache, 0, [], 0⟩

/-- A used slot with the pathname or one under it. -/
def InSubtree (pn : Str) (w : Watch) : Prop := 0 ≤ w.wd ∧ Under pn w.path

instance (pn : Str) (w : Watch) : Decidable (InSubtree pn w) :=
  inferInstanceAs (Decidable (0 ≤ w.wd ∧ Under pn w.path))

/-- The slots, those of the subtree emptied. -/
def emptied (pn : Str) (slots : List Watch) : List Watch :=
  slots.map fun w => if InSubtree pn w then ⟨-1, []⟩ else w

/-- The watch descriptors of the subtree, slot by slot. -/
def subtreeWds (pn : Str) (slots : List Watch) : List ℤ :=
  (slots.filter fun w => InSubtree pn w).map Watch.wd

section Zapping

variable {fails : ℕ → Bool} {pn : Str}

theorem emptied_append (slots slots' : List Watch) :
    emptied pn (slots ++ slots') = emptied pn slots ++ emptied pn slots' := List.map_append

theorem subtreeWds_append (slots slots' : List Watch) :
    subtreeWds pn (slots ++ slots') = subtreeWds pn slots ++ subtreeWds pn slots' := by
  rw [subtreeWds, List.filter_append, List.map_append]
  rfl

theorem of_inSubtree {w : Watch} (h : InSubtree pn w) :
    emptied pn [w] = [⟨-1, []⟩] ∧ subtreeWds pn [w] = [w.wd] := by
  constructor
  · rw [emptied, List.map_singleton, if_pos h]
  · rw [subtreeWds, List.filter_singleton]
    simp [h]

theorem of_not_inSubtree {w : Watch} (h : ¬InSubtree pn w) :
    emptied pn [w] = [w] ∧ subtreeWds pn [w] = [] := by
  constructor
  · rw [emptied, List.map_singleton, if_neg h]
  · rw [subtreeWds, List.filter_singleton]
    simp [h]

/-- The loop has passed the slots `before`, and comes to those of `rest`. -/
def zapped (pn : Str) (before rest : List Watch) : Zap :=
  ⟨emptied pn before ++ rest, (subtreeWds pn before).length, subtreeWds pn before,
    (subtreeWds pn before).length⟩

/-- What the loop leaves: all slots passed, or the loop left at a slot whose watch could not be
removed. -/
inductive Ends (fails : ℕ → Bool) (pn : Str) (slots : List Watch) : Zap × Option ℕ → Prop
  | all (hnodup : (subtreeWds pn slots).Nodup) :
    Ends fails pn slots (zapped pn slots [], some (subtreeWds pn slots).length)
  | failed (before : List Watch) (w : Watch) (after : List Watch) (hslots : slots = before ++ w :: after)
    (hnodup : (subtreeWds pn before).Nodup) (hw : InSubtree pn w)
    (hfails : rmWatchFails fails (zapped pn before (w :: after)) w.wd = true) :
    Ends fails pn slots
      ({ zapped pn before (w :: after) with calls := (subtreeWds pn before).length + 1 }, none)

theorem length_emptied (slots : List Watch) : (emptied pn slots).length = slots.length :=
  List.length_map _

/-- The slots still to come are induced on; `before` are those that the loop has passed. -/
theorem zapLoop_ends (rest : List Watch) : ∀ before : List Watch, (subtreeWds pn before).Nodup →
    Ends fails pn (before ++ rest)
      (zapLoop fails pn (List.range' before.length rest.length) (zapped pn before rest)) := by
  induction rest with
  | nil =>
    intro before hnodup
    rw [List.append_nil]
    exact .all hnodup
  | cons w rest ih =>
    intro before hnodup
    have hslot : (zapped pn before (w :: rest)).wlCache[before.length]? = some w := by
      rw [zapped, ← @length_emptied pn before]
      simp
    have hin : (0 ≤ w.wd ∧ inSubtree pn w.path = true) ↔ InSubtree pn w :=
      and_congr_right fun _ => inSubtree_iff
    have hnext : before.length + 1 = (before ++ [w]).length := by
      rw [List.length_append, List.length_singleton]
    rw [List.length_cons, List.range'_succ, zapLoop, hslot, List.append_cons]
    dsimp only
    by_cases hw : InSubtree pn w
    · obtain ⟨hempty, hwds⟩ := of_inSubtree hw
      rw [if_pos (hin.mpr hw)]
      by_cases hfails : rmWatchFails fails (zapped pn before (w :: rest)) w.wd = true
      · rw [if_pos hfails, ← List.append_cons]
        exact .failed before w rest rfl hnodup hw hfails
      · rw [if_neg hfails, hnext]
        -- a descriptor that was removed before could not have been removed again
        have hnot : w.wd ∉ subtreeWds pn before := by
          intro hmem
          exact hfails (Bool.or_eq_true_iff.mpr (.inr (decide_eq_true hmem)))
        have hmark : markCacheSlotEmpty (zapped pn before (w :: rest)).wlCache before.length =
            (zapped pn (before ++ [w]) rest).wlCache := by
          rw [zapped, zapped, emptied_append, hempty, markCacheSlotEmpty, ← @length_emptied pn before,
            List.set_append_right _ _ (Nat.le_refl _), Nat.sub_self, List.append_assoc]
          rfl
        have hwds' : subtreeWds pn (before ++ [w]) = subtreeWds pn before ++ [w.wd] := by
          rw [subtreeWds_append, hwds]
        have hzapped : (⟨markCacheSlotEmpty (zapped pn before (w :: rest)).wlCache before.length,
            (zapped pn before (w :: rest)).calls + 1, (zapped pn before (w :: rest)).removed ++ [w.wd],
            (zapped pn before (w :: rest)).cnt + 1⟩ : Zap) = zapped pn (before ++ [w]) rest := by
          rw [hmark, zapped, zapped, hwds', List.length_append, List.length_singleton]
        rw [hzapped]
        refine ih (before ++ [w]) ?_
        rw [hwds']
        exact hnodup.append (List.nodup_singleton _) (by simpa using hnot)
    · obtain ⟨hempty, hwds⟩ := of_not_inSubtree hw
      -- the slot is passed, and what the loop has done stays what it has to have done
      have hzapped : zapped pn before (w :: rest) = zapped pn (before ++ [w]) rest := by
        rw [zapped, zapped, subtreeWds_append, emptied_append, hempty, hwds, List.append_nil,
          List.append_assoc, List.singleton_append]
      rw [if_neg fun h => hw (hin.mp h), hnext, hzapped]
      refine ih (before ++ [w]) ?_
      rw [subtreeWds_append, hwds, List.append_nil]
      exact hnodup

/-- The whole loop. -/
theorem zapLoop_range_ends (slots : List Watch) :
    Ends fails pn slots (zapLoop fails pn (List.range slots.length) ⟨slots, 0, [], 0⟩) := by
  rw [List.range_eq_range']
  exact zapLoop_ends slots [] List.nodup_nil

/-- The pattern is looked at from the number of the next call on. -/
theorem zapLoop_congr {fails' : ℕ → Bool} (js : List ℕ) : ∀ {z : Zap},
    (∀ n, z.calls ≤ n → fails n = fails' n) → zapLoop fails pn js z = zapLoop fails' pn js z := by
  induction js with
  | nil => exact fun _ => rfl
  | cons j js ih =>
    intro z h
    rw [zapLoop, zapLoop]
    cases z.wlCache[j]? with
    | none => rfl
    | some w =>
      have hnow : rmWatchFails fails z w.wd = rmWatchFails fails' z w.wd := by
        rw [rmWatchFails, rmWatchFails, h z.calls (Nat.le_refl _)]
      have hnext := @ih ⟨markCacheSlotEmpty z.wlCache j, z.calls + 1, z.removed ++ [w.wd], z.cnt + 1⟩
        fun n hn => h n (Nat.le_of_succ_le hn)
      simp only [hnow, hnext, ih h]

/-- **The subtree is zapped, up to the first watch that cannot be removed**, whatever the cache
holds and wherever the argument points to. -/
theorem zapSubtree_exact (fails : ℕ → Bool) (wlCache : List Watch) (path : PathArg) :
    (∀ c, (zapSubtree fails wlCache path).2 = some c →
      (zapSubtree fails wlCache path).1.wlCache = emptied (path.value wlCache) wlCache ∧
        c = (wlCache.filter fun w => InSubtree (path.value wlCache) w).length ∧
        (zapSubtree fails wlCache path).1.removed = subtreeWds (path.value wlCache) wlCache ∧
        (zapSubtree fails wlCache path).1.removed.Nodup) ∧
      ((zapSubtree fails wlCache path).2 = none → ∃ before w after, wlCache = before ++ w :: after ∧
        InSubtree (path.value wlCache) w ∧
        (zapSubtree fails wlCache path).1.wlCache =
          emptied (path.value wlCache) before ++ w :: after ∧
        (zapSubtree fails wlCache path).1.removed = subtreeWds (path.value wlCache) before ∧
        (fails (subtreeWds (path.value wlCache) before).length = true ∨
          w.wd ∈ subtreeWds (path.value wlCache) before)) := by
  have hends : Ends fails (path.value wlCache) wlCache (zapSubtree fails wlCache path) :=
    zapLoop_range_ends wlCache
  revert hends
  generalize zapSubtree fails wlCache path = r
  intro hends
  cases hends with
  | all hnodup =>
    refine ⟨?_, fun h => nomatch h⟩
    intro c hc
    refine ⟨List.append_nil _, ?_, rfl, hnodup⟩
    rw [← Option.some.inj hc, subtreeWds, List.length_map]
  | failed before w after hslots hnodup hw hfails =>
    refine ⟨fun c h => (nomatch h), fun _ => ⟨before, w, after, hslots, hw, rfl, rfl, ?_⟩⟩
    exact (Bool.or_eq_true_iff.mp hfails).imp_right of_decide_eq_true

end Zapping

/-! ## 3. The two checks -/

/-- What `lstat()` finds at a pathname. -/
inductive Node where
  | missing
  | directory
  | other
deriving Repr, DecidableEq

/-- `struct stat`: the slot for which it was filled in last, and `S_ISDIR()` of it. -/
structure Stat where
  slot : ℕ
  isDir : Bool
deriving Repr, DecidableEq

/-- A test of `S_ISDIR(sb.st_mode)`: the slot that the loop is at, and the slot for which `sb` was
filled in, if it was. -/
structure Look where
  slot : ℕ
  filledFor : Option ℕ
deriving Repr, DecidableEq

/-- How a check ends. -/
inductive Verdict where
  | failures (n : ℕ)
  | exit
deriving Repr, DecidableEq

/-- The variables of a check, and the tests that it has made. -/
structure Check where
  failures : ℕ := 0
  cnt : ℕ := 0
  sb : Option Stat := none
  looks : List Look := []
deriving Repr, DecidableEq

/-- `sb` is tested. What `S_ISDIR()` is of a `sb` that was not filled in is anybody's guess. -/
def Check.look (c : Check) (slot : ℕ) : Check :=
  { c with looks := c.looks ++ [⟨slot, c.sb.map Stat.slot⟩] }

def Check.isDir (garbage : Bool) (c : Check) : Bool := (c.sb.map Stat.isDir).getD garbage

/-- The loop of `checkCacheConsistency()` from the slot `j` on. -/
def consistencyLoop (lstat : Str → Node) (garbage : Bool) : ℕ → List Watch → Check → Verdict × Check
  | _, [], c => (.failures c.failures, c)
  | j, w :: rest, c =>
    if 0 ≤ w.wd then
      match lstat w.path with
      -- `sb` stays as it was
      | .missing => consistencyLoop lstat garbage (j + 1) rest { c with failures := c.failures + 1 }
      | .directory => consistencyLoop lstat garbage (j + 1) rest { c with sb := some ⟨j, true⟩ }
      | .other => consistencyLoop lstat garbage (j + 1) rest { c with sb := some ⟨j, false⟩ }
    else
      -- the `else` belongs to the test of the watch descriptor
      if !(c.look j).isDir garbage then (.exit, c.look j)
      else consistencyLoop lstat garbage (j + 1) rest (c.look j)

def checkCacheConsistency (lstat : Str → Node) (garbage : Bool) (wlCache : List Watch) :
    Verdict × Check :=
  consistencyLoop lstat garbage 0 wlCache {}

/-- The loop of `checkAllCachedPathnamesExist()` from the slot `j` on; `sb` is a variable of the
loop's body. -/
def existLoop (lstat : Str → Node) (garbage : Bool) : ℕ → List Watch → Check → Verdict × Check
  | _, [], c => (.failures c.failures, c)
  | j, w :: rest, c =>
    let c := { c with sb := none }
    if 0 ≤ w.wd then
      match lstat w.path with
      | .missing => existLoop lstat garbage (j + 1) rest { c with failures := c.failures + 1 }
      | node =>
        let c := Check.look { c with sb := some ⟨j, node = .directory⟩ } j
        if !c.isDir garbage then (.exit, c)
        else existLoop lstat garbage (j + 1) rest { c with cnt := c.cnt + 1 }
    else existLoop lstat garbage (j + 1) rest c

def checkAllCachedPathnamesExist (lstat : Str → Node) (garbage : Bool) (wlCache : List Watch) :
    Verdict × Check :=
  existLoop lstat garbage 0 wlCache {}

/-- The used slots whose pathname cannot be found. -/
def missing (lstat : Str → Node) (slots : List Watch) : List Watch :=
  slots.filter fun w => 0 ≤ w.wd ∧ lstat w.path = .missing

/-- A used slot has the pathname of something that is not a directory. -/
def HasOther (lstat : Str → Node) (slots : List Watch) : Prop :=
  ∃ w ∈ slots, 0 ≤ w.wd ∧ lstat w.path = .other

/-- **What a check is to do**: count the pathnames that are not there, end the program if one is not
that of a directory, and look at nothing but used slots and what was filled in for them. -/
structure Checks (lstat : Str → Node) (wlCache : List Watch) (r : Verdict × Check) : Prop where
  exit_iff : r.1 = .exit ↔ HasOther lstat wlCache
  failures : ∀ n, r.1 = .failures n → n = (missing lstat wlCache).length
  looks : ∀ look ∈ r.2.looks, look.filledFor = some look.slot ∧
    ∃ w, wlCache[look.slot]? = some w ∧ 0 ≤ w.wd

section Checking

variable {lstat : Str → Node} {garbage : Bool}

theorem missing_append (slots slots' : List Watch) :
    missing lstat (slots ++ slots') = missing lstat slots ++ missing lstat slots' :=
  List.filter_append ..

theorem hasOther_append {slots slots' : List Watch} :
    HasOther lstat (slots ++ slots') ↔ HasOther lstat slots ∨ HasOther lstat slots' := by
  simp only [HasOther, List.mem_append, or_and_right, exists_or]

theorem hasOther_singleton {w : Watch} : HasOther lstat [w] ↔ 0 ≤ w.wd ∧ lstat w.path = .other := by
  simp only [HasOther, List.mem_singleton, exists_eq_left]

/-- A test of what was filled in for the slot that the loop is at, which is used. -/
def Sound (wlCache : List Watch) (look : Look) : Prop :=
  look.filledFor = some look.slot ∧ ∃ w, wlCache[look.slot]? = some w ∧ 0 ≤ w.wd

theorem Sound.append {slots : List Watch} {look : Look} (h : Sound slots look)
    (slots' : List Watch) : Sound (slots ++ slots') look := by
  obtain ⟨hfilled, w, hw, hused⟩ := h
  obtain ⟨hlt, -⟩ := List.getElem?_eq_some_iff.mp hw
  exact ⟨hfilled, w, (List.getElem?_append_left hlt).trans hw, hused⟩

/-- The slots `before` have been passed, and there was nothing wrong with them. -/
structure Passed (lstat : Str → Node) (before : List Watch) (c : Check) : Prop where
  noOther : ¬HasOther lstat before
  failures : c.failures = (missing lstat before).length
  looks : ∀ look ∈ c.looks, Sound before look

/-- One more slot is passed. -/
theorem Passed.next {before : List Watch} {c c' : Check} (h : Passed lstat before c) {w : Watch}
    (hw : 0 ≤ w.wd → lstat w.path ≠ .other)
    (hfailures : c'.failures = c.failures + (missing lstat [w]).length)
    (hlooks : ∀ look ∈ c'.looks, look ∈ c.looks ∨ Sound (before ++ [w]) look) :
    Passed lstat (before ++ [w]) c' := by
  refine ⟨?_, ?_, ?_⟩
  · rw [hasOther_append, hasOther_singleton]
    rintro (hother | ⟨hused, hother⟩)
    · exact h.noOther hother
    · exact hw hused hother
  · rw [hfailures, h.failures, missing_append, List.length_append]
  · intro look hlook
    rcases hlooks look hlook with hold | hnew
    · exact (h.looks look hold).append [w]
    · exact hnew

theorem length_missing_of {w : Watch} (h : ¬(0 ≤ w.wd ∧ lstat w.path = .missing)) :
    (missing lstat [w]).length = 0 := by
  rw [missing, List.filter_singleton]
  simp [h]

/-- The slots still to come are induced on. -/
theorem existLoop_checks (rest : List Watch) : ∀ {before : List Watch} {c : Check},
    Passed lstat before c →
      Checks lstat (before ++ rest) (existLoop lstat garbage before.length rest c) := by
  induction rest with
  | nil =>
    intro before c h
    rw [List.append_nil]
    exact ⟨iff_of_false (fun hexit => nomatch hexit) h.noOther,
      fun n hn => (Verdict.failures.inj hn).symm.trans h.failures, h.looks⟩
  | cons w rest ih =>
    intro before c h
    have hslot : (before ++ [w])[before.length]? = some w := by simp
    have hnext : before.length + 1 = (before ++ [w]).length := by
      rw [List.length_append, List.length_singleton]
    have hold : ∀ look ∈ c.looks, look ∈ c.looks ∨ Sound (before ++ [w]) look := fun _ hl => .inl hl
    rw [existLoop, List.append_cons]
    by_cases hused : 0 ≤ w.wd
    · rw [if_pos hused, hnext]
      -- the test is at this slot, on what `lstat()` has just filled in for it
      have hhere : ∀ look ∈ c.looks ++ [⟨before.length, some before.length⟩],
          look ∈ c.looks ∨ Sound (before ++ [w]) look := by
        intro look hlook
        rcases List.mem_append.mp hlook with hlook | hlook
        · exact .inl hlook
        · rw [List.mem_singleton.mp hlook]
          exact .inr ⟨rfl, w, hslot, hused⟩
      cases hnode : lstat w.path with
      | missing =>
        refine ih (h.next (fun _ => by rw [hnode]; decide) ?_ hold)
        rw [missing, List.filter_singleton]
        simp [hused, hnode]
      | directory =>
        refine ih (h.next (fun _ => by rw [hnode]; decide) ?_ hhere)
        rw [length_missing_of fun hm => by rw [hnode] at hm; exact nomatch hm.2]
        rfl
      | other =>
        -- not a directory: the program ends at this slot
        have hother : HasOther lstat (before ++ [w] ++ rest) := by
          rw [hasOther_append, hasOther_append, hasOther_singleton]
          exact .inl (.inr ⟨hused, hnode⟩)
        refine ⟨iff_of_true rfl hother, fun n hn => (nomatch hn), ?_⟩
        intro look hlook
        rcases hhere look hlook with hlook | hlook
        · rw [List.append_assoc]
          exact (h.looks look hlook).append _
        · exact hlook.append rest
    · rw [if_neg hused, hnext]
      refine ih (h.next (fun h0 => absurd h0 hused) ?_ hold)
      rw [length_missing_of fun hm => hused hm.1]
      rfl

/-- A used slot is counted if its pathname cannot be found, and is passed with no test. -/
theorem consistencyLoop_cons {w : Watch} (hused : 0 ≤ w.wd) (j : ℕ) (rest : List Watch) (c : Check) :
    ∃ c', consistencyLoop lstat garbage j (w :: rest) c = consistencyLoop lstat garbage (j + 1) rest c' ∧
      c'.failures = c.failures + (missing lstat [w]).length ∧ c'.looks = c.looks := by
  rw [consistencyLoop, if_pos hused, missing, List.filter_singleton]
  cases lstat w.path with
  | missing => exact ⟨{ c with failures := c.failures + 1 }, rfl, by simp [hused], rfl⟩
  | directory => exact ⟨{ c with sb := some ⟨j, true⟩ }, rfl, by simp, rfl⟩
  | other => exact ⟨{ c with sb := some ⟨j, false⟩ }, rfl, by simp, rfl⟩

/-- Where every slot is used, the check counts and makes no test. -/
theorem consistencyLoop_of_used (rest : List Watch) : ∀ {j : ℕ} {c : Check},
    (∀ w ∈ rest, 0 ≤ w.wd) → ∃ c', consistencyLoop lstat garbage j rest c =
      (.failures (c.failures + (missing lstat rest).length), c') ∧ c'.looks = c.looks := by
  induction rest with
  | nil => exact fun _ => ⟨_, rfl, rfl⟩
  | cons w rest ih =>
    intro j c hall
    have hrest : ∀ w ∈ rest, 0 ≤ w.wd := fun w hw => hall w (List.mem_cons_of_mem _ hw)
    obtain ⟨c₁, hcons, hfailures, hlooks₁⟩ :=
      @consistencyLoop_cons lstat garbage w (hall w List.mem_cons_self) j rest c
    obtain ⟨c', hloop, hlooks⟩ := @ih (j + 1) c₁ hrest
    have hmissing : (missing lstat (w :: rest)).length =
        (missing lstat [w]).length + (missing lstat rest).length := by
      rw [← List.length_append, ← missing_append, List.singleton_append]
    exact ⟨c', by rw [hcons, hloop, hfailures, hmissing, Nat.add_assoc], hlooks.trans hlooks₁⟩

/-- A test that was made stays made. -/
theorem looks_consistencyLoop (rest : List Watch) : ∀ {j : ℕ} {c : Check} {look : Look},
    look ∈ c.looks → look ∈ (consistencyLoop lstat garbage j rest c).2.looks := by
  induction rest with
  | nil => exact fun h => h
  | cons w rest ih =>
    intro j c look h
    by_cases hused : 0 ≤ w.wd
    · obtain ⟨c', hcons, -, hlooks⟩ := @consistencyLoop_cons lstat garbage w hused j rest c
      rw [hcons]
      exact ih (hlooks ▸ h)
    · have hlook : look ∈ (c.look j).looks := List.mem_append_left _ h
      rw [consistencyLoop, if_neg hused]
      split
      · exact hlook
      · exact ih hlook

/-- Where a slot is unused, there is a test at an unused slot: the first that the loop comes to. -/
theorem consistencyLoop_of_unused (rest : List Watch) : ∀ {before : List Watch} {c : Check},
    (∃ w ∈ rest, ¬0 ≤ w.wd) →
      ∃ look ∈ (consistencyLoop lstat garbage before.length rest c).2.looks,
        ∃ w, (before ++ rest)[look.slot]? = some w ∧ ¬0 ≤ w.wd := by
  induction rest with
  | nil => exact fun ⟨w, hw, _⟩ => nomatch hw
  | cons w rest ih =>
    intro before c hsome
    by_cases hused : 0 ≤ w.wd
    · have hrest : ∃ w ∈ rest, ¬0 ≤ w.wd := by
        obtain ⟨w', hw', hunused⟩ := hsome
        rcases List.mem_cons.mp hw' with rfl | hw'
        · exact absurd hused hunused
        · exact ⟨w', hw', hunused⟩
      have hnext : before.length + 1 = (before ++ [w]).length := by
        rw [List.length_append, List.length_singleton]
      obtain ⟨c', hcons, -, -⟩ := @consistencyLoop_cons lstat garbage w hused before.length rest c
      rw [hcons, List.append_cons before w rest, hnext]
      exact ih hrest
    · have hslot : (before ++ w :: rest)[before.length]? = some w := by simp
      have hlook : ⟨before.length, c.sb.map Stat.slot⟩ ∈ (c.look before.length).looks :=
        List.mem_append_right _ (List.mem_singleton_self _)
      refine ⟨⟨before.length, c.sb.map Stat.slot⟩, ?_, w, hslot, hused⟩
      rw [consistencyLoop, if_neg hused]
      split
      · exact hlook
      · exact looks_consistencyLoop rest hlook

end Checking

/-- **The two checks are one**: they come to the same verdict, and each does what it is to do. -/
structure SameCheck (lstat : Str → Node) (garbage : Bool) (wlCache : List Watch) : Prop where
  verdict : (checkCacheConsistency lstat garbage wlCache).1 =
    (checkAllCachedPathnamesExist lstat garbage wlCache).1
  consistency : Checks lstat wlCache (checkCacheConsistency lstat garbage wlCache)
  exist : Checks lstat wlCache (checkAllCachedPathnamesExist lstat garbage wlCache)

/-- The second check does what it is to do, whatever the cache. -/
theorem checkAllCachedPathnamesExist_checks (lstat : Str → Node) (garbage : Bool)
    (wlCache : List Watch) :
    Checks lstat wlCache (checkAllCachedPathnamesExist lstat garbage wlCache) :=
  @existLoop_checks lstat garbage wlCache [] {}
    ⟨fun ⟨_, hw, _⟩ => (nomatch hw), rfl, fun _ hlook => (nomatch hlook)⟩

/-- Where every slot is used, the first check misses nothing but what is not a directory. -/
theorem sameCheck_of_used {lstat : Str → Node} {garbage : Bool} {wlCache : List Watch}
    (hall : ∀ w ∈ wlCache, 0 ≤ w.wd) :
    SameCheck lstat garbage wlCache ↔ ¬HasOther lstat wlCache := by
  have hexist := checkAllCachedPathnamesExist_checks lstat garbage wlCache
  obtain ⟨c, hloop, hlooks⟩ := @consistencyLoop_of_used lstat garbage wlCache 0 {} hall
  have hcheck : checkCacheConsistency lstat garbage wlCache =
      (.failures (missing lstat wlCache).length, c) := by
    rw [checkCacheConsistency, hloop, Nat.zero_add]
  constructor
  · -- it does not end the program
    intro h hsome
    have hexit := h.consistency.exit_iff.mpr hsome
    rw [hcheck] at hexit
    exact nomatch hexit
  · intro hnone
    have hconsistency : Checks lstat wlCache (checkCacheConsistency lstat garbage wlCache) := by
      rw [hcheck]
      refine ⟨iff_of_false (fun hexit => nomatch hexit) hnone,
        fun n hn => (Verdict.failures.inj hn).symm, ?_⟩
      intro look hlook
      rw [hlooks] at hlook
      exact nomatch hlook
    refine ⟨?_, hconsistency, hexist⟩
    rw [hcheck]
    cases hv : (checkAllCachedPathnamesExist lstat garbage wlCache).1 with
    | failures n => rw [hexist.failures n hv]
    | exit => exact absurd (hexist.exit_iff.mp hv) hnone

/-- The checks are one only of a cache with no unused slot, in which there is nothing but the
pathnames of directories and of what is not there. -/
theorem sameCheck_iff (lstat : Str → Node) (garbage : Bool) (wlCache : List Watch) :
    SameCheck lstat garbage wlCache ↔
      (∀ w ∈ wlCache, 0 ≤ w.wd) ∧ ∀ w ∈ wlCache, lstat w.path ≠ .other := by
  by_cases hall : ∀ w ∈ wlCache, 0 ≤ w.wd
  · rw [sameCheck_of_used hall, and_iff_right hall]
    constructor
    · exact fun h w hw heq => h ⟨w, hw, hall w hw, heq⟩
    · exact fun h ⟨w, hw, _, heq⟩ => h w hw heq
  · -- at the first unused slot what was filled in for another slot, or for none, is tested
    refine iff_of_false (fun h => ?_) fun h => hall h.1
    rw [not_forall] at hall
    obtain ⟨w, hw⟩ := hall
    rw [Classical.not_imp] at hw
    obtain ⟨look, hlook, w', hw', hunused⟩ :=
      @consistencyLoop_of_unused lstat garbage wlCache [] {} ⟨w, hw⟩
    obtain ⟨-, w'', hw'', hused⟩ := h.consistency.looks look hlook
    rw [List.nil_append] at hw'
    rw [hw', Option.some.injEq] at hw''
    exact hunused (hw'' ▸ hused)

/-- A file `f` where there was a directory, then a directory `d`, and an unused slot: the one check
goes on, the other one ends the program. -/
theorem checkCacheConsistency_misses_file :
    ¬SameCheck (fun path => if path = ['f'] then .other else .directory) true
      [⟨1, ['f']⟩, ⟨2, ['d']⟩, ⟨-1, []⟩] := by
  intro h
  exact absurd h.verdict (by decide)

end Tlpi.DtreeScans
