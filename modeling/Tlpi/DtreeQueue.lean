/-
The events that `inotify_dtree` has not handled yet, seen as what they will do to its cache.

## The shape of the argument

The queue is a list of *changes*, each an event or a pair of events that are handled
together. A change acts on each cached pathname by itself: `replay` is the cache that the
changes would make of the present one if the events that announce new directories did
nothing. Two things can happen on the way:

* A watch descriptor is not in the cache when its event is handled. Then the program
  rebuilds the cache, whatever else is in the queue: the queue is `Doomed`.
* Every lookup succeeds, and finds the pathname that the directory had at the time of the
  event: the queue is `Sound`.

For a sound queue, a directory that is not in the replayed cache has to be found by the
walk of one of the announcements. Announcements and renames get into each other's way,
because a walk looks at the present tree and the renames after it in the queue have been
made already. `Apart` says which announcements and renames may stand in this order, and
`Covered` that the walk of an announcement will find the directory: the announced pathname is not in
the cache by then, no later event zaps what the walk adds, and the directory, if it is
still watched under its former name, is no longer in the cache.

The walk that an announcement causes adds directories to the cache (`Walked`); that
the rest of the queue then leaves them alone, or zaps them before an announcement that
covers them again, is `covered_walked`.
-/
import Tlpi.InotifyDtree

set_option autoImplicit false

namespace Tlpi.InotifyDtree

open Tlpi.Pathname Tlpi.Inotify

/-! ## Changes -/

inductive Change where
  /-- `IN_CREATE`, or an `IN_MOVED_TO` by itself. -/
  | made (q : Queued)
  | gone (q : Queued)
  | moved (q q' : Queued)
  /-- An `IN_MOVED_FROM` by itself. -/
  | out (q : Queued)
  | ignored (q : Queued)

def Change.events : Change → List Queued
  | .made q => [q]
  | .gone q => [q]
  | .moved q q' => [q, q']
  | .out q => [q]
  | .ignored q => [q]

/-- What a change does to the cached pathnames; an announcement of a directory, nothing. -/
def Change.apply (c : ℤ → Option Str) : Change → ℤ → Option Str
  | .made _, w => c w
  | .gone q, w => if w = q.ev.wd then none else c w
  | .moved q q', w => (c w).map (carried q.place q'.place)
  | .out q, w => (c w).filter fun P => ¬Under q.place P
  | .ignored _, w => c w

def replay (c : ℤ → Option Str) (changes : List Change) : ℤ → Option Str :=
  changes.foldl Change.apply c

theorem replay_cons (c : ℤ → Option Str) (x : Change) (changes : List Change) :
    replay c (x :: changes) = replay (x.apply c) changes := rfl

theorem replay_append (c : ℤ → Option Str) (changes changes' : List Change) :
    replay c (changes ++ changes') = replay (replay c changes) changes' :=
  List.foldl_append

/-- A change acts on each watch descriptor by itself. -/
theorem apply_congr {c c' : ℤ → Option Str} (x : Change) {w : ℤ} (h : c w = c' w) :
    x.apply c w = x.apply c' w := by
  cases x <;> simp only [Change.apply, h]

theorem replay_congr (changes : List Change) : ∀ {c c' : ℤ → Option Str} {w : ℤ}, c w = c' w →
    replay c changes w = replay c' changes w := by
  induction changes with
  | nil => exact fun h => h
  | cons x changes ih => exact fun h => ih (apply_congr x h)

/-- Nothing comes back into the cache. -/
theorem replay_none (changes : List Change) : ∀ {c : ℤ → Option Str} {w : ℤ}, c w = none →
    replay c changes w = none := by
  induction changes with
  | nil => exact fun h => h
  | cons x changes ih =>
    intro c w h
    apply ih
    cases x <;> simp only [Change.apply, h, Option.map_none, Option.filter_none, ite_self]

/-! ## Lookups -/

/-- The event is on a watch that is cached, with the pathname of the time of the event. -/
def Known (c : ℤ → Option Str) (q : Queued) : Prop :=
  ∃ p, c q.ev.wd = some p ∧ q.place = child p q.ev.name

def Change.Known (argv : List Str) (c : ℤ → Option Str) : Change → Prop
  | .made q => InotifyDtree.Known c q
  | .gone q => c q.ev.wd = some q.place ∧ q.place ∉ argv
  | .moved q q' => InotifyDtree.Known c q ∧ InotifyDtree.Known c q'
  | .out q => InotifyDtree.Known c q
  | .ignored _ => True

/-- A lookup fails. -/
def Change.Missing (c : ℤ → Option Str) : Change → Prop
  | .made q => c q.ev.wd = none
  | .gone q => c q.ev.wd = none
  | .moved q q' => c q.ev.wd = none ∨ c q'.ev.wd = none
  | .out q => c q.ev.wd = none
  | .ignored _ => False

def Sound (argv : List Str) (c : ℤ → Option Str) : List Change → Prop
  | [] => True
  | x :: changes => x.Known argv c ∧ Sound argv (x.apply c) changes

def Doomed (argv : List Str) (c : ℤ → Option Str) : List Change → Prop
  | [] => False
  | x :: changes => x.Missing c ∨ x.Known argv c ∧ Doomed argv (x.apply c) changes

theorem sound_append {argv : List Str} {changes' : List Change} : ∀ {changes : List Change}
    {c : ℤ → Option Str}, Sound argv c changes → Sound argv (replay c changes) changes' →
    Sound argv c (changes ++ changes') := by
  intro changes
  induction changes with
  | nil => exact fun _ h => h
  | cons x changes ih => exact fun h h' => ⟨h.1, ih h.2 h'⟩

theorem Doomed.append {argv : List Str} (changes' : List Change) : ∀ {changes : List Change}
    {c : ℤ → Option Str}, Doomed argv c changes → Doomed argv c (changes ++ changes') := by
  intro changes
  induction changes with
  | nil => exact fun h => h.elim
  | cons x changes ih => exact fun h => h.imp_right fun h => ⟨h.1, ih h.2⟩

theorem doomed_of_missing {argv : List Str} {changes' : List Change} : ∀ {changes : List Change}
    {c : ℤ → Option Str}, Sound argv c changes → Doomed argv (replay c changes) changes' →
    Doomed argv c (changes ++ changes') := by
  intro changes
  induction changes with
  | nil => exact fun _ h => h
  | cons x changes ih => exact fun h h' => Or.inr ⟨h.1, ih h.2 h'⟩

/-- The watch descriptors of the events of a change. -/
def Change.wds (x : Change) : List ℤ := x.events.map fun q => q.ev.wd

theorem Change.known_congr {argv : List Str} {c c' : ℤ → Option Str} {x : Change}
    (h : ∀ w ∈ x.wds, c w = c' w) (hx : x.Known argv c) : x.Known argv c' := by
  cases x <;>
    simp only [Change.wds, Change.events, List.map_cons, List.map_nil, List.forall_mem_cons,
      Change.Known, InotifyDtree.Known] at h hx ⊢
  · rwa [h.1] at hx
  · rwa [h.1] at hx
  · rwa [h.1, h.2.1] at hx
  · rwa [h.1] at hx

theorem Change.missing_congr {c c' : ℤ → Option Str} {x : Change} (h : ∀ w ∈ x.wds, c w = c' w)
    (hx : x.Missing c) : x.Missing c' := by
  cases x <;>
    simp only [Change.wds, Change.events, List.map_cons, List.map_nil, List.forall_mem_cons,
      Change.Missing] at h hx ⊢
  · rwa [h.1] at hx
  · rwa [h.1] at hx
  · rwa [h.1, h.2.1] at hx
  · rwa [h.1] at hx

section Agree

variable {argv : List Str} {b : ℤ}

/-- Only the watch descriptors in the queue matter to what becomes of it. -/
theorem Sound.congr : ∀ {changes : List Change} {c c' : ℤ → Option Str},
    (∀ x ∈ changes, ∀ w ∈ x.wds, w < b) → (∀ w < b, c w = c' w) → Sound argv c changes →
    Sound argv c' changes := by
  intro changes
  induction changes with
  | nil => exact fun _ _ _ => trivial
  | cons x changes ih =>
    intro c c' hb hc h
    refine ⟨Change.known_congr (fun w hw => hc w (hb x List.mem_cons_self w hw)) h.1, ?_⟩
    exact ih (fun y hy => hb y (List.mem_cons_of_mem x hy)) (fun w hw => apply_congr x (hc w hw)) h.2

theorem Doomed.congr : ∀ {changes : List Change} {c c' : ℤ → Option Str},
    (∀ x ∈ changes, ∀ w ∈ x.wds, w < b) → (∀ w < b, c w = c' w) → Doomed argv c changes →
    Doomed argv c' changes := by
  intro changes
  induction changes with
  | nil => exact fun _ _ h => h
  | cons x changes ih =>
    intro c c' hb hc h
    have hx : ∀ w ∈ x.wds, c w = c' w := fun w hw => hc w (hb x List.mem_cons_self w hw)
    refine h.imp (Change.missing_congr hx) fun h => ⟨Change.known_congr hx h.1, ?_⟩
    exact ih (fun y hy => hb y (List.mem_cons_of_mem x hy)) (fun w hw => apply_congr x (hc w hw)) h.2

end Agree

/-- Pathnames in the cache stay in the monitored trees. -/
theorem inside_apply {argv : List Str} {c : ℤ → Option Str} {x : Change} (hx : x.Known argv c)
    (hc : ∀ w P, c w = some P → Inside argv P) : ∀ w P, x.apply c w = some P → Inside argv P := by
  intro w P h
  cases x with
  | made q => exact hc w P h
  | ignored q => exact hc w P h
  | gone q =>
    simp only [Change.apply] at h
    split at h
    · exact nomatch h
    · exact hc w P h
  | out q => exact hc w P (Option.filter_eq_some_iff.mp h).1
  | moved q q' =>
    obtain ⟨P₀, hP₀, rfl⟩ := Option.map_eq_some_iff.mp h
    unfold carried
    split
    · rename_i hunder
      obtain ⟨-, p', hp', hplace⟩ := hx
      obtain ⟨r, hr, hrp⟩ := hc _ p' hp'
      refine ⟨r, hr, hrp.trans ?_⟩
      rw [hplace]
      exact (under_child p' q'.ev.name).trans (under_rebase _ hunder)
    · exact hc w P₀ hP₀

theorem inside_replay {argv : List Str} : ∀ {changes : List Change} {c : ℤ → Option Str},
    Sound argv c changes → (∀ w P, c w = some P → Inside argv P) →
    ∀ w P, replay c changes w = some P → Inside argv P := by
  intro changes
  induction changes with
  | nil => exact fun _ hc => hc
  | cons x changes ih => exact fun h hc => ih h.2 (inside_apply h.1 hc)

/-! ## Announcements and renames -/

/-- Which changes may follow an announcement. -/
def Apart : Change → Change → Prop
  | .made q, .moved q' _ => ¬Under q.place q'.place ∧ ¬Under q'.place q.place
  | .made q, .out q' => Under q.place q'.place → q.place = q'.place
  | _, _ => True

/-- The pathname is not in the cache after these changes. -/
def Absent (c : ℤ → Option Str) (changes : List Change) (F : Str) : Prop :=
  ∀ w, replay c changes w ≠ some F

/-- Something zaps the pathname. -/
def ZapsOver (changes : List Change) (P : Str) : Prop := ∃ q, .out q ∈ changes ∧ Under q.place P

/-- The walk of this announcement will find a directory at `P`, and what it adds will stay. -/
structure Finds (c : ℤ → Option Str) (before : List Change) (q : Queued) (after : List Change)
    (P : Str) : Prop where
  under : Under q.place P
  absent : Absent c before q.place
  live : ¬ZapsOver after q.place

/-- No walk of an announcement before this one gets the announced pathname into the cache
for good. -/
def Unspoilt (c : ℤ → Option Str) (before : List Change) (F : Str) : Prop :=
  ∀ before₁ q₁ before₂, before = before₁ ++ .made q₁ :: before₂ → Absent c before₁ q₁.place →
    Under q₁.place F → ZapsOver before₂ F

/-- The walk of some announcement will find the directory at `P`, whose watch is `wd`. -/
def Covered (c : ℤ → Option Str) (changes : List Change) (wd : Option ℤ) (P : Str) : Prop :=
  ∃ before q after, changes = before ++ .made q :: after ∧ Finds c before q after P ∧
    ∀ w, wd = some w → replay c before w = none ∧ Unspoilt c before q.place

theorem Covered.append {c : ℤ → Option Str} {changes changes' : List Change} {wd : Option ℤ} {P : Str}
    (h : Covered c changes wd P) (hlive : ¬ZapsOver changes' P) :
    Covered c (changes ++ changes') wd P := by
  obtain ⟨before, q, after, rfl, hfinds, hwd⟩ := h
  refine ⟨before, q, after ++ changes', by rw [List.append_assoc, List.cons_append], ?_, hwd⟩
  refine ⟨hfinds.under, hfinds.absent, ?_⟩
  rintro ⟨q', hq', hunder⟩
  rcases List.mem_append.mp hq' with hq' | hq'
  · exact hfinds.live ⟨q', hq', hunder⟩
  · exact hlive ⟨q', hq', hunder.trans hfinds.under⟩

theorem Covered.unwatch {c : ℤ → Option Str} {changes : List Change} {wd wd' : Option ℤ} {P : Str}
    (h : Covered c changes wd P) (hwd : ∀ w, wd' = some w → wd = some w) :
    Covered c changes wd' P := by
  obtain ⟨before, q, after, heq, hfinds, hw⟩ := h
  exact ⟨before, q, after, heq, hfinds, fun w h => hw w (hwd w h)⟩

/-- A walk finds everything under an unwatched directory that it finds. -/
theorem Covered.deeper {c : ℤ → Option Str} {changes : List Change} {P P' : Str}
    (h : Covered c changes none P) (hunder : Under P P') : Covered c changes none P' := by
  obtain ⟨before, q, after, heq, hfinds, -⟩ := h
  exact ⟨before, q, after, heq, ⟨hfinds.under.trans hunder, hfinds.absent, hfinds.live⟩, nofun⟩

/-- When the first change has taken effect, a directory is covered by the others unless it
was covered by that one. -/
theorem Covered.tail {c : ℤ → Option Str} {x : Change} {changes : List Change} {wd : Option ℤ} {P : Str}
    (h : Covered c (x :: changes) wd P) :
    (∃ q, x = .made q ∧ Finds c [] q changes P ∧ ∀ w, wd = some w → c w = none) ∨
      Covered (x.apply c) changes wd P := by
  obtain ⟨before, q, after, heq, hfinds, hwd⟩ := h
  cases before with
  | nil =>
    rw [List.nil_append, List.cons.injEq] at heq
    obtain ⟨rfl, rfl⟩ := heq
    exact Or.inl ⟨q, rfl, hfinds, fun w hw => (hwd w hw).1⟩
  | cons y before =>
    rw [List.cons_append, List.cons.injEq] at heq
    obtain ⟨rfl, rfl⟩ := heq
    refine Or.inr ⟨before, q, after, rfl, ⟨hfinds.under, hfinds.absent, hfinds.live⟩, ?_⟩
    intro w hw
    refine ⟨(hwd w hw).1, ?_⟩
    intro before₁ q₁ before₂ heq habsent
    exact (hwd w hw).2 (x :: before₁) q₁ before₂ (by rw [heq, List.cons_append]) habsent

/-- Among the announcements that find a directory, the first is not spoilt. -/
theorem exists_unspoilt {c : ℤ → Option Str} {P : Str} : ∀ (n : ℕ) {changes before : List Change}
    {q : Queued} {after : List Change}, before.length ≤ n → changes = before ++ .made q :: after →
    Finds c before q after P →
    ∃ before' q' after', changes = before' ++ .made q' :: after' ∧ Finds c before' q' after' P ∧
      Unspoilt c before' q'.place := by
  intro n
  induction n with
  | zero =>
    intro changes before q after hlen heq hfinds
    -- nothing is announced before it, so nothing spoils it
    refine ⟨before, q, after, heq, hfinds, ?_⟩
    intro before₁ q₁ before₂ h
    rw [List.length_eq_zero_iff.mp (Nat.le_zero.mp hlen)] at h
    simp only [List.nil_eq, List.append_eq_nil_iff, reduceCtorEq, and_false] at h
  | succ n ih =>
    intro changes before q after hlen heq hfinds
    by_cases hspoilt : Unspoilt c before q.place
    · exact ⟨before, q, after, heq, hfinds, hspoilt⟩
    · -- an announcement that spoils this one finds the directory itself
      unfold Unspoilt at hspoilt
      push Not at hspoilt
      obtain ⟨before₁, q₁, before₂, hbefore, habsent, hunder, hzaps⟩ := hspoilt
      have hlen₁ : before₁.length ≤ n := by
        rw [hbefore, List.length_append, List.length_cons] at hlen
        omega
      have heq₁ : changes = before₁ ++ .made q₁ :: (before₂ ++ .made q :: after) := by
        rw [heq, hbefore, List.append_assoc, List.cons_append]
      refine ih hlen₁ heq₁ ⟨hunder.trans hfinds.under, habsent, ?_⟩
      rintro ⟨q₂, hq₂, hq₂q₁⟩
      rcases List.mem_append.mp hq₂ with h | h
      · exact hzaps ⟨q₂, h, hq₂q₁.trans hunder⟩
      · rcases List.mem_cons.mp h with h | h
        · exact nomatch h
        · exact hfinds.live ⟨q₂, h, hq₂q₁.trans hunder⟩

/-! ## The walk of an announcement -/

/-- The cache `c'` after the walk of the first announcement `q₀`: the watch descriptors from
`b` on are new, and are those of directories under the announced one. -/
structure Walked (c c' : ℤ → Option Str) (b : ℤ) (q₀ : Queued) (changes : List Change) : Prop where
  old : ∀ w < b, c w = c' w
  old_lt : ∀ w, c w ≠ none → w < b
  new : ∀ w P, b ≤ w → c' w = some P → Under q₀.place P
  wds : ∀ x ∈ changes, ∀ w ∈ x.wds, w < b
  apart : ∀ x ∈ changes, Apart (.made q₀) x

section Walk

variable {c c' : ℤ → Option Str} {b : ℤ} {q₀ : Queued} {changes : List Change}

/-- What the walk has added is left alone by the changes, or zapped. -/
theorem Walked.replay_new (h : Walked c c' b q₀ changes) : ∀ (before : List Change),
    (∀ x ∈ before, x ∈ changes) → ∀ w P (c'' : ℤ → Option Str), b ≤ w → Under q₀.place P →
    c'' w = some P →
    (ZapsOver before P → replay c'' before w = none) ∧
      (¬ZapsOver before P → replay c'' before w = some P) := by
  intro before
  induction before with
  | nil =>
    intro _ w P c'' _ _ hc''
    refine ⟨?_, fun _ => hc''⟩
    rintro ⟨q, hq, -⟩
    exact absurd hq List.not_mem_nil
  | cons x before ih =>
    intro hmem w P c'' hw hP hc''
    have hx := hmem x List.mem_cons_self
    have htail := ih fun y hy => hmem y (List.mem_cons_of_mem x hy)
    rw [replay_cons]
    by_cases hout : ∃ q, x = .out q ∧ Under q.place P
    · -- a directory that moved out takes the watch with it, and then nothing brings it back
      obtain ⟨q, rfl, hunder⟩ := hout
      have hnone : Change.apply c'' (.out q) w = none := by
        simp only [Change.apply, hc'', Option.filter_some, hunder, not_true_eq_false, decide_false,
          Bool.false_eq_true, if_false]
      refine ⟨fun _ => replay_none before hnone, fun hz => absurd ⟨q, List.mem_cons_self, hunder⟩ hz⟩
    · -- no other change reaches the new watch descriptor
      have hkept : x.apply c'' w = some P := by
        cases x with
        | made q => exact hc''
        | ignored q => exact hc''
        | gone q =>
          have hlt := h.wds _ hx q.ev.wd List.mem_cons_self
          simp only [Change.apply]
          rw [if_neg (by omega), hc'']
        | out q =>
          have hnot : ¬Under q.place P := fun hunder => hout ⟨q, rfl, hunder⟩
          simp only [Change.apply, hc'', Option.filter_some, hnot, not_false_eq_true, decide_true,
            if_true]
        | moved q q' =>
          -- a rename of another place is apart from the place that was walked
          have hapart := h.apart _ hx
          have hnot : ¬Under q.place P := fun hunder =>
            (hunder.total hP).elim hapart.2 hapart.1
          simp only [Change.apply, hc'', Option.map_some, carried, if_neg hnot]
      have hiff : ZapsOver (x :: before) P ↔ ZapsOver before P := by
        constructor
        · rintro ⟨q, hq, hunder⟩
          rcases List.mem_cons.mp hq with rfl | hq
          · exact absurd ⟨q, rfl, hunder⟩ hout
          · exact ⟨q, hq, hunder⟩
        · rintro ⟨q, hq, hunder⟩
          exact ⟨q, List.mem_cons_of_mem x hq, hunder⟩
      rw [hiff]
      exact htail w P _ hw hP hkept

theorem Walked.replay_old (h : Walked c c' b q₀ changes) (before : List Change) {w : ℤ} (hw : w < b) :
    replay c' before w = replay c before w :=
  (replay_congr before (h.old w hw)).symm

/-- An announced pathname that the walk has not cached, or not for good, is still absent. -/
theorem Walked.absent (h : Walked c c' b q₀ changes) {before : List Change}
    (hmem : ∀ x ∈ before, x ∈ changes) {F : Str} (habsent : Absent c before F)
    (hF : Under q₀.place F → ZapsOver before F) : Absent c' before F := by
  intro w hw
  by_cases hlt : w < b
  · exact habsent w ((h.replay_old before hlt).symm.trans hw)
  · cases hc' : c' w with
    | none =>
      rw [replay_none before hc'] at hw
      exact nomatch hw
    | some P =>
      have hge : b ≤ w := Int.not_lt.mp hlt
      have hunder := h.new w P hge hc'
      obtain ⟨hz, hnz⟩ := h.replay_new before hmem w P c' hge hunder hc'
      by_cases hzaps : ZapsOver before P
      · rw [hz hzaps] at hw
        exact nomatch hw
      · rw [hnz hzaps, Option.some.injEq] at hw
        exact hzaps (hw ▸ hF (hw ▸ hunder))

theorem Walked.absent_before (h : Walked c c' b q₀ changes) {before : List Change} {F : Str}
    (habsent : Absent c' before F) : Absent c before F := by
  intro w hw
  have hne : c w ≠ none := by
    intro hnone
    rw [replay_none before hnone] at hw
    exact nomatch hw
  exact habsent w ((h.replay_old before (h.old_lt w hne)).trans hw)

/-- What zaps a directory stands before the announcement that finds it. -/
theorem zapsOver_before {before : List Change} {q : Queued} {after : List Change} {P : Str}
    (hapart : (before ++ .made q :: after).Pairwise Apart) (hfinds : Finds c before q after P)
    (hzaps : ZapsOver (before ++ .made q :: after) P) : ZapsOver before P := by
  obtain ⟨q₁, hq₁, hunder⟩ := hzaps
  rcases List.mem_append.mp hq₁ with h | h
  · exact ⟨q₁, h, hunder⟩
  · rcases List.mem_cons.mp h with h | h
    · exact nomatch h
    · have happ := (List.pairwise_cons.mp (List.pairwise_append.mp hapart).2.1).1 _ h
      rcases hunder.total hfinds.under with hle | hle
      · exact absurd ⟨q₁, h, hle⟩ hfinds.live
      · exact absurd ⟨q₁, h, (happ hle) ▸ Under.refl _⟩ hfinds.live

/-- What zaps a directory found by both announcements zaps the second of them. -/
theorem Walked.zapsOver_place (h : Walked c c' b q₀ changes) {before : List Change}
    (hmem : ∀ x ∈ before, x ∈ changes) {P F : Str} (hF : Under F P) (hzaps : ZapsOver before P)
    (hunder : Under q₀.place F) : ZapsOver before F := by
  obtain ⟨q₁, hq₁, hq₁P⟩ := hzaps
  rcases hq₁P.total hF with hle | hle
  · exact ⟨q₁, hq₁, hle⟩
  · have heq := h.apart _ (hmem _ hq₁) (hunder.trans hle)
    exact ⟨q₁, hq₁, heq ▸ hunder⟩

/-- A directory that the walk has added is in the replayed cache, or covered again. -/
theorem Walked.covered_new (h : Walked c c' b q₀ changes) (hapart : changes.Pairwise Apart) {P : Str}
    {w : ℤ} (hw : b ≤ w) (hc' : c' w = some P)
    (hcovered : Finds c [] q₀ changes P ∨ Covered c changes none P) :
    replay c' changes w = some P ∨ Covered c' changes (some w) P := by
  have hunder := h.new w P hw hc'
  obtain ⟨-, hnz⟩ := h.replay_new changes (fun _ hx => hx) w P c' hw hunder hc'
  by_cases hzaps : ZapsOver changes P
  · right
    rcases hcovered with hfinds | ⟨before, q, after, heq, hfinds, -⟩
    · -- the walk itself would have kept it
      obtain ⟨q₁, hq₁, hq₁P⟩ := hzaps
      rcases hq₁P.total hfinds.under with hle | hle
      · exact absurd ⟨q₁, hq₁, hle⟩ hfinds.live
      · have heq := h.apart _ hq₁ hle
        exact absurd ⟨q₁, hq₁, heq ▸ Under.refl _⟩ hfinds.live
    · have hmem : ∀ x ∈ before, x ∈ changes := fun x hx => heq ▸ List.mem_append_left _ hx
      have hbefore := zapsOver_before (heq ▸ hapart) hfinds (heq ▸ hzaps)
      have hfinds' : Finds c' before q after P :=
        ⟨hfinds.under, h.absent hmem hfinds.absent (h.zapsOver_place hmem hfinds.under hbefore),
          hfinds.live⟩
      obtain ⟨before', q', after', heq', hfirst, hunspoilt⟩ :=
        exists_unspoilt before.length (Nat.le_refl _) heq hfinds'
      refine ⟨before', q', after', heq', hfirst, ?_⟩
      rintro w' ⟨⟩
      refine ⟨?_, hunspoilt⟩
      have hz := zapsOver_before (c := c') (heq' ▸ hapart) hfirst (heq' ▸ hzaps)
      exact (h.replay_new before' (fun x hx => heq' ▸ List.mem_append_left _ hx) w P c' hw
        hunder hc').1 hz
  · exact Or.inl (hnz hzaps)

/-- A directory that the walk has not added is covered as before. -/
theorem Walked.covered_old (h : Walked c c' b q₀ changes) (hhead : Absent c [] q₀.place)
    {P : Str} {wd : Option ℤ} (hwd : ∀ w, wd = some w → c w ≠ none)
    (hnew : wd = none → ¬Under q₀.place P) (hcovered : Covered c (.made q₀ :: changes) wd P) :
    Covered c' changes wd P := by
  obtain ⟨before, q, after, heq, hfinds, hw⟩ := hcovered
  cases before with
  | nil =>
    rw [List.nil_append, List.cons.injEq, Change.made.injEq] at heq
    cases wd with
    | none => exact absurd (heq.1 ▸ hfinds.under) (hnew rfl)
    | some w => exact absurd (hw w rfl).1 (hwd w rfl)
  | cons y before =>
    rw [List.cons_append, List.cons.injEq] at heq
    obtain ⟨rfl, heq⟩ := heq
    have hmem : ∀ x ∈ before, x ∈ changes := fun x hx => heq ▸ List.mem_append_left _ hx
    refine ⟨before, q, after, heq, ⟨hfinds.under, ?_, hfinds.live⟩, ?_⟩
    · refine h.absent hmem hfinds.absent fun hunder => ?_
      cases wd with
      | none => exact absurd (hunder.trans hfinds.under) (hnew rfl)
      | some w => exact (hw w rfl).2 [] q₀ before rfl hhead hunder
    · intro w hsome
      obtain ⟨hnone, hunspoilt⟩ := hw w hsome
      refine ⟨(h.replay_old before (h.old_lt w (hwd w hsome))).trans hnone, ?_⟩
      intro before₁ q₁ before₂ hsplit habsent
      exact hunspoilt (.made q₀ :: before₁) q₁ before₂ (by rw [hsplit, List.cons_append])
        (h.absent_before habsent)

end Walk

end Tlpi.InotifyDtree
