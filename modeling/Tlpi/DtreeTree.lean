/-
What the operations of the other process do to the tree of directories, to the watches and
to the queue: one statement for each of `mkdir()`, `rmdir()` and `rename()`, which the rest
of the development uses in place of their definitions, and that each leaves a tree.
-/
import Tlpi.InotifyDtree

set_option autoImplicit false

namespace Tlpi.InotifyDtree

open Tlpi.Pathname Tlpi.Inotify

/-! ## Lookups -/

theorem find_isSome_iff {k : Kernel} {P : Str} : (k.find P).isSome ↔ ∃ d ∈ k.dirs, d.path = P := by
  unfold Kernel.find
  rw [List.find?_isSome]
  simp only [decide_eq_true_eq]

theorem find_eq_none_iff {k : Kernel} {P : Str} : k.find P = none ↔ ∀ d ∈ k.dirs, d.path ≠ P := by
  unfold Kernel.find
  rw [List.find?_eq_none]
  simp only [decide_eq_true_eq, ne_eq]

theorem find_of_mem {argv : List Str} {k : Kernel} (ht : Tree argv k) {d : Dir} (hd : d ∈ k.dirs) :
    k.find d.path = some d := by
  cases hf : k.find d.path with
  | none => exact absurd rfl (find_eq_none_iff.mp hf d hd)
  | some d' =>
    have hpath : d'.path = d.path := by simpa only [decide_eq_true_eq] using List.find?_some hf
    rw [ht.path_inj d' (List.mem_of_find?_eq_some hf) d hd hpath]

theorem wdAt_of_mem {argv : List Str} {k : Kernel} (ht : Tree argv k) {d : Dir} (hd : d ∈ k.dirs) :
    k.wdAt d.path = k.watch d.ino := by
  rw [Kernel.wdAt, find_of_mem ht hd, Option.bind_some]

theorem wdAt_of_absent {k : Kernel} {P : Str} (h : ∀ d ∈ k.dirs, d.path ≠ P) : k.wdAt P = none := by
  rw [Kernel.wdAt, find_eq_none_iff.mpr h, Option.bind_none]

/-! ## Roots -/

/-- A directory in a monitored tree that is no root has its parent there. -/
theorem inside_parent {argv : List Str} {p name : Str} (hname : ValidName name)
    (hroot : child p name ∉ argv) (h : Inside argv (child p name)) : Inside argv p := by
  obtain ⟨r, hr, hunder⟩ := h
  rcases (under_child_iff hname.2).mp hunder with rfl | hunder
  · exact absurd hr hroot
  · exact ⟨r, hr, hunder⟩

theorem Inside.under {argv : List Str} {P P' : Str} (h : Inside argv P) (hunder : Under P P') :
    Inside argv P' := by
  obtain ⟨r, hr, hrP⟩ := h
  exact ⟨r, hr, hrP.trans hunder⟩

/-! ## `mkdir()` -/

structure Made (k k' : Kernel) (p name : Str) : Prop where
  validName : ValidName name
  parent : ∃ d ∈ k.dirs, d.path = p
  absent : ∀ d ∈ k.dirs, d.path ≠ child p name
  eq : k' = { k with
    dirs := k.dirs ++ [⟨k.nextIno, child p name⟩], nextIno := k.nextIno + 1
    queue := k.queue ++ notify (k.wdAt p) (IN_CREATE ||| IN_ISDIR) 0 name (child p name) }

theorem mkdir_spec {k k' : Kernel} {p name : Str} (h : k.mkdir p name = some k') : Made k k' p name := by
  unfold Kernel.mkdir at h
  split at h
  · rename_i hc
    rw [Option.some.injEq] at h
    exact ⟨hc.1, find_isSome_iff.mp hc.2.1, find_eq_none_iff.mp hc.2.2, h.symm⟩
  · exact nomatch h

theorem Made.tree {argv : List Str} {k k' : Kernel} {p name : Str} (h : Made k k' p name)
    (ht : Tree argv k) : Tree argv k' := by
  obtain ⟨hname, ⟨dp, hdp, rfl⟩, habsent, rfl⟩ := h
  have hnew : ∀ d ∈ k.dirs, d.ino ≠ k.nextIno := fun d hd => Nat.ne_of_lt (ht.ino_lt d hd)
  refine ⟨?_, ?_, ?_, ?_, ?_⟩
  · simp only [List.mem_append, List.mem_singleton]
    rintro d (hd | rfl) d' (hd' | rfl) heq
    · exact ht.ino_inj d hd d' hd' heq
    · exact absurd heq (hnew d hd)
    · exact absurd heq.symm (hnew d' hd')
    · rfl
  · simp only [List.mem_append, List.mem_singleton]
    rintro d (hd | rfl) d' (hd' | rfl) heq
    · exact ht.path_inj d hd d' hd' heq
    · exact absurd heq (habsent d hd)
    · exact absurd heq.symm (habsent d' hd')
    · rfl
  · simp only [List.mem_append, List.mem_singleton]
    rintro d (hd | rfl)
    · exact Nat.lt_succ_of_lt (ht.ino_lt d hd)
    · exact Nat.lt_succ_self _
  · simp only [List.mem_append, List.mem_singleton]
    rintro d hd d' hd' F hF hF'
    -- what is above the new directory is the directory itself or above its parent
    have habove : Under F (child dp.path name) → Under d.path F → d ∈ k.dirs →
        ∃ d'', (d'' ∈ k.dirs ∨ d'' = ⟨k.nextIno, child dp.path name⟩) ∧ d''.path = F := by
      intro hF' hF hd
      rcases (under_child_iff hname.2).mp hF' with rfl | hF'
      · exact ⟨_, Or.inr rfl, rfl⟩
      · obtain ⟨d'', hd'', heq⟩ := ht.between d hd dp hdp F hF hF'
        exact ⟨d'', Or.inl hd'', heq⟩
    rcases hd with hd | rfl
    · rcases hd' with hd' | rfl
      · obtain ⟨d'', hd'', heq⟩ := ht.between d hd d' hd' F hF hF'
        exact ⟨d'', Or.inl hd'', heq⟩
      · exact habove hF' hF hd
    · rcases hd' with hd' | rfl
      · -- the new directory is above nothing that was there
        obtain ⟨d'', hd'', heq⟩ :=
          ht.between dp hdp d' hd' _ (under_child dp.path name) (hF.trans hF')
        exact absurd heq (habsent d'' hd'')
      · exact ⟨_, Or.inr rfl, hF.antisymm hF'⟩
  · intro r hr
    obtain ⟨d, hd, heq⟩ := ht.roots r hr
    exact ⟨d, List.mem_append_left _ hd, heq⟩

/-! ## `rmdir()` -/

structure Removed (argv : List Str) (k k' : Kernel) (P : Str) : Prop where
  dir : ∃ d ∈ k.dirs, d.path = P
  empty : k.Empty P
  root : P ∉ argv
  eq : k' = k.vacate P

theorem rmdir_spec {argv : List Str} {k k' : Kernel} {P : Str} (h : k.rmdir argv P = some k') :
    Removed argv k k' P := by
  unfold Kernel.rmdir at h
  split at h
  · rename_i hc
    rw [Option.some.injEq] at h
    exact ⟨find_isSome_iff.mp hc.1, hc.2.1, hc.2.2, h.symm⟩
  · exact nomatch h

theorem mem_vacate {k : Kernel} {P : Str} {d : Dir} :
    d ∈ (k.vacate P).dirs ↔ d ∈ k.dirs ∧ d.path ≠ P := by
  unfold Kernel.vacate
  rw [List.mem_filter, decide_eq_true_iff]

theorem watch_vacate {k : Kernel} {P : Str} {i : ℕ} {w : ℤ} :
    (k.vacate P).watch i = some w ↔ k.watch i = some w ∧ ∀ d ∈ k.dirs, d.ino = i → d.path ≠ P := by
  unfold Kernel.vacate
  simp only [List.any_eq_true, decide_eq_true_eq]
  constructor
  · intro h
    split at h
    · exact nomatch h
    · rename_i hnone
      exact ⟨h, fun d hd hi hP => hnone ⟨d, hd, hi, hP⟩⟩
  · rintro ⟨h, hnone⟩
    rw [if_neg, h]
    rintro ⟨d, hd, hi, hP⟩
    exact hnone d hd hi hP

theorem Removed.tree {argv : List Str} {k k' : Kernel} {P : Str} (h : Removed argv k k' P)
    (ht : Tree argv k) : Tree argv k' := by
  obtain ⟨-, hempty, hroot, rfl⟩ := h
  refine ⟨?_, ?_, ?_, ?_, ?_⟩
  · intro d hd d' hd'
    exact ht.ino_inj d (mem_vacate.mp hd).1 d' (mem_vacate.mp hd').1
  · intro d hd d' hd'
    exact ht.path_inj d (mem_vacate.mp hd).1 d' (mem_vacate.mp hd').1
  · intro d hd
    exact ht.ino_lt d (mem_vacate.mp hd).1
  · intro d hd d' hd' F hF hF'
    obtain ⟨hmem', hne⟩ := mem_vacate.mp hd'
    obtain ⟨d'', hd'', rfl⟩ := ht.between d (mem_vacate.mp hd).1 d' hmem' F hF hF'
    refine ⟨d'', mem_vacate.mpr ⟨hd'', ?_⟩, rfl⟩
    rintro rfl
    exact hne (hempty d' hmem' hF')
  · intro r hr
    obtain ⟨d, hd, rfl⟩ := ht.roots r hr
    refine ⟨d, mem_vacate.mpr ⟨hd, ?_⟩, rfl⟩
    rintro rfl
    exact hroot hr

/-! ## `rename()` -/

/-- `rename(p/name, p'/name')`; `S` and `T` are the two pathnames. -/
structure Renamed (argv : List Str) (k k' : Kernel) (p name p' name' S T : Str) : Prop where
  source : S = child p name
  target : T = child p' name'
  validName : ValidName name
  validName' : ValidName name'
  parent : ∃ d ∈ k.dirs, d.path = p
  parent' : ∃ d ∈ k.dirs, d.path = p'
  dir : ∃ d ∈ k.dirs, d.path = S
  apart : ¬Under S T
  empty : k.Empty T
  root' : T ∉ argv
  root : ∀ r ∈ argv, ¬Under S r
  mem : ∀ d', d' ∈ k'.dirs ↔ ∃ d ∈ k.dirs, d.path ≠ T ∧ d' = ⟨d.ino, carried S T d.path⟩
  watch : ∀ i w, k'.watch i = some w ↔ k.watch i = some w ∧ ∀ d ∈ k.dirs, d.ino = i → d.path ≠ T
  nextIno : k'.nextIno = k.nextIno
  nextWd : k'.nextWd = k.nextWd
  nextCookie : k'.nextCookie = k.nextCookie + 1
  queue : k'.queue = k.queue ++
    (notify (k.wdAt p) (IN_MOVED_FROM ||| IN_ISDIR) k.nextCookie name S ++
      notify (k.wdAt p') (IN_MOVED_TO ||| IN_ISDIR) k.nextCookie name' T ++ notifySelf (k.wdAt T) T)

theorem rename_spec {argv : List Str} {k k' : Kernel} {p name p' name' : Str}
    (h : k.rename argv p name p' name' = some k') :
    Renamed argv k k' p name p' name' (child p name) (child p' name') := by
  unfold Kernel.rename at h
  dsimp only at h
  split at h
  · rename_i hc
    obtain ⟨⟨hname, hname'⟩, ⟨hp, hp', hS⟩, ⟨hapart, hempty⟩, hroot', hroot⟩ := hc
    rw [Option.some.injEq] at h
    refine ⟨rfl, rfl, hname, hname', find_isSome_iff.mp hp, find_isSome_iff.mp hp',
      find_isSome_iff.mp hS, hapart, hempty, hroot', hroot, ?_, ?_, ?_, ?_, ?_, ?_⟩
    · -- every directory but the one that was replaced, under its new pathname
      intro d'
      rw [← h]
      simp only [List.mem_map, mem_vacate]
      constructor
      · rintro ⟨d, ⟨hd, hne⟩, rfl⟩
        refine ⟨d, hd, hne, ?_⟩
        unfold carried
        split <;> rfl
      · rintro ⟨d, hd, hne, rfl⟩
        refine ⟨d, ⟨hd, hne⟩, ?_⟩
        unfold carried
        split <;> rfl
    · intro i w
      rw [← h]
      exact watch_vacate
    · rw [← h]; rfl
    · rw [← h]; rfl
    · rw [← h]; rfl
    · rw [← h]
      simp only [Kernel.vacate, List.append_assoc, Kernel.wdAt, Kernel.find]
  · exact nomatch h

section Rename

variable {argv : List Str} {k k' : Kernel} {p name p' name' S T : Str}

/-- Two directories keep different pathnames. -/
theorem Renamed.carried_inj (h : Renamed argv k k' p name p' name' S T) {d d' : Dir}
    (hd : d ∈ k.dirs) (hT : d.path ≠ T) (hd' : d' ∈ k.dirs) (hT' : d'.path ≠ T)
    (heq : carried S T d.path = carried S T d'.path) : d.path = d'.path := by
  -- nothing but what is carried gets under the new place
  have hnew : ∀ d ∈ k.dirs, d.path ≠ T → ∀ P, Under S P → d.path ≠ rebase S T P := by
    intro d hd hT P hS heq
    exact hT (h.empty d hd (heq ▸ under_rebase T hS))
  by_cases hS : Under S d.path <;> by_cases hS' : Under S d'.path
  · rw [carried_of_under T hS, carried_of_under T hS'] at heq
    exact rebase_inj hS hS' heq
  · rw [carried_of_under T hS, carried_of_not_under T hS'] at heq
    exact absurd heq.symm (hnew d' hd' hT' _ hS)
  · rw [carried_of_not_under T hS, carried_of_under T hS'] at heq
    exact absurd heq (hnew d hd hT _ hS')
  · rwa [carried_of_not_under T hS, carried_of_not_under T hS'] at heq

/-- A directory that has been carried is in a monitored tree when the new place is. -/
theorem Renamed.inside_target (h : Renamed argv k k' p name p' name' S T) (ht : Tree argv k) {d : Dir}
    (hS : Under S d.path) (hin : Inside argv (rebase S T d.path)) : Inside argv T := by
  obtain ⟨r, hr, hunder⟩ := hin
  rcases rebase_cases hS hunder with hle | ⟨F, hF, -, rfl⟩
  · exact ⟨r, hr, hle⟩
  · obtain ⟨dr, hdr, heq⟩ := ht.roots _ hr
    have hT := h.empty dr hdr (heq ▸ under_rebase T hF)
    exact absurd (hT ▸ heq ▸ hr) h.root'

theorem Renamed.inside_source (h : Renamed argv k k' p name p' name' S T) {P : Str} (hS : Under S P)
    (hin : Inside argv P) : Inside argv S := by
  obtain ⟨r, hr, hunder⟩ := hin
  rcases hunder.total hS with hle | hle
  · exact ⟨r, hr, hle⟩
  · exact absurd hle (h.root r hr)

theorem Renamed.tree (h : Renamed argv k k' p name p' name' S T) (ht : Tree argv k) : Tree argv k' := by
  obtain ⟨dp', hdp', hp'⟩ := h.parent'
  have hunderT : ∀ F, Under F T → F = T ∨ Under F dp'.path := by
    intro F hF
    rw [h.target, hp']
    exact (under_child_iff h.validName'.2).mp (h.target ▸ hF)
  have hkept : ∀ d ∈ k.dirs, d.path ≠ T → ¬Under S d.path → d ∈ k'.dirs := by
    intro d hd hT hS
    refine (h.mem d).mpr ⟨d, hd, hT, ?_⟩
    rw [carried_of_not_under T hS]
  have hcarried : ∀ d ∈ k.dirs, d.path ≠ T → Under S d.path → ⟨d.ino, rebase S T d.path⟩ ∈ k'.dirs := by
    intro d hd hT hS
    exact (h.mem _).mpr ⟨d, hd, hT, by rw [carried_of_under T hS]⟩
  have hne : ∀ P, Under S P → P ≠ T := fun P hP heq => h.apart (heq ▸ hP)
  refine ⟨?_, ?_, ?_, ?_, ?_⟩
  · intro d₁ hd₁ d₂ hd₂ heq
    obtain ⟨d, hd, -, rfl⟩ := (h.mem d₁).mp hd₁
    obtain ⟨d', hd', -, rfl⟩ := (h.mem d₂).mp hd₂
    rw [ht.ino_inj d hd d' hd' heq]
  · intro d₁ hd₁ d₂ hd₂ heq
    obtain ⟨d, hd, hT, rfl⟩ := (h.mem d₁).mp hd₁
    obtain ⟨d', hd', hT', rfl⟩ := (h.mem d₂).mp hd₂
    rw [ht.path_inj d hd d' hd' (h.carried_inj hd hT hd' hT' heq)]
  · intro d₁ hd₁
    obtain ⟨d, hd, -, rfl⟩ := (h.mem d₁).mp hd₁
    rw [h.nextIno]
    exact ht.ino_lt d hd
  · intro d₁ hd₁ d₂ hd₂ F hF hF'
    obtain ⟨d, hd, hT, rfl⟩ := (h.mem d₁).mp hd₁
    obtain ⟨d', hd', hT', rfl⟩ := (h.mem d₂).mp hd₂
    -- between two directories that have stayed, everything has stayed
    have hstay : ∀ e ∈ k.dirs, e.path ≠ T → ¬Under S e.path → Under F e.path → Under d.path F →
        ∃ d'' ∈ k'.dirs, d''.path = F := by
      intro e he heT heS hFe hdF
      obtain ⟨d'', hd'', rfl⟩ := ht.between d hd e he F hdF hFe
      refine ⟨d'', hkept d'' hd'' ?_ fun hS => heS (hS.trans hFe), rfl⟩
      rintro heq
      exact heT (h.empty e he (heq ▸ hFe))
    dsimp only at hF hF'
    by_cases hS' : Under S d'.path
    · rw [carried_of_under T hS'] at hF'
      rcases rebase_cases hS' hF' with hFT | ⟨F', hSF', hF'd', rfl⟩
      · rcases hunderT F hFT with rfl | hFp'
        · obtain ⟨dS, hdS, hpath⟩ := h.dir
          refine ⟨_, hcarried dS hdS (hne _ (hpath ▸ Under.refl S)) (hpath ▸ Under.refl S), ?_⟩
          rw [hpath, rebase_self]
        · -- above the new place
          have hp'T : Under dp'.path T := by rw [h.target, hp']; exact under_child _ _
          have hdS : ¬Under S d.path := by
            intro hS
            rw [carried_of_under T hS] at hF
            have := ((under_rebase T hS).trans hF).trans hFp'
            rw [h.target, hp'] at this
            exact not_under_of_child _ _ this
          rw [carried_of_not_under T hdS] at hF
          have hp'neT : dp'.path ≠ T := by
            intro heq
            exact not_under_of_child p' name' (h.target ▸ hp' ▸ heq ▸ Under.refl _)
          exact hstay dp' hdp' hp'neT (fun hS => h.apart (hS.trans hp'T)) hFp' hF
      · -- between the old place and the directory
        obtain ⟨dS, hdS, hpath⟩ := h.dir
        obtain ⟨d'', hd'', rfl⟩ := ht.between dS hdS d' hd' F' (hpath ▸ hSF') hF'd'
        exact ⟨_, hcarried d'' hd'' (hne _ hSF') hSF', rfl⟩
    · rw [carried_of_not_under T hS'] at hF'
      have hdS : ¬Under S d.path := by
        intro hS
        rw [carried_of_under T hS] at hF
        exact hT' (h.empty d' hd' (((under_rebase T hS).trans hF).trans hF'))
      rw [carried_of_not_under T hdS] at hF
      exact hstay d' hd' hT' hS' hF' hF
  · intro r hr
    obtain ⟨d, hd, rfl⟩ := ht.roots r hr
    exact ⟨d, hkept d hd (fun heq => h.root' (heq ▸ hr)) (h.root _ hr), rfl⟩

end Rename

end Tlpi.InotifyDtree
