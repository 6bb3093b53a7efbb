/-
`files/chiflag.c`: flags of several files are changed at once.

The variable `attr` holds the mask that the attribute characters denote, and the loop over the files
overwrites it with the new flags of each file, so that for `+` and `-` the next file is changed with
these in place of the mask. What the loop does is a fold of `visit` over the files that can be opened
(`changeFiles_eq`), in which `attr` goes from one file to the next.

`Undisturbed` is the condition under which this makes no difference: under `+`, the flags of a file
that are not in the mask are on the next file too; under `-`, no two files that follow each other share
a flag that is not in the mask, and only the first one has flags of the mask.
-/
import Mathlib.Data.List.Chain
import Mathlib.Logic.Function.Basic
import Mathlib.Tactic.Common
import Tlpi.CString

set_option autoImplicit false

namespace Tlpi.Chiflag

/-! ## 1. The program -/

abbrev Flags := BitVec 32

abbrev FS_SECRM_FL : Flags := 0x00000001
abbrev FS_UNRM_FL : Flags := 0x00000002
abbrev FS_COMPR_FL : Flags := 0x00000004
abbrev FS_SYNC_FL : Flags := 0x00000008
abbrev FS_IMMUTABLE_FL : Flags := 0x00000010
abbrev FS_APPEND_FL : Flags := 0x00000020
abbrev FS_NODUMP_FL : Flags := 0x00000040
abbrev FS_NOATIME_FL : Flags := 0x00000080
abbrev FS_JOURNAL_DATA_FL : Flags := 0x00004000
abbrev FS_NOTAIL_FL : Flags := 0x00008000
abbrev FS_DIRSYNC_FL : Flags := 0x00010000
abbrev FS_TOPDIR_FL : Flags := 0x00020000

/-- The attribute characters, from `a` to `u`. -/
def attribFlag (c : UInt8) : Option Flags := List.lookup c
  [('a'.toUInt8, FS_APPEND_FL), ('A'.toUInt8, FS_NOATIME_FL), ('c'.toUInt8, FS_COMPR_FL),
    ('d'.toUInt8, FS_NODUMP_FL), ('D'.toUInt8, FS_DIRSYNC_FL), ('i'.toUInt8, FS_IMMUTABLE_FL),
    ('j'.toUInt8, FS_JOURNAL_DATA_FL), ('s'.toUInt8, FS_SECRM_FL), ('S'.toUInt8, FS_SYNC_FL),
    ('t'.toUInt8, FS_NOTAIL_FL), ('T'.toUInt8, FS_TOPDIR_FL), ('u'.toUInt8, FS_UNRM_FL)]

/-- `+` -/
abbrev plus : UInt8 := '+'.toUInt8

/-- `-` -/
abbrev minus : UInt8 := '-'.toUInt8

/-- `=` -/
abbrev equals : UInt8 := '='.toUInt8

/-- The loop over the attribute characters; `none` is a character that is none of them. -/
def buildMask : Flags → List UInt8 → Option Flags
  | attr, [] => some attr
  | attr, c :: chars =>
    match attribFlag c with
    | none => none
    | some flag => buildMask (attr ||| flag) chars

/-- Which file a name opens when it is the argument of this number, and which of the other calls for
this argument fail. -/
structure Kernel where
  opens : ℕ → List UInt8 → Option ℕ
  getFails : ℕ → Bool
  setFails : ℕ → Bool
  closeFails : ℕ → Bool

/-- The end of the program; `ioctl1`, `ioctl2` and `close` are the messages of `systmErr()` in the
loop. -/
inductive Outcome where
  | usageError
  /-- An empty string for the attributes: the loop over the characters begins behind its end. -/
  | undefined
  | ioctl1 (name : List UInt8)
  | ioctl2 (name : List UInt8)
  | close (flags : ℕ → Flags)
  | success (flags : ℕ → Flags)

/-- The loop over the files, from the argument of the number `j` on. -/
def changeFiles (k : Kernel) (op : UInt8) : ℕ → Flags → (ℕ → Flags) → List (List UInt8) → Outcome
  | _, _, flags, [] => .success flags
  | j, attr, flags, name :: names =>
    match k.opens j name with
    | none => changeFiles k op (j + 1) attr flags names
    | some file =>
      if (op = plus ∨ op = minus) ∧ k.getFails j then .ioctl1 name
      else
        let attr :=
          if op = plus ∨ op = minus then
            if op = minus then flags file &&& ~~~attr else flags file ||| attr
          else attr
        if k.setFails j then .ioctl2 name
        else if k.closeFails j then .close (Function.update flags file attr)
        else changeFiles k op (j + 1) attr (Function.update flags file attr) names

def main (k : Kernel) (argv : List (List UInt8)) (flags : ℕ → Flags) : Outcome :=
  match argv with
  | _ :: attribs :: name :: names =>
    match attribs with
    | [] => .undefined
    | op :: chars =>
      if op ∉ [plus, minus, equals] ∨ op :: chars = CString.bytes "--help" then .usageError
      else
        match buildMask 0 chars with
        | none => .usageError
        | some attr => changeFiles k op 2 attr flags (name :: names)
  | _ => .usageError

/-! ## 2. What it is for -/

/-- The set of flags that the attribute characters denote. -/
def denoted (chars : List UInt8) : Flags := (chars.filterMap attribFlag).foldr (· ||| ·) 0

/-- What is to become of the flags of a file. -/
def changed (op : UInt8) (mask old : Flags) : Flags :=
  if op = minus then old &&& ~~~mask else if op = plus then old ||| mask else mask

/-- The files that are opened, in the order in which they are. -/
def opened (k : Kernel) : ℕ → List (List UInt8) → List ℕ
  | _, [] => []
  | j, name :: names =>
    match k.opens j name with
    | none => opened k (j + 1) names
    | some file => file :: if k.closeFails j then [] else opened k (j + 1) names

/-- The flags of the files after a run in which `ioctl()` has not failed. -/
def Outcome.flags : Outcome → Option (ℕ → Flags)
  | .close flags => some flags
  | .success flags => some flags
  | _ => none

/-- Each file that is opened is changed as if it were the only one, and no other file is. -/
def Independent (op : UInt8) (mask : Flags) (flags : ℕ → Flags) (files : List ℕ)
    (flags' : ℕ → Flags) : Prop :=
  ∀ file, flags' file = if file ∈ files then changed op mask (flags file) else flags file

/-- Each flag of the one is a flag of the other. -/
def Within (a b : Flags) : Prop := ∀ n, a.getLsbD n = true → b.getLsbD n = true

/-- No file is disturbed by the one before it. -/
structure Undisturbed (op : UInt8) (mask : Flags) (flags : ℕ → Flags) (files : List ℕ) : Prop where
  add : op = plus → files.IsChain fun file next => Within (flags file) (flags next ||| mask)
  remove : op = minus → files.IsChain fun file next => Within (flags file &&& flags next) mask
  /-- A file that is not the first one has no flag of the mask. -/
  first : op = minus → ∀ file ∈ files, files.head? ≠ some file → flags file &&& mask = 0

/-! ## 3. The loop as a fold -/

/-- The new value of `attr`. -/
def newAttr (op : UInt8) (attr old : Flags) : Flags :=
  if op = plus ∨ op = minus then if op = minus then old &&& ~~~attr else old ||| attr else attr

/-- What is done with a file that is opened. -/
def visit (op : UInt8) (s : Flags × (ℕ → Flags)) (file : ℕ) : Flags × (ℕ → Flags) :=
  (newAttr op s.1 (s.2 file), Function.update s.2 file (newAttr op s.1 (s.2 file)))

/-- `attr` is what the file has been changed to. -/
theorem visit_self (op : UInt8) (s : Flags × (ℕ → Flags)) (file : ℕ) :
    (visit op s file).2 file = (visit op s file).1 := Function.update_self ..

theorem visit_of_ne (op : UInt8) (s : Flags × (ℕ → Flags)) {file f : ℕ} (h : f ≠ file) :
    (visit op s file).2 f = s.2 f := Function.update_of_ne h ..

theorem changeFiles_eq {k : Kernel} {op : UInt8} {flags' : ℕ → Flags} {names : List (List UInt8)}
    {j : ℕ} {attr : Flags} {flags : ℕ → Flags}
    (h : (changeFiles k op j attr flags names).flags = some flags') :
    ((opened k j names).foldl (visit op) (attr, flags)).2 = flags' := by
  induction names generalizing j attr flags with
  | nil => exact Option.some.inj h
  | cons name names ih =>
    rw [changeFiles] at h
    rw [opened]
    cases hopen : k.opens j name with
    | none =>
      rw [hopen] at h
      exact ih h
    | some file =>
      rw [hopen] at h
      dsimp only at h ⊢
      rw [List.foldl_cons]
      split at h
      · exact nomatch h
      split at h
      · exact nomatch h
      split at h
      · rw [if_pos ‹_›]
        exact Option.some.inj h
      · rw [if_neg ‹_›]
        exact ih h

theorem buildMask_eq {chars : List UInt8} {attr mask : Flags} (h : buildMask attr chars = some mask) :
    mask = attr ||| denoted chars := by
  induction chars generalizing attr with
  | nil =>
    obtain rfl := Option.some.inj h
    exact (BitVec.or_zero (x := attr)).symm
  | cons c chars ih =>
    rw [buildMask] at h
    cases hc : attribFlag c with
    | none =>
      rw [hc] at h
      exact nomatch h
    | some flag =>
      rw [hc] at h
      rw [ih h, denoted, denoted, List.filterMap_cons, hc, List.foldr_cons, BitVec.or_assoc]

/-- What a run without errors has done. -/
theorem flags_main {k : Kernel} {prog : List UInt8} {op : UInt8} {chars : List UInt8}
    {names : List (List UInt8)} {flags flags' : ℕ → Flags}
    (h : (main k (prog :: (op :: chars) :: names) flags).flags = some flags') :
    op ∈ [plus, minus, equals] ∧
      ((opened k 2 names).foldl (visit op) (denoted chars, flags)).2 = flags' := by
  cases names with
  | nil => exact nomatch h
  | cons name names =>
    unfold main at h
    dsimp only at h
    split at h
    · exact nomatch h
    · next hop =>
      cases hmask : buildMask 0 chars with
      | none =>
        rw [hmask] at h
        exact nomatch h
      | some mask =>
        rw [hmask] at h
        have hzero : mask = denoted chars := (buildMask_eq hmask).trans BitVec.zero_or
        exact ⟨not_not.mp (not_or.mp hop).1, hzero ▸ changeFiles_eq h⟩

/-! ## 4. Undisturbed files -/

section

variable {op : UInt8} {mask : Flags} {flags : ℕ → Flags}

/-- The first file is changed with the mask. -/
theorem newAttr_mask (hop : op ∈ [plus, minus, equals]) (old : Flags) :
    newAttr op mask old = changed op mask old := by
  simp only [List.mem_cons, List.not_mem_nil, or_false] at hop
  rcases hop with rfl | rfl | rfl <;> rfl

/-- The flags where the files of a list have been changed. -/
def changedAll (op : UInt8) (mask : Flags) (flags : ℕ → Flags) (files : List ℕ) : ℕ → Flags :=
  fun file => if file ∈ files then changed op mask (flags file) else flags file

theorem update_changedAll (op : UInt8) (mask : Flags) (flags : ℕ → Flags) (done : List ℕ) (file : ℕ) :
    Function.update (changedAll op mask flags done) file (changed op mask (flags file)) =
      changedAll op mask flags (done ++ [file]) := by
  funext f
  by_cases hf : f = file
  · rw [hf, Function.update_self, changedAll, if_pos (List.mem_append_right _ (List.mem_singleton_self _))]
  · rw [Function.update_of_ne hf]
    simp only [changedAll, List.mem_append, List.mem_singleton, hf, or_false]

/-- **The loop, where no file is disturbed**: `attr` is what the file before has been changed to. -/
theorem foldl_visit {R : ℕ → ℕ → Prop} {P : ℕ → Prop}
    (hstep : ∀ file next cur, R file next →
      (cur = changed op mask (flags next) ∨ (cur = flags next ∧ P next)) →
        newAttr op (changed op mask (flags file)) cur = changed op mask (flags next))
    {rest : List ℕ} : ∀ {done : List ℕ} {last : ℕ}, (last :: rest).IsChain R →
      (∀ file ∈ rest, file ∉ done → P file) →
        (rest.foldl (visit op) (changed op mask (flags last), changedAll op mask flags done)).2 =
          changedAll op mask flags (done ++ rest) := by
  induction rest with
  | nil =>
    intro done last _ _
    rw [List.append_nil]
    rfl
  | cons file rest ih =>
    intro done last hchain hP
    obtain ⟨hR, hchain⟩ := List.isChain_cons_cons.mp hchain
    have hcur : changedAll op mask flags done file = changed op mask (flags file) ∨
        (changedAll op mask flags done file = flags file ∧ P file) := by
      by_cases hdone : file ∈ done
      · exact .inl (if_pos hdone)
      · exact .inr ⟨if_neg hdone, hP file List.mem_cons_self hdone⟩
    have hattr := hstep last file _ hR hcur
    rw [List.foldl_cons, visit]
    dsimp only
    rw [hattr, update_changedAll, List.append_cons done file rest]
    refine ih hchain fun f hf hnot => hP f (List.mem_cons_of_mem _ hf) fun hdone => hnot ?_
    exact List.mem_append_left _ hdone

theorem add_step {file next : ℕ} (h : Within (flags file) (flags next ||| mask)) {cur : Flags}
    (hcur : cur = flags next ||| mask ∨ cur = flags next) :
    cur ||| (flags file ||| mask) = flags next ||| mask := by
  refine BitVec.eq_of_getLsbD_eq fun n _ => ?_
  have hn := h n
  rcases hcur with rfl | rfl <;> simp only [BitVec.getLsbD_or, Bool.or_eq_true] at hn ⊢ <;> grind

theorem remove_step {file next : ℕ} (h : Within (flags file &&& flags next) mask) {cur : Flags}
    (hcur : cur = flags next &&& ~~~mask ∨ (cur = flags next ∧ flags next &&& mask = 0)) :
    cur &&& ~~~(flags file &&& ~~~mask) = flags next &&& ~~~mask := by
  refine BitVec.eq_of_getLsbD_eq fun n hlt => ?_
  have hn := h n
  rcases hcur with rfl | ⟨rfl, hzero⟩
  · simp only [BitVec.getLsbD_and, BitVec.getLsbD_not, hlt, decide_true, Bool.true_and] at hn ⊢
    grind
  · have hbit := congrArg (fun flags => flags.getLsbD n) hzero
    simp only [BitVec.getLsbD_and, BitVec.getLsbD_not, hlt, decide_true, Bool.true_and] at hn hbit ⊢
    grind

/-- **Undisturbed files are changed independently.** -/
theorem Undisturbed.independent {files : List ℕ} (h : Undisturbed op mask flags files)
    (hop : op ∈ [plus, minus, equals]) :
    Independent op mask flags files (files.foldl (visit op) (mask, flags)).2 := by
  cases files with
  | nil => exact fun file => (if_neg List.not_mem_nil).symm
  | cons first rest =>
    have hstart : visit op (mask, flags) first =
        (changed op mask (flags first), changedAll op mask flags [first]) := by
      have hnone : changedAll op mask flags [] = flags := funext fun f => if_neg List.not_mem_nil
      have hupdate := update_changedAll op mask flags [] first
      rw [hnone, List.nil_append] at hupdate
      rw [visit, newAttr_mask hop, hupdate]
    have hfold : (rest.foldl (visit op) (visit op (mask, flags) first)).2 =
        changedAll op mask flags ([first] ++ rest) := by
      rw [hstart]
      simp only [List.mem_cons, List.not_mem_nil, or_false] at hop
      rcases hop with rfl | rfl | rfl
      · refine foldl_visit (P := fun _ => True) (fun file next cur hR hcur => ?_) (h.add rfl)
          fun _ _ _ => trivial
        exact add_step hR (hcur.imp_right And.left)
      · refine foldl_visit (P := fun file => flags file &&& mask = 0)
          (fun file next cur hR hcur => ?_) (h.remove rfl) fun file hfile hnot => ?_
        · exact remove_step hR hcur
        · refine h.first rfl file (List.mem_cons_of_mem _ hfile) ?_
          rintro ⟨⟩
          exact hnot List.mem_cons_self
      · exact foldl_visit (R := fun _ _ => True) (P := fun _ => True) (fun _ _ _ _ _ => rfl)
          (List.pairwise_of_forall fun _ _ => trivial).isChain fun _ _ _ => trivial
    intro file
    rw [List.foldl_cons, hfold]
    rfl

/-! ## 5. Disturbed files -/

/-- The flags after the rest of the files. -/
abbrev after (op : UInt8) (s : Flags × (ℕ → Flags)) (rest : List ℕ) : ℕ → Flags :=
  (rest.foldl (visit op) s).2

/-- What `+` does to one flag of a file. -/
theorem visit_plus_getLsbD (s : Flags × (ℕ → Flags)) (file n : ℕ) :
    (visit plus s file).1.getLsbD n = ((s.2 file).getLsbD n || s.1.getLsbD n) := by
  rw [visit, newAttr, if_pos (.inl rfl), if_neg (by decide), BitVec.getLsbD_or]

/-- What `-` does to one flag of a file. -/
theorem visit_minus_getLsbD (s : Flags × (ℕ → Flags)) (file : ℕ) {n : ℕ} (hn : n < 32) :
    (visit minus s file).1.getLsbD n = ((s.2 file).getLsbD n && !s.1.getLsbD n) := by
  rw [visit, newAttr, if_pos (.inr rfl), if_pos rfl, BitVec.getLsbD_and, BitVec.getLsbD_not,
    decide_eq_true hn, Bool.true_and]

/-- Flags are not taken away by `+`. -/
theorem within_after_plus (rest : List ℕ) (s : Flags × (ℕ → Flags)) (file : ℕ) :
    Within (s.2 file) (after plus s rest file) := by
  induction rest generalizing s with
  | nil => exact fun n hn => hn
  | cons f rest ih =>
    intro n hn
    refine ih (visit plus s f) n ?_
    by_cases hf : file = f
    · rw [← hf, visit_self, visit_plus_getLsbD, hn, Bool.true_or]
    · rw [visit_of_ne plus s hf]
      exact hn

/-- **`+`**: a file gets the flags of the one before it. -/
theorem isChain_of_independent_plus {files : List ℕ} (s : Flags × (ℕ → Flags))
    (hs : ∀ file, Within (flags file) (s.2 file))
    (h : ∀ file ∈ files, after plus s files file = flags file ||| mask) :
    files.IsChain fun file next => Within (flags file) (flags next ||| mask) := by
  induction files generalizing s with
  | nil => exact .nil
  | cons file files ih =>
    have hs' : ∀ f, Within (flags f) ((visit plus s file).2 f) := fun f n hn =>
      within_after_plus [file] s f n (hs f n hn)
    have hrest := ih (visit plus s file) hs' fun f hf => h f (List.mem_cons_of_mem _ hf)
    cases files with
    | nil => exact List.isChain_singleton _
    | cons next files =>
      refine List.isChain_cons_cons.mpr ⟨fun n hn => ?_, hrest⟩
      have hattr : (visit plus s file).1.getLsbD n = true := by
        rw [visit_plus_getLsbD, hs file n hn, Bool.true_or]
      have hnext : ((visit plus (visit plus s file) next).2 next).getLsbD n = true := by
        rw [visit_self, visit_plus_getLsbD, hattr, Bool.or_true]
      rw [← h next (List.mem_cons_of_mem _ List.mem_cons_self)]
      exact within_after_plus files _ next n hnext

/-- Flags are not added by `-`. -/
theorem within_after_minus (rest : List ℕ) (s : Flags × (ℕ → Flags)) (file : ℕ) :
    Within (after minus s rest file) (s.2 file) := by
  induction rest generalizing s with
  | nil => exact fun n hn => hn
  | cons f rest ih =>
    intro n hn
    have hvisit := ih (visit minus s f) n hn
    by_cases hf : file = f
    · rw [← hf, visit_self, visit_minus_getLsbD _ _ (BitVec.lt_of_getLsbD hvisit), Bool.and_eq_true]
        at hvisit
      exact hvisit.1
    · rwa [visit_of_ne minus s hf] at hvisit

/-- **`-`**, the flags outside the mask: a file loses those of the one before it. -/
theorem isChain_of_independent_minus {files : List ℕ} (s : Flags × (ℕ → Flags))
    (hs : ∀ file, Within (s.2 file) (flags file))
    (h : ∀ file ∈ files, after minus s files file = flags file &&& ~~~mask) :
    files.IsChain fun file next => Within (flags file &&& flags next) mask := by
  induction files generalizing s with
  | nil => exact .nil
  | cons file files ih =>
    have hs' : ∀ f, Within ((visit minus s file).2 f) (flags f) := fun f n hn =>
      hs f n (within_after_minus [file] s f n hn)
    have hrest := ih (visit minus s file) hs' fun f hf => h f (List.mem_cons_of_mem _ hf)
    cases files with
    | nil => exact List.isChain_singleton _
    | cons next files =>
      refine List.isChain_cons_cons.mpr ⟨fun n hn => ?_, hrest⟩
      have hlt := BitVec.lt_of_getLsbD hn
      rw [BitVec.getLsbD_and, Bool.and_eq_true] at hn
      by_contra hmask
      rw [Bool.not_eq_true] at hmask
      have hkept : ∀ f ∈ file :: next :: files, (flags f).getLsbD n = true →
          (after minus s (file :: next :: files) f).getLsbD n = true := by
        intro f hf hfn
        rw [h f hf, BitVec.getLsbD_and, BitVec.getLsbD_not, decide_eq_true hlt, hmask, hfn]
        rfl
      -- The flag is still on the file, and hence in `attr`, after the visit.
      have hattr : (visit minus s file).1.getLsbD n = true := by
        rw [← visit_self]
        exact within_after_minus (next :: files) (visit minus s file) file n
          (hkept file List.mem_cons_self hn.1)
      have hnext := within_after_minus files (visit minus (visit minus s file) next) next n
        (hkept next (List.mem_cons_of_mem _ List.mem_cons_self) hn.2)
      rw [visit_self, visit_minus_getLsbD _ _ hlt, hattr, Bool.not_true, Bool.and_false] at hnext
      exact nomatch hnext

/-- A flag that is on a file and not in `attr` stays on some file: it is taken away from a file only
where the file before keeps it. -/
theorem remains_on {files rest : List ℕ} {n : ℕ} (hlt : n < 32) {s : Flags × (ℕ → Flags)} {last : ℕ}
    (hchain : (last :: rest).IsChain fun file next => file = next → (flags file).getLsbD n = false)
    (hs : ∀ file, Within (s.2 file) (flags file)) (hlast : last ∈ files) (hrest : rest ⊆ files)
    (hon : ∃ file ∈ files, (s.2 file).getLsbD n = true)
    (hattr : s.1.getLsbD n = true → (s.2 last).getLsbD n = true) :
    ∃ file ∈ files, (after minus s rest file).getLsbD n = true := by
  induction rest generalizing s last with
  | nil => exact hon
  | cons next rest ih =>
    obtain ⟨hne, hchain⟩ := List.isChain_cons_cons.mp hchain
    obtain ⟨hnext, hrest⟩ := List.cons_subset.mp hrest
    have hs' : ∀ file, Within ((visit minus s next).2 file) (flags file) := fun file n hn =>
      hs file n (within_after_minus [next] s file n hn)
    refine ih (s := visit minus s next) hchain hs' hnext hrest ?_ fun hattr' => ?_
    · cases hbit : s.1.getLsbD n with
      | true =>
        have hlaston := hattr hbit
        have hlastne : last ≠ next := fun heq =>
          absurd (hs last n hlaston) (by rw [hne heq]; exact Bool.false_ne_true)
        refine ⟨last, hlast, ?_⟩
        rw [visit_of_ne minus s hlastne]
        exact hlaston
      | false =>
        obtain ⟨file, hfile, hon⟩ := hon
        refine ⟨file, hfile, ?_⟩
        by_cases heq : file = next
        · rw [heq, visit_self, visit_minus_getLsbD _ _ hlt, ← heq, hon, hbit]
          rfl
        · rwa [visit_of_ne minus s heq]
    · rwa [visit_self]

/-- **`-`**, the flags of the mask: they are taken away from the first file only. -/
theorem first_of_independent_minus {files : List ℕ}
    (hchain : files.IsChain fun file next => file = next → flags file &&& mask = 0)
    (h : ∀ file ∈ files, after minus (mask, flags) files file = flags file &&& ~~~mask) :
    ∀ file ∈ files, files.head? ≠ some file → flags file &&& mask = 0 := by
  intro file hfile hhead
  cases files with
  | nil => exact nomatch hfile
  | cons first rest =>
    refine BitVec.eq_of_getLsbD_eq fun n hlt => ?_
    rw [BitVec.getLsbD_and, BitVec.ofNat_eq_ofNat, BitVec.getLsbD_zero]
    by_contra hbit
    rw [Bool.not_eq_false, Bool.and_eq_true] at hbit
    have hne : file ≠ first := fun heq => hhead (congrArg some heq.symm)
    have hon : ((visit minus (mask, flags) first).2 file).getLsbD n = true := by
      rw [visit_of_ne minus _ hne]
      exact hbit.1
    have hattr : (visit minus (mask, flags) first).1.getLsbD n = false := by
      rw [visit_minus_getLsbD _ _ hlt, hbit.2, Bool.not_true, Bool.and_false]
    have hchainbit : (first :: rest).IsChain fun file next =>
        file = next → (flags file).getLsbD n = false := by
      refine hchain.imp fun file next hzero heq => ?_
      have hand := congrArg (fun flags => flags.getLsbD n) (hzero heq)
      rwa [BitVec.getLsbD_and, hbit.2, Bool.and_true, BitVec.ofNat_eq_ofNat, BitVec.getLsbD_zero] at hand
    have hs : ∀ f, Within ((visit minus (mask, flags) first).2 f) (flags f) := fun f =>
      within_after_minus [first] (mask, flags) f
    obtain ⟨left, hleft, hleft'⟩ := remains_on hlt hchainbit hs List.mem_cons_self
      (List.subset_cons_self first rest) ⟨file, hfile, hon⟩ fun hattr' => by simp [hattr] at hattr'
    have hoff := h left hleft
    rw [after, List.foldl_cons] at hoff
    rw [after, hoff, BitVec.getLsbD_and, BitVec.getLsbD_not, hbit.2, decide_eq_true hlt, Bool.not_true,
      Bool.and_false, Bool.and_false] at hleft'
    exact nomatch hleft'

/-- **Files that are changed independently are undisturbed.** -/
theorem Independent.undisturbed {files : List ℕ}
    (h : Independent op mask flags files (files.foldl (visit op) (mask, flags)).2)
    (hchain : op = minus → files.IsChain fun file next => file = next → flags file &&& mask = 0) :
    Undisturbed op mask flags files where
  add := by
    rintro rfl
    refine isChain_of_independent_plus (mask, flags) (fun _ _ hn => hn) fun file hfile => ?_
    exact (h file).trans (if_pos hfile)
  remove := by
    rintro rfl
    refine isChain_of_independent_minus (mask, flags) (fun _ _ hn => hn) fun file hfile => ?_
    exact (h file).trans (if_pos hfile)
  first := by
    rintro rfl
    refine first_of_independent_minus (hchain rfl) fun file hfile => ?_
    exact (h file).trans (if_pos hfile)

end

/-- **The files of a run without `ioctl` errors are changed independently just if they are
undisturbed**; for the flags that `-` takes away, this supposes that no file that has one of them is
opened twice in a row, where the second visit makes up for what the first has left undone. -/
theorem independent_iff_undisturbed {k : Kernel} {prog : List UInt8} {op : UInt8}
    {chars : List UInt8} {names : List (List UInt8)} {flags flags' : ℕ → Flags}
    (h : (main k (prog :: (op :: chars) :: names) flags).flags = some flags') :
    (Undisturbed op (denoted chars) flags (opened k 2 names) →
      Independent op (denoted chars) flags (opened k 2 names) flags') ∧
    ((op = minus → (opened k 2 names).IsChain fun file next =>
        file = next → flags file &&& denoted chars = 0) →
      Independent op (denoted chars) flags (opened k 2 names) flags' →
        Undisturbed op (denoted chars) flags (opened k 2 names)) := by
  obtain ⟨hop, rfl⟩ := flags_main h
  exact ⟨fun hund => hund.independent hop, fun hchain hind => hind.undisturbed hchain⟩

/-- `x` and `y`, with the flag of `a` on the first. -/
abbrev flagsXy : ℕ → Flags := fun file => if file = 0 then FS_APPEND_FL else 0

/-- The two names are opened as different files, and nothing fails. -/
abbrev kernelXy : Kernel where
  opens j _ := some (j - 2)
  getFails _ := false
  setFails _ := false
  closeFails _ := false

theorem independent_iff_undisturbed_removed :
    (main kernelXy [[120], [minus, 'a'.toUInt8], [120], [121]] flagsXy).flags =
        some (Function.update (Function.update flagsXy 0 0) 1 0) ∧
      Independent minus (denoted ['a'.toUInt8]) flagsXy [0, 1]
        (Function.update (Function.update flagsXy 0 0) 1 0) := by
  have hrun : (main kernelXy [[120], [minus, 'a'.toUInt8], [120], [121]] flagsXy).flags =
      some (Function.update (Function.update flagsXy 0 0) 1 0) := rfl
  have hund : Undisturbed minus (denoted ['a'.toUInt8]) flagsXy [0, 1] := by
    refine ⟨nofun, fun _ => List.isChain_cons_cons.mpr ⟨fun n hn => ?_, List.isChain_singleton _⟩,
      fun _ => by decide⟩
    have hzero : flagsXy 0 &&& flagsXy 1 = 0 := by decide
    rw [hzero] at hn
    simp at hn
  exact ⟨hrun, (independent_iff_undisturbed hrun).1 hund⟩

/-- `+A x y` also puts the `a` of `x` on `y`. -/
theorem changeFiles_adds_flags : ¬ ∀ (k : Kernel) (prog : List UInt8) (op : UInt8)
    (chars : List UInt8) (names : List (List UInt8)) (flags flags' : ℕ → Flags),
      (main k (prog :: (op :: chars) :: names) flags).flags = some flags' →
        Independent op (denoted chars) flags (opened k 2 names) flags' := by
  intro h
  have hy := h kernelXy [120] plus ['A'.toUInt8] [[120], [121]] flagsXy _ rfl 1
  exact absurd hy (by decide)

end Tlpi.Chiflag
