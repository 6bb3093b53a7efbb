/-
`procexec/execlp.c`: `execlp()`, built on `execve()`.

The arguments are collected into a vector that grows by a hundred entries at a time, and the file is
then tried in every directory of `PATH`. A file for which `execve()` fails with `ENOEXEC` is given to
the shell, by `execShScript()`, with a vector of its own.

Arrays go on behind their end: what an array is used for is noted, each index with the size of the
array at that time. What `execve()` does is given: `outcome n` is what the call number `n` comes to,
`none` if it does not return. Memory is always to be had. What is left out: the copy of the
environment, and what is freed.
-/
import Mathlib.Data.List.TakeWhile
import Mathlib.Logic.Function.Basic
import Tlpi.CString
import Tlpi.Loop

set_option autoImplicit false

namespace Tlpi.Execlp

open Tlpi.CString Tlpi.Loop

/-! ## 1. The argument vector -/

/-- An array of strings, `none` for `NULL`. -/
abbrev Strings := ℕ → Option CStr

/-- An index that is read or written, and the number of elements of the array. -/
structure Use where
  index : ℕ
  size : ℕ
deriving Repr, DecidableEq

/-- The vector while it is built. -/
structure Argv where
  argv : Strings
  argvSize : ℕ
  argc : ℕ
  uses : List Use

/-- `args` are the arguments in front of the `NULL` with which they end. -/
def collectBody (args : List CStr) (s : Argv) : Iter Argv Argv :=
  let uses := s.uses ++ [⟨s.argc - 1, s.argvSize⟩]
  if s.argv (s.argc - 1) = none then .done { s with uses := uses }
  else
    let argvSize := if s.argc + 1 ≥ s.argvSize then s.argvSize + 100 else s.argvSize
    .next {
      argv := Function.update s.argv s.argc args[s.argc]?
      argvSize := argvSize
      argc := s.argc + 1
      uses := uses ++ [⟨s.argc, argvSize⟩] }

/-- The number of arguments to come, with the `NULL`. -/
def Argv.rest (args : List CStr) (s : Argv) : ℕ :=
  if s.argv (s.argc - 1) = none then 0 else args.length - s.argc + 1

/-- `memory` is what the allocated memory holds. -/
def collect (memory : Strings) (args : List CStr) : Option Argv :=
  exec (collectBody args) (Argv.rest args) ⟨Function.update memory 0 args[0]?, 100, 1, [⟨0, 100⟩]⟩

/-! ## 2. The shell -/

inductive Errno where
  | EACCES
  | ENOEXEC
  | other (code : ℕ)
deriving Repr, DecidableEq

/-- `/bin/sh` -/
def SHELL_PATH : CStr := ⟨[47, 98, 105, 110, 47, 115, 104], by decide⟩

/-- A call of `execve()` for the shell. -/
structure Shell where
  shArgv : Strings
  uses : List Use
  errno : Option Errno

def execShScript (memory : Strings) (v : Argv) (errno : Option Errno) : Shell :=
  let shArgv := Function.update memory 0 (some SHELL_PATH)
  let js := List.range (v.argc + 1)
  { shArgv := js.foldl (fun shArgv j => Function.update shArgv (j + 1) (v.argv j)) shArgv
    uses := ⟨0, v.argc + 1⟩ :: js.flatMap fun j => [⟨j, v.argvSize⟩, ⟨j + 1, v.argc + 1⟩]
    errno := errno }

/-! ## 3. The search -/

/-- A string in an allocated buffer, and whether all that was stored lies in it. -/
structure Buffer where
  size : ℕ
  str : List UInt8
  fits : Bool
deriving Repr, DecidableEq

def malloc (size : ℕ) : Buffer := ⟨size, [], true⟩

/-- A string is stored behind the one that is there, with its null byte. -/
def strcat (b : Buffer) (s : List UInt8) : Buffer :=
  ⟨b.size, b.str ++ s, b.fits && decide (b.str.length + s.length + 1 ≤ b.size)⟩

def strdup (s : List UInt8) : Buffer := strcat (malloc (s.length + 1)) s

/-- A call of `execve()`, with the one for the shell if it fails with `ENOEXEC`. -/
structure Attempt where
  pathname : Buffer
  argv : Strings
  argvSize : ℕ
  errno : Option Errno
  shell : Option Shell

/-- What is given: the memory that is allocated for the two vectors, and what `execve()` does. -/
structure Kernel where
  memory : Strings
  shMemory : Strings
  outcome : ℕ → Option Errno

def attempt (k : Kernel) (v : Argv) (calls : ℕ) (pathname : Buffer) : Attempt where
  pathname := pathname
  argv := v.argv
  argvSize := v.argvSize
  errno := k.outcome calls
  shell :=
    if k.outcome calls = some .ENOEXEC then
      some (execShScript k.shMemory v (k.outcome (calls + 1)))
    else none

def Attempt.calls (a : Attempt) : ℕ := if a.shell.isSome then 2 else 1

/-- The process goes on as another program. -/
def Attempt.replaced (a : Attempt) : Bool :=
  a.errno = none ∨ a.shell.any fun sh => sh.errno = none

/-- What has been tried, and how the call ends: `none` if it does not return, else it returns -1 with
`errno`. -/
structure Run where
  vector : Argv
  attempts : List Attempt
  ret : Option Errno

def buildPathname (pre filename : List UInt8) : Buffer :=
  let pathname := strcat (malloc (max 1 pre.length + filename.length + 2)) []
  let pathname := if pre = [] then strcat pathname [46] else strcat pathname pre
  strcat (strcat pathname [47]) filename

/-- The local variables of the search, and the calls of `execve()`. -/
structure Search where
  prStart : ℕ
  morePrefixes : Bool
  fndEACCES : Bool
  savedErrno : Option Errno
  attempts : List Attempt
  calls : ℕ

def searchBody (k : Kernel) (filename PATH : List UInt8) (v : Argv) (s : Search) :
    Iter Search Run :=
  if !s.morePrefixes then
    .done ⟨v, s.attempts, if s.fndEACCES then some .EACCES else s.savedErrno⟩
  else
    let pre := (PATH.drop s.prStart).takeWhile (· ≠ 58)
    let prEnd := s.prStart + pre.length
    let a := attempt k v s.calls (buildPathname pre filename)
    if a.replaced then .done ⟨v, s.attempts ++ [a], none⟩
    else
      .next {
        prStart := if PATH[prEnd]? = none then s.prStart else prEnd + 1
        morePrefixes := PATH[prEnd]? ≠ none
        fndEACCES := s.fndEACCES || a.errno = some .EACCES
        savedErrno := a.errno
        attempts := s.attempts ++ [a]
        calls := s.calls + a.calls }

/-- How much of `PATH` is left. -/
def Search.rest (PATH : List UInt8) (s : Search) : ℕ :=
  if s.morePrefixes then PATH.length - s.prStart + 1 else 0

/-- The value of `PATH` that is searched. -/
def searchPath (PATH : Option CStr) : List UInt8 :=
  match PATH with
  | none => [46]
  | some p => if p.val.length = 0 then [46] else p.val

def execlp (k : Kernel) (PATH : Option CStr) (filename : CStr) (args : List CStr) : Option Run := do
  let v ← collect k.memory args
  if 47 ∈ filename.val then
    let a := attempt k v 0 (strdup filename.val)
    return ⟨v, [a], if a.replaced then none else a.errno⟩
  else
    exec (searchBody k filename.val (searchPath PATH) v) (Search.rest (searchPath PATH))
      ⟨0, true, false, none, [], 0⟩

/-! ## 4. What it is for -/

/-- The directories of `PATH`, in their order. -/
def directories (PATH : Option CStr) : List (List UInt8) :=
  match PATH with
  | none => [[46]]
  | some p => (p.val.splitOn 58).map fun dir => if dir = [] then [46] else dir

/-- The pathnames that are to be tried. -/
def pathnames (PATH : Option CStr) (filename : CStr) : List (List UInt8) :=
  (directories PATH).map fun dir => dir ++ 47 :: filename.val

/-- The arguments and a `NULL`, as an array holds them. -/
def Holds (argv : Strings) (l : List (Option (List UInt8))) : Prop :=
  ∀ i s, l[i]? = some s → (argv i).map Subtype.val = s

/-- The attempts are the calls of `execve()`, in their order. -/
def Numbered (k : Kernel) (attempts : List Attempt) : Prop :=
  ∀ n a, attempts[n]? = some a → a.errno = k.outcome n

/-- What `execlp()` is to do for a file that is searched for. -/
structure Searched (k : Kernel) (PATH : Option CStr) (filename : CStr) (args : List CStr) (r : Run) :
    Prop where
  tried : r.attempts.map (·.pathname.str) <+: pathnames PATH filename
  called : Numbered k r.attempts
  /-- The search goes on only behind a call that has failed. -/
  goesOn : ∀ n, n + 1 < r.attempts.length → k.outcome n ≠ none
  /-- It ends with its first success. -/
  success : r.ret = none ↔ ∃ last ∈ r.attempts.getLast?, last.errno = none
  all : r.ret ≠ none → r.attempts.map (·.pathname.str) = pathnames PATH filename
  fits : ∀ a ∈ r.attempts, a.pathname.fits = true
  uses : ∀ use ∈ r.vector.uses, use.index < use.size
  argv : ∀ a ∈ r.attempts, args.length < a.argvSize ∧
    Holds a.argv (args.map (fun arg => some arg.val) ++ [none])
  failed : (∀ a ∈ r.attempts, a.errno ≠ none) →
    ∃ last ∈ r.attempts.getLast?, r.ret =
      if ∃ a ∈ r.attempts, a.errno = some .EACCES then some .EACCES else last.errno

/-- What the shell is to be given for a file for which `execve()` fails with `ENOEXEC`. -/
structure GivenToShell (args : List CStr) (a : Attempt) (sh : Shell) : Prop where
  vector : Holds sh.shArgv
    ([some SHELL_PATH.val, some a.pathname.str] ++ args.tail.map (fun arg => some arg.val) ++ [none])
  uses : ∀ use ∈ sh.uses, use.index < use.size

/-- The file is given to the shell, and rightly. -/
def FallsBack (args : List CStr) (a : Attempt) : Prop :=
  ∃ sh, a.shell = some sh ∧ GivenToShell args a sh

/-! ## 5. The arguments are collected -/

/-- The arguments up to `argc` are in the vector, and there is room for one more. -/
structure Collecting (args : List CStr) (s : Argv) : Prop where
  argc_pos : 1 ≤ s.argc
  argc_le : s.argc ≤ args.length + 1
  room : s.argc < s.argvSize
  argv : ∀ i < s.argc, s.argv i = args[i]?
  uses : ∀ use ∈ s.uses, use.index < use.size

/-- The vector is complete. -/
structure Collected (args : List CStr) (v : Argv) : Prop where
  argc : v.argc = args.length + 1
  room : v.argc < v.argvSize
  argv : ∀ i ≤ args.length, v.argv i = args[i]?
  uses : ∀ use ∈ v.uses, use.index < use.size

theorem collectBody_next {args : List CStr} {s s' : Argv} (h : Collecting args s)
    (hb : collectBody args s = .next s') : Collecting args s' := by
  unfold collectBody at hb
  split at hb
  · exact nomatch hb
  rename_i hmore
  rw [Iter.next.injEq] at hb
  subst hb
  -- the argument looked at is not the `NULL`
  have hlt : s.argc - 1 < args.length := by
    have hpos := h.argc_pos
    rw [h.argv _ (by omega)] at hmore
    by_contra hge
    exact hmore (List.getElem?_eq_none (Nat.le_of_not_lt hge))
  have hroom := h.room
  refine ⟨Nat.le_add_left _ _, ?_, ?_, ?_, ?_⟩
  · simp only
    omega
  · simp only
    split <;> omega
  · intro i hi
    simp only at hi ⊢
    by_cases heq : i = s.argc
    · rw [heq, Function.update_self]
    · rw [Function.update_of_ne heq]
      exact h.argv i (by omega)
  · intro use huse
    simp only [List.append_assoc, List.cons_append, List.nil_append, List.mem_append,
      List.mem_cons, List.not_mem_nil, or_false] at huse
    rcases huse with huse | rfl | rfl
    · exact h.uses use huse
    · simp only
      omega
    · simp only
      split <;> omega

theorem collectBody_done {args : List CStr} {s v : Argv} (h : Collecting args s)
    (hb : collectBody args s = .done v) : Collected args v := by
  unfold collectBody at hb
  split at hb
  · rename_i hnull
    rw [Iter.done.injEq] at hb
    subst hb
    have hpos := h.argc_pos
    have hle := h.argc_le
    have hroom := h.room
    -- the argument looked at is the `NULL`
    have hge : args.length ≤ s.argc - 1 := by
      rw [h.argv _ (by omega)] at hnull
      exact List.getElem?_eq_none_iff.mp hnull
    refine ⟨?_, hroom, ?_, ?_⟩
    · simp only
      omega
    · intro i hi
      exact h.argv i (by omega)
    · intro use huse
      rcases List.mem_append.mp huse with huse | huse
      · exact h.uses use huse
      · rw [List.mem_singleton.mp huse]
        simp only
        omega
  · exact nomatch hb

theorem rest_collectBody {args : List CStr} {s s' : Argv} (hb : collectBody args s = .next s') :
    s'.rest args < s.rest args := by
  unfold collectBody at hb
  split at hb
  · exact nomatch hb
  rename_i hmore
  rw [Iter.next.injEq] at hb
  subst hb
  unfold Argv.rest
  rw [if_neg hmore]
  simp only [Nat.add_sub_cancel, Function.update_self]
  split
  · exact Nat.succ_pos _
  · rename_i hsome
    rw [List.getElem?_eq_none_iff] at hsome
    omega

theorem collectBody_ne_blocked (args : List CStr) (s : Argv) : collectBody args s ≠ .blocked := by
  unfold collectBody
  split <;> exact fun h => nomatch h

/-- **The arguments are collected**, with all of the vector's indexes inside it. -/
theorem collect_spec (memory : Strings) (args : List CStr) :
    ∃ v, collect memory args = some v ∧ Collected args v := by
  have hstart : Collecting args ⟨Function.update memory 0 args[0]?, 100, 1, [⟨0, 100⟩]⟩ := by
    refine ⟨Nat.le_refl _, Nat.le_add_left _ _, ?_, ?_, ?_⟩
    · change 1 < 100
      decide
    · intro i hi
      rw [Nat.lt_one_iff.mp hi]
      exact Function.update_self 0 _ memory
    · intro use huse
      rw [List.mem_singleton.mp huse]
      decide
  exact exec_rule (fun _ _ => rest_collectBody) (fun _ _ => collectBody_next)
    (fun _ _ => collectBody_done) (fun s _ => collectBody_ne_blocked args s) hstart

/-! ## 6. The pathnames -/

/-- The directory that a component of `PATH` stands for, with the file. -/
def pathnameIn (filename dir : List UInt8) : List UInt8 :=
  (if dir = [] then [46] else dir) ++ 47 :: filename

/-- The buffer is large enough, also for the `.` of an empty component. -/
theorem buildPathname_spec (pre filename : List UInt8) :
    (buildPathname pre filename).str = pathnameIn filename pre ∧
      (buildPathname pre filename).fits = true := by
  unfold buildPathname pathnameIn strcat malloc
  split
  · rename_i hnil
    subst hnil
    refine ⟨by simp, ?_⟩
    simp
    omega
  · rename_i hne
    have hpos := List.length_pos_iff.mpr hne
    refine ⟨by simp, ?_⟩
    simp
    omega

/-- A component ends at the first colon, or with `PATH`. -/
theorem splitOn_drop (PATH : List UInt8) (prStart : ℕ) :
    let pre := (PATH.drop prStart).takeWhile (· ≠ 58)
    (PATH[prStart + pre.length]? = none ∧ (PATH.drop prStart).splitOn 58 = [pre]) ∨
    (prStart + pre.length < PATH.length ∧ (PATH.drop prStart).splitOn 58 =
        pre :: (PATH.drop (prStart + pre.length + 1)).splitOn 58) := by
  intro pre
  have hsplit : PATH.drop prStart = pre ++ (PATH.drop prStart).dropWhile (· ≠ 58) :=
    (List.takeWhile_append_dropWhile).symm
  have hpre : ∀ b ∈ pre, (b == 58) = false := by
    intro b hb
    have := List.mem_takeWhile_imp hb
    simpa using this
  -- what is left behind the component is empty, or begins with the colon
  cases hrest : (PATH.drop prStart).dropWhile (· ≠ 58) with
  | nil =>
    left
    rw [hrest, List.append_nil] at hsplit
    refine ⟨?_, ?_⟩
    · rw [← List.getElem?_drop, hsplit]
      exact List.getElem?_eq_none (Nat.le_refl _)
    · rw [hsplit]
      exact List.splitOn_eq_singleton_of_beq_eq_false hpre
  | cons c rest =>
    right
    rw [hrest] at hsplit
    have hc : (c == 58) = true := by
      have hhead := List.head?_dropWhile_not (fun b : UInt8 => decide (b ≠ 58)) (PATH.drop prStart)
      rw [hrest] at hhead
      simpa using hhead
    have hdrop : PATH.drop (prStart + pre.length + 1) = rest := by
      rw [Nat.add_assoc, ← List.drop_drop, hsplit, ← List.drop_drop, List.drop_left]
      rfl
    refine ⟨?_, ?_⟩
    · have hlen := congrArg List.length hsplit
      rw [List.length_drop, List.length_append, List.length_cons] at hlen
      omega
    · rw [hdrop, hsplit]
      exact List.splitOn_append_cons_of_forall_mem_beq_eq_false hpre c hc rest

/-! ## 7. The search -/

section

variable {k : Kernel} {filename PATH : List UInt8} {v : Argv}

/-- The component of `PATH` that is looked at. -/
def Search.pre (PATH : List UInt8) (s : Search) : List UInt8 :=
  (PATH.drop s.prStart).takeWhile (· ≠ 58)

/-- The call that is made for it. -/
def Search.attempt (k : Kernel) (filename PATH : List UInt8) (v : Argv) (s : Search) : Attempt :=
  Execlp.attempt k v s.calls (buildPathname (s.pre PATH) filename)

/-- What is left of the pathnames to be tried. -/
def Search.left (filename PATH : List UInt8) (s : Search) : List (List UInt8) :=
  if s.morePrefixes then ((PATH.drop s.prStart).splitOn 58).map (pathnameIn filename) else []

/-- The state after a call that has failed. -/
def Search.after (k : Kernel) (filename PATH : List UInt8) (v : Argv) (s : Search) : Search where
  prStart :=
    if PATH[s.prStart + (s.pre PATH).length]? = none then s.prStart
    else s.prStart + (s.pre PATH).length + 1
  morePrefixes := PATH[s.prStart + (s.pre PATH).length]? ≠ none
  fndEACCES := s.fndEACCES || (s.attempt k filename PATH v).errno = some .EACCES
  savedErrno := (s.attempt k filename PATH v).errno
  attempts := s.attempts ++ [s.attempt k filename PATH v]
  calls := s.calls + (s.attempt k filename PATH v).calls

theorem searchBody_eq (k : Kernel) (filename PATH : List UInt8) (v : Argv) (s : Search) :
    searchBody k filename PATH v s =
      if !s.morePrefixes then
        .done ⟨v, s.attempts, if s.fndEACCES then some .EACCES else s.savedErrno⟩
      else if (s.attempt k filename PATH v).replaced then
        .done ⟨v, s.attempts ++ [s.attempt k filename PATH v], none⟩
      else .next (s.after k filename PATH v) := rfl

theorem searchBody_next {s s' : Search} (h : searchBody k filename PATH v s = .next s') :
    s.morePrefixes = true ∧ (s.attempt k filename PATH v).replaced = false ∧
      s' = s.after k filename PATH v := by
  rw [searchBody_eq] at h
  split at h
  · exact nomatch h
  rename_i hmore
  split at h
  · exact nomatch h
  rename_i hfailed
  rw [Iter.next.injEq] at h
  exact ⟨by simpa using hmore, by simpa using hfailed, h.symm⟩

theorem after_of_lt {s : Search} (h : s.prStart + (s.pre PATH).length < PATH.length) :
    (s.after k filename PATH v).morePrefixes = true ∧
      (s.after k filename PATH v).prStart = s.prStart + (s.pre PATH).length + 1 := by
  have hsome : PATH[s.prStart + (s.pre PATH).length]? ≠ none := by
    rw [ne_eq, List.getElem?_eq_none_iff]
    exact Nat.not_le_of_lt h
  exact ⟨decide_eq_true hsome, if_neg hsome⟩

/-- The first of the pathnames that are left is tried next. -/
theorem left_eq {s : Search} (h : s.morePrefixes = true) : s.left filename PATH =
    (s.attempt k filename PATH v).pathname.str :: (s.after k filename PATH v).left filename PATH := by
  have hstr : (s.attempt k filename PATH v).pathname.str = pathnameIn filename (s.pre PATH) :=
    (buildPathname_spec _ _).1
  rw [Search.left, if_pos h, hstr]
  -- the last component leaves nothing to be tried
  rcases splitOn_drop PATH s.prStart with ⟨hend, hsplit⟩ | ⟨hlt, hsplit⟩
  · have hlast : (s.after k filename PATH v).morePrefixes = false := by
      simpa [Search.after, Search.pre] using hend
    rw [hsplit, Search.left, hlast]
    rfl
  · obtain ⟨hmore, hstart⟩ := @after_of_lt k filename PATH v s hlt
    rw [hsplit, Search.left, if_pos hmore, hstart]
    rfl

/-- Every turn of the search gets further in `PATH`. -/
theorem rest_searchBody {s s' : Search} (h : searchBody k filename PATH v s = .next s') :
    s'.rest PATH < s.rest PATH := by
  obtain ⟨hmore, -, rfl⟩ := searchBody_next h
  unfold Search.rest
  rw [if_pos hmore]
  split
  · rename_i hgoes
    have hlt : s.prStart + (s.pre PATH).length < PATH.length := by
      by_contra hge
      have hnone := List.getElem?_eq_none (Nat.le_of_not_lt hge)
      simp [Search.after, hnone] at hgoes
    rw [(after_of_lt hlt).2]
    omega
  · exact Nat.succ_pos _

theorem searchBody_ne_blocked (s : Search) : searchBody k filename PATH v s ≠ .blocked := by
  rw [searchBody_eq]
  split
  · exact fun h => nomatch h
  split <;> exact fun h => nomatch h

/-- A call that the search makes. -/
def Made (k : Kernel) (filename : List UInt8) (v : Argv) (a : Attempt) : Prop :=
  ∃ calls pre, a = attempt k v calls (buildPathname pre filename)

/-- No file is given to the shell. -/
def NoExec (k : Kernel) : Prop := ∀ n, k.outcome n ≠ some .ENOEXEC

/-- The pathnames tried, with those that are left, are those to be tried, and all calls so far have
failed. -/
structure Searching (k : Kernel) (filename PATH : List UInt8) (v : Argv) (s : Search) : Prop where
  tried : s.attempts.map (·.pathname.str) ++ s.left filename PATH =
    (PATH.splitOn 58).map (pathnameIn filename)
  made : ∀ a ∈ s.attempts, Made k filename v a ∧ a.replaced = false
  fndEACCES : s.fndEACCES = true ↔ ∃ a ∈ s.attempts, a.errno = some .EACCES
  savedErrno : s.morePrefixes = false → ∃ last ∈ s.attempts.getLast?, s.savedErrno = last.errno
  calls : NoExec k → s.calls = s.attempts.length
  numbered : NoExec k → Numbered k s.attempts

/-- How the search ends: with a call that has succeeded, or when all have failed. -/
structure Ended (k : Kernel) (filename PATH : List UInt8) (v : Argv) (r : Run) : Prop where
  vector : r.vector = v
  tried : r.attempts.map (·.pathname.str) <+: (PATH.splitOn 58).map (pathnameIn filename)
  made : ∀ a ∈ r.attempts, Made k filename v a
  numbered : NoExec k → Numbered k r.attempts
  how : (r.ret = none ∧ ∃ earlier last, r.attempts = earlier ++ [last] ∧
      (∀ a ∈ earlier, a.replaced = false) ∧ last.replaced = true) ∨
    (r.attempts.map (·.pathname.str) = (PATH.splitOn 58).map (pathnameIn filename) ∧
      (∀ a ∈ r.attempts, a.replaced = false) ∧ ∃ last ∈ r.attempts.getLast?,
        r.ret = if ∃ a ∈ r.attempts, a.errno = some .EACCES then some .EACCES else last.errno)

/-- The pathnames tried and those that are left, after one more call. -/
theorem tried_after {s : Search} (hs : Searching k filename PATH v s) (hmore : s.morePrefixes = true) :
    (s.attempts ++ [s.attempt k filename PATH v]).map (·.pathname.str) ++
        (s.after k filename PATH v).left filename PATH =
      (PATH.splitOn 58).map (pathnameIn filename) := by
  have htried := hs.tried
  rw [left_eq (k := k) (v := v) hmore] at htried
  rw [← htried, List.map_append, List.append_assoc]
  rfl

/-- The one more call is made like the others. -/
theorem made_after {s : Search} (hs : Searching k filename PATH v s) {a : Attempt}
    (ha : a ∈ s.attempts ++ [s.attempt k filename PATH v]) : Made k filename v a := by
  rcases List.mem_append.mp ha with ha | ha
  · exact (hs.made a ha).1
  · rw [List.mem_singleton.mp ha]
    exact ⟨_, _, rfl⟩

/-- It is the next call of `execve()`. -/
theorem numbered_after {s : Search} (hs : Searching k filename PATH v s) (hnoexec : NoExec k) :
    Numbered k (s.attempts ++ [s.attempt k filename PATH v]) := by
  intro n a ha
  rcases Nat.lt_trichotomy n s.attempts.length with hlt | heq | hgt
  · rw [List.getElem?_append_left hlt] at ha
    exact hs.numbered hnoexec n a ha
  · rw [heq, List.getElem?_concat_length, Option.some.injEq] at ha
    rw [← ha, heq, ← hs.calls hnoexec]
    rfl
  · have hlt := (List.getElem?_eq_some_iff.mp ha).1
    rw [List.length_append, List.length_singleton] at hlt
    omega

/-- A call that the shell is not needed for is one call. -/
theorem calls_attempt (hnoexec : NoExec k) (s : Search) :
    (s.attempt k filename PATH v).calls = 1 := by
  have hshell : (s.attempt k filename PATH v).shell = none := if_neg (hnoexec _)
  rw [Attempt.calls, hshell]
  rfl

theorem searching_next {s s' : Search} (hs : Searching k filename PATH v s)
    (h : searchBody k filename PATH v s = .next s') : Searching k filename PATH v s' := by
  obtain ⟨hmore, hfailed, rfl⟩ := searchBody_next h
  refine ⟨?_, ?_, ?_, ?_, ?_, numbered_after hs⟩
  · exact tried_after hs hmore
  · intro a ha
    refine ⟨made_after hs ha, ?_⟩
    rcases List.mem_append.mp ha with ha | ha
    · exact (hs.made a ha).2
    · rw [List.mem_singleton.mp ha]
      exact hfailed
  · have hacces := hs.fndEACCES
    simp only [Search.after, Bool.or_eq_true, decide_eq_true_eq, hacces, List.mem_append,
      List.mem_singleton, or_and_right, exists_or, exists_eq_left]
  · intro _
    exact ⟨_, List.getLast?_concat, rfl⟩
  · intro hnoexec
    change s.calls + (s.attempt k filename PATH v).calls = _
    rw [calls_attempt hnoexec, hs.calls hnoexec, Search.after, List.length_append,
      List.length_singleton]

theorem searching_done {s : Search} {r : Run} (hs : Searching k filename PATH v s)
    (h : searchBody k filename PATH v s = .done r) : Ended k filename PATH v r := by
  rw [searchBody_eq] at h
  split at h
  · rename_i hnone
    rw [Bool.not_eq_true'] at hnone
    rw [Iter.done.injEq] at h
    subst h
    have htried := hs.tried
    rw [Search.left, hnone] at htried
    simp only [Bool.false_eq_true, if_false, List.append_nil] at htried
    obtain ⟨last, hlast, hsaved⟩ := hs.savedErrno hnone
    refine ⟨rfl, ?_, fun a ha => (hs.made a ha).1, hs.numbered, .inr ⟨htried,
      fun a ha => (hs.made a ha).2, last, hlast, ?_⟩⟩
    · exact htried ▸ List.prefix_refl _
    · simp only [hs.fndEACCES, hsaved]
  rename_i hmore
  rw [Bool.not_eq_true', Bool.not_eq_false] at hmore
  split at h
  · rename_i hreplaced
    rw [Iter.done.injEq] at h
    subst h
    exact ⟨rfl, ⟨_, tried_after hs hmore⟩, fun a ha => made_after hs ha, numbered_after hs,
      .inl ⟨rfl, _, _, rfl, fun a ha => (hs.made a ha).2, hreplaced⟩⟩
  · exact nomatch h

/-- **The search comes to its end.** -/
theorem search_spec (k : Kernel) (filename PATH : List UInt8) (v : Argv) :
    ∃ r, exec (searchBody k filename PATH v) (Search.rest PATH) ⟨0, true, false, none, [], 0⟩
      = some r ∧ Ended k filename PATH v r := by
  have hstart : Searching k filename PATH v ⟨0, true, false, none, [], 0⟩ := by
    refine ⟨rfl, ?_, ?_, ?_, fun _ => rfl, ?_⟩
    · intro a ha
      exact nomatch ha
    · simp
    · intro h
      exact nomatch h
    · intro _ n a ha
      exact nomatch ha
  exact exec_rule (fun _ _ => rest_searchBody) (fun _ _ => searching_next)
    (fun _ _ => searching_done) (fun s _ => searchBody_ne_blocked s) hstart

end

theorem pathnames_eq (PATH : Option CStr) (filename : CStr) :
    ((searchPath PATH).splitOn 58).map (pathnameIn filename.val) = pathnames PATH filename := by
  unfold pathnames directories searchPath
  cases PATH with
  | none => rfl
  | some p =>
    simp only [List.length_eq_zero_iff]
    split
    · rename_i hnil
      rw [hnil]
      rfl
    · rw [List.map_map]
      rfl

/-- The vector is the caller's arguments and a `NULL`. -/
theorem holds_argv {args : List CStr} {v : Argv} (h : Collected args v) :
    Holds v.argv (args.map (fun arg => some arg.val) ++ [none]) := by
  intro i s hs
  have hi : i ≤ args.length := by
    have hlt := (List.getElem?_eq_some_iff.mp hs).1
    rw [List.length_append, List.length_map, List.length_singleton] at hlt
    omega
  rw [h.argv i hi]
  by_cases hlt : i < args.length
  · rw [List.getElem?_append_left (by rwa [List.length_map]), List.getElem?_map,
      List.getElem?_eq_getElem hlt, Option.map_some, Option.some.injEq] at hs
    rw [List.getElem?_eq_getElem hlt, ← hs]
    rfl
  · have hend : i = args.length := Nat.le_antisymm hi (Nat.le_of_not_lt hlt)
    rw [hend, List.getElem?_append_right (by rw [List.length_map]), List.length_map,
      Nat.sub_self] at hs
    rw [hend, List.getElem?_eq_none (Nat.le_refl _)]
    exact Option.some.inj hs

/-! ## 8. What `execlp()` does -/

/-- A call that fails with another error than `ENOEXEC` has only that to fail. -/
theorem replaced_of_ne {k : Kernel} {v : Argv} {calls : ℕ} {pathname : Buffer}
    (h : k.outcome calls ≠ some .ENOEXEC) :
    (attempt k v calls pathname).replaced = true ↔ (attempt k v calls pathname).errno = none := by
  have hshell : (attempt k v calls pathname).shell = none := if_neg h
  rw [Attempt.replaced, hshell]
  simp

/-- What the calls come to, where none needs the shell. -/
theorem errno_made {k : Kernel} {filename : List UInt8} {v : Argv} (hnoexec : NoExec k) {a : Attempt}
    (h : Made k filename v a) : a.replaced = true ↔ a.errno = none := by
  obtain ⟨calls, pre, rfl⟩ := h
  exact replaced_of_ne (hnoexec calls)

theorem errno_ne_none {k : Kernel} {filename : List UInt8} {v : Argv} (hnoexec : NoExec k)
    {a : Attempt} (h : Made k filename v a) (hfailed : a.replaced = false) : a.errno ≠ none := by
  intro hnone
  rw [(errno_made hnoexec h).mpr hnone] at hfailed
  exact nomatch hfailed

/-- Behind a call that has succeeded there is no other. -/
theorem goesOn_of_ended {k : Kernel} {filename PATH : List UInt8} {v : Argv} {r : Run}
    (hend : Ended k filename PATH v r) (hnoexec : NoExec k) {n : ℕ}
    (hn : n + 1 < r.attempts.length) : k.outcome n ≠ none := by
  obtain ⟨a, hget⟩ : ∃ a, r.attempts[n]? = some a :=
    ⟨_, List.getElem?_eq_getElem (Nat.lt_of_succ_lt hn)⟩
  have hmem : a ∈ r.attempts := List.mem_of_getElem? hget
  rw [← hend.numbered hnoexec n a hget]
  apply errno_ne_none hnoexec (hend.made a hmem)
  rcases hend.how with ⟨-, earlier, last, happend, hfailed, -⟩ | ⟨-, hfailed, -⟩
  · have hearlier : n < earlier.length := by
      rw [happend, List.length_append, List.length_singleton] at hn
      omega
    apply hfailed
    rw [happend, List.getElem?_append_left hearlier] at hget
    exact List.mem_of_getElem? hget
  · exact hfailed a hmem

/-- The call does not return if and only if the last call of `execve()` has succeeded. -/
theorem success_of_ended {k : Kernel} {filename PATH : List UInt8} {v : Argv} {r : Run}
    (hend : Ended k filename PATH v r) (hnoexec : NoExec k) :
    r.ret = none ↔ ∃ last ∈ r.attempts.getLast?, last.errno = none := by
  rcases hend.how with ⟨hret, earlier, last, happend, -, hreplaced⟩ | ⟨-, hfailed, last, hlast, hret⟩
  · have hlast : r.attempts.getLast? = some last := by
      rw [happend, List.getLast?_concat]
    have hmade := hend.made last (List.mem_of_getLast? hlast)
    exact ⟨fun _ => ⟨last, hlast, (errno_made hnoexec hmade).mp hreplaced⟩, fun _ => hret⟩
  · have hmem := List.mem_of_getLast? hlast
    have hne := errno_ne_none hnoexec (hend.made last hmem) (hfailed last hmem)
    constructor
    · intro hnone
      rw [hret] at hnone
      split at hnone
      · exact nomatch hnone
      · exact absurd hnone hne
    · rintro ⟨last', hlast', hnone⟩
      rw [Option.mem_def.mp hlast, Option.mem_def, Option.some.injEq] at hlast'
      exact absurd (hlast' ▸ hnone) hne

/-- **A file is searched for in the directories of `PATH`.** -/
theorem execlp_searches (k : Kernel) (PATH : Option CStr) (filename : CStr) (args : List CStr)
    (hslash : 47 ∉ filename.val) (hnoexec : ∀ n, k.outcome n ≠ some .ENOEXEC) :
    ∃ r, execlp k PATH filename args = some r ∧ Searched k PATH filename args r := by
  obtain ⟨v, hv, hcollected⟩ := collect_spec k.memory args
  obtain ⟨r, hr, hend⟩ := search_spec k filename.val (searchPath PATH) v
  refine ⟨r, ?_, ?_⟩
  · rw [execlp, hv, Option.bind_eq_bind, Option.bind_some, if_neg hslash, hr]
  have hpaths := pathnames_eq PATH filename
  refine ⟨?_, hend.numbered hnoexec, fun n => goesOn_of_ended hend hnoexec,
    success_of_ended hend hnoexec, ?_, ?_, ?_, ?_, ?_⟩
  · exact hpaths ▸ hend.tried
  · intro hret
    -- a search that was ended by a success does not return
    rcases hend.how with ⟨hnone, -⟩ | ⟨hall, -⟩
    · exact absurd hnone hret
    · rw [hall, hpaths]
  · intro a ha
    obtain ⟨calls, pre, rfl⟩ := hend.made a ha
    exact (buildPathname_spec _ _).2
  · rw [hend.vector]
    exact hcollected.uses
  · intro a ha
    obtain ⟨calls, pre, rfl⟩ := hend.made a ha
    have hroom := hcollected.room
    rw [hcollected.argc] at hroom
    exact ⟨Nat.lt_of_succ_lt hroom, holds_argv hcollected⟩
  · intro hfailed
    rcases hend.how with ⟨-, earlier, last, happend, -, hreplaced⟩ | ⟨-, -, hlast⟩
    · have hmem : last ∈ r.attempts := happend ▸ List.mem_concat_self
      exact absurd ((errno_made hnoexec (hend.made last hmem)).mp hreplaced) (hfailed last hmem)
    · exact hlast

/-- `EACCES` comes before the error of the last call: `x` is looked for in `a`, `.` and `b`. -/
theorem execlp_searches_a_b :
    ∃ r, execlp ⟨fun _ => none, fun _ => none, fun n => if n = 1 then some .EACCES else some (.other 2)⟩
        (some ⟨[97, 58, 58, 98], by decide⟩) ⟨[120], by decide⟩ [⟨[120], by decide⟩] = some r ∧
      Searched ⟨fun _ => none, fun _ => none, fun n => if n = 1 then some .EACCES else some (.other 2)⟩
        (some ⟨[97, 58, 58, 98], by decide⟩) ⟨[120], by decide⟩ [⟨[120], by decide⟩] r := by
  apply execlp_searches
  · decide
  · intro n
    by_cases h : n = 1
    · simp [h]
    · simp [h]

/-! ## 9. What the shell is given -/

/-- The last element of `argv` that `execShScript()` copies is stored behind the end of its vector:
`argc` counts the `NULL` already. -/
theorem execShScript_overrun (memory : Strings) (v : Argv) (errno : Option Errno) :
    ⟨v.argc + 1, v.argc + 1⟩ ∈ (execShScript memory v errno).uses := by
  apply List.mem_cons_of_mem
  apply List.mem_flatMap.mpr
  exact ⟨v.argc, List.mem_range.mpr (Nat.lt_succ_self _),
    List.mem_cons_of_mem _ (List.mem_singleton_self _)⟩

/-- The elements up to `n` are copied, one place further on. -/
theorem foldl_shift (argv shArgv : Strings) (n i : ℕ) :
    (List.range n).foldl (fun shArgv j => Function.update shArgv (j + 1) (argv j)) shArgv i =
      if 1 ≤ i ∧ i ≤ n then argv (i - 1) else shArgv i := by
  induction n with
  | zero => rw [if_neg (by omega)]; rfl
  | succ n ih =>
    rw [List.range_succ, List.foldl_append, List.foldl_cons, List.foldl_nil]
    by_cases heq : i = n + 1
    · rw [heq, Function.update_self, if_pos (by omega), Nat.add_sub_cancel]
    · rw [Function.update_of_ne heq, ih]
      by_cases hin : 1 ≤ i ∧ i ≤ n
      · rw [if_pos hin, if_pos (by omega)]
      · rw [if_neg hin, if_neg (by omega)]

/-- The shell is given the arguments as they are: the first one stands where the pathname should. -/
theorem holds_shArgv {args : List CStr} {v : Argv} (h : Collected args v) (memory : Strings)
    (errno : Option Errno) : Holds (execShScript memory v errno).shArgv
      (some SHELL_PATH.val :: (args.map (fun arg => some arg.val) ++ [none])) := by
  intro i s hs
  cases i with
  | zero =>
    rw [execShScript]
    simp only [foldl_shift]
    rw [if_neg (by omega), Function.update_self]
    exact Option.some.inj hs
  | succ i =>
    rw [List.getElem?_cons_succ] at hs
    have hlt := (List.getElem?_eq_some_iff.mp hs).1
    rw [List.length_append, List.length_map, List.length_singleton, ← h.argc] at hlt
    rw [execShScript]
    simp only [foldl_shift]
    rw [if_pos (by omega), Nat.add_sub_cancel]
    exact holds_argv h i s hs

/-- Every call of a run is made with the vector that was collected. -/
theorem attempts_execlp {k : Kernel} {PATH : Option CStr} {filename : CStr} {args : List CStr}
    {r : Run} (h : execlp k PATH filename args = some r) {a : Attempt} (ha : a ∈ r.attempts) :
    ∃ v calls pathname, Collected args v ∧ a = attempt k v calls pathname := by
  obtain ⟨v, hv, hcollected⟩ := collect_spec k.memory args
  rw [execlp, hv, Option.bind_eq_bind, Option.bind_some] at h
  split at h
  · injection h with h
    subst h
    exact ⟨v, 0, _, hcollected, List.mem_singleton.mp ha⟩
  · obtain ⟨r', hr', hend⟩ := search_spec k filename.val (searchPath PATH) v
    rw [hr', Option.some.injEq] at h
    subst h
    obtain ⟨calls, pre, hmade⟩ := hend.made a ha
    exact ⟨v, calls, _, hcollected, hmade⟩

theorem not_fallsBack (k : Kernel) (v : Argv) (calls : ℕ) (pathname : Buffer) (args : List CStr) :
    ¬FallsBack args (attempt k v calls pathname) := by
  rintro ⟨sh, hsh, hgiven⟩
  rw [attempt] at hsh
  simp only at hsh
  split at hsh
  · rw [← Option.some.inj hsh] at hgiven
    exact absurd (hgiven.uses _ (execShScript_overrun _ _ _)) (Nat.lt_irrefl _)
  · exact nomatch hsh

/-- **No file is rightly given to the shell**: wherever `execve()` fails with `ENOEXEC`, the shell is
called, and an element is stored behind the end of its vector. -/
theorem shell_never (k : Kernel) (PATH : Option CStr) (filename : CStr) (args : List CStr) {r : Run}
    (h : execlp k PATH filename args = some r) {a : Attempt} (ha : a ∈ r.attempts)
    (hnoexec : a.errno = some .ENOEXEC) : a.shell.isSome = true ∧ ¬FallsBack args a := by
  obtain ⟨v, calls, pathname, -, rfl⟩ := attempts_execlp h ha
  have hshell : (attempt k v calls pathname).shell =
      some (execShScript k.shMemory v (k.outcome (calls + 1))) := if_pos hnoexec
  exact ⟨by rw [hshell]; rfl, not_fallsBack k v calls pathname args⟩

/-- A call of `execlp()` makes a call of `execve()`. -/
theorem exists_attempt (k : Kernel) (PATH : Option CStr) (filename : CStr) (args : List CStr) :
    ∃ r a, execlp k PATH filename args = some r ∧ a ∈ r.attempts := by
  obtain ⟨v, hv, -⟩ := collect_spec k.memory args
  rw [execlp, hv, Option.bind_eq_bind, Option.bind_some]
  split
  · exact ⟨_, _, rfl, List.mem_singleton_self _⟩
  · obtain ⟨r, hr, hend⟩ := search_spec k filename.val (searchPath PATH) v
    rcases hend.how with ⟨-, earlier, last, happend, -⟩ | ⟨-, -, last, hlast, -⟩
    · exact ⟨r, last, hr, happend ▸ List.mem_concat_self⟩
    · exact ⟨r, last, hr, List.mem_of_getLast? hlast⟩

/-- The script `x` with the argument `y`, where `execve()` always fails with `ENOEXEC`. -/
def script : Option Run :=
  execlp ⟨fun _ => none, fun _ => none, fun _ => some .ENOEXEC⟩ none ⟨[120], by decide⟩
    [⟨[120], by decide⟩, ⟨[121], by decide⟩]

theorem exists_attempt_script :
    ∃ r a, script = some r ∧ a ∈ r.attempts ∧ a.errno = some .ENOEXEC := by
  obtain ⟨r, a, hr, ha⟩ := exists_attempt _ _ _ _
  obtain ⟨v, calls, pathname, -, rfl⟩ := attempts_execlp hr ha
  exact ⟨r, _, hr, ha, rfl⟩

theorem shell_never_script : ∃ r a, script = some r ∧ a ∈ r.attempts ∧ a.errno = some .ENOEXEC ∧
    ¬FallsBack [⟨[120], by decide⟩, ⟨[121], by decide⟩] a := by
  obtain ⟨r, a, hr, ha, herrno⟩ := exists_attempt_script
  exact ⟨r, a, hr, ha, herrno, (shell_never _ _ _ _ hr ha herrno).2⟩

/-- The shell gets `/bin/sh`, `x`, `y` and a `NULL`, with `x` for the pathname `./x`, and the vector
of four elements is also written to at 4. -/
theorem script_overruns :
    (∃ r a, script = some r ∧ a ∈ r.attempts ∧ a.errno = some .ENOEXEC ∧
      ¬FallsBack [⟨[120], by decide⟩, ⟨[121], by decide⟩] a) ∧
    (script.map fun r => r.attempts.map fun a => a.shell.map fun sh =>
        (a.pathname.str, (List.range 4).map fun i => (sh.shArgv i).map Subtype.val,
          sh.uses.filter fun use => use.size ≤ use.index)) =
      some [some ([46, 47, 120], [some SHELL_PATH.val, some [120], some [121], none], [⟨4, 4⟩])] := by
  refine ⟨?_, rfl⟩
  obtain ⟨r, a, hr, ha, herrno⟩ := exists_attempt_script
  obtain ⟨v, calls, pathname, -, rfl⟩ := attempts_execlp hr ha
  exact ⟨r, _, hr, ha, herrno, not_fallsBack _ _ _ _ _⟩

end Tlpi.Execlp
