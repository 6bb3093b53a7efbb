/-
`threads/name_tsd.c`: `dirname_tsd()` and `basename_tsd()`.

Both copy the path into a buffer of the thread, cut off its trailing slashes there, and look for the
last slash that is left. `basename_tsd()` returns what stands behind it. `dirname_tsd()` returns what
stands in front of it as it is: the slashes with which that ends are not cut off, so that the
directory of `a//b` is `a/`.

A path is a string of its own here, and not the buffer that an earlier call has returned. What is
left out: how the key of the buffer is made.
-/
import Mathlib.Data.List.DropRight
import Tlpi.CString
import Tlpi.Loop

set_option autoImplicit false

namespace Tlpi.NameTsd

open Tlpi.CString Tlpi.Loop

/-! ## 1. The buffer -/

abbrev MAX_PATH : ℕ := 4096

/-- The thread's buffer. -/
abbrev Buf := {buf : List UInt8 // buf.length = MAX_PATH}

/-- The buffer of the thread, or a new one from `calloc()`. -/
def getspecific (buf : Option Buf) : Buf :=
  buf.getD ⟨List.replicate MAX_PATH 0, List.length_replicate⟩

def Buf.set (buf : Buf) (i : ℕ) (b : UInt8) : Buf :=
  ⟨buf.val.set i b, List.length_set.trans buf.property⟩

/-- `snprintf()` of one character. -/
def Buf.put (buf : Buf) (c : UInt8) : Buf := (buf.set 0 c).set 1 0

/-- `strncpy(buf, path, MAX_PATH - 1)` and a null byte behind it. -/
def Buf.copy (path : List UInt8) : Buf :=
  ⟨path.take (MAX_PATH - 1) ++ List.replicate (MAX_PATH - 1 - path.length) 0 ++ [0], by
    rw [List.length_append, List.length_append, List.length_take, List.length_replicate,
      List.length_singleton]
    have hmax : MAX_PATH = 4096 := rfl
    omega⟩

/-! ## 2. The functions -/

/-- The pointer and the buffer. -/
structure Locals where
  c : ℕ
  buf : Buf

/-- `while (strlen(buf) > 1 && *--c == '/') *c = '\0';` -/
def stripBody (s : Locals) : Iter Locals Buf :=
  if strlen s.buf.val > 1 then
    match s.c with
    -- a pointer to what is in front of the buffer
    | 0 => .blocked
    | c + 1 => if s.buf.val[c]? = some 47 then .next ⟨c, s.buf.set c 0⟩ else .done s.buf
  else .done s.buf

/-- Trailing slashes are cut off. -/
def stripSlashes (buf : Buf) : Option Buf := exec stripBody Locals.c ⟨strlen buf.val, buf⟩

/-- The buffer, and the offset in it to which the pointer that is returned points. -/
structure Ret where
  buf : Buf
  ptr : ℕ

/-- The string that is returned. -/
def Ret.str (r : Ret) : List UInt8 := CString.str (r.buf.val.drop r.ptr)

/-- What the two functions begin with: a path without a name, or the buffer without trailing slashes,
for which `rest` is done. -/
def nameTsd (rest : Buf → Ret) (path : Option CStr) (buf : Option Buf) : Option Ret :=
  match path with
  | none => some ⟨(getspecific buf).put 46, 0⟩
  | some path =>
    if path.val.length = 0 then some ⟨(getspecific buf).put 46, 0⟩
    else if str (Buf.copy path.val).val = [47] then some ⟨(Buf.copy path.val).put 47, 0⟩
    else (stripSlashes (Buf.copy path.val)).map rest

/-- The last slash is made the end of the string. -/
def dirRest (buf : Buf) : Ret :=
  match strrchr buf.val 47 with
  | none => ⟨buf.put 46, 0⟩
  | some c => if (buf.set c 0).val[0]? = some 0 then ⟨(buf.set c 0).put 47, 0⟩ else ⟨buf.set c 0, 0⟩

def dirname_tsd : Option CStr → Option Buf → Option Ret := nameTsd dirRest

/-- The string begins behind the last slash. -/
def baseRest (buf : Buf) : Ret :=
  match strrchr buf.val 47 with
  | none => ⟨buf, 0⟩
  | some c => if strlen buf.val = 1 then ⟨buf, 0⟩ else ⟨buf.set c 0, c + 1⟩

def basename_tsd : Option CStr → Option Buf → Option Ret := nameTsd baseRest

/-! ## 3. What they are for -/

/-- A path without its trailing slashes. -/
def stripped (path : List UInt8) : List UInt8 := path.rdropWhile (· = 47)

/-- `basename()`: the part behind the last slash. -/
def basename (path : Option (List UInt8)) : List UInt8 :=
  match path with
  | none | some [] => [46]
  | some path => if stripped path = [] then [47] else (stripped path).rtakeWhile (· ≠ 47)

/-- `dirname()`: the part in front of the last slash, without its trailing slashes. -/
def dirname (path : Option (List UInt8)) : List UInt8 :=
  match path with
  | none | some [] => [46]
  | some path =>
    if stripped path = [] then [47]
    else if 47 ∉ stripped path then [46]
    else
      let dir := stripped ((stripped path).rdropWhile (· ≠ 47)).dropLast
      if dir = [] then [47] else dir

/-- The names on the way. -/
def names (path : List UInt8) : List (List UInt8) :=
  (path.splitOn 47).filter fun name => name ≠ [] ∧ name ≠ [46]

/-- What a path leads to: whether it begins at the root, and the names on the way. -/
def named (path : List UInt8) : Bool × List (List UInt8) := (path.head? = some 47, names path)

/-- A path that fits into the buffer. -/
abbrev Path := {path : CStr // path.val.length < MAX_PATH}

def Ret.cstr (r : Ret) : CStr := ⟨r.str, zero_notMem_str _⟩

/-- `dirname_tsd()`, applied `n` times. -/
def repeated : ℕ → Option CStr → Option Buf → Option (List UInt8)
  | 0, path, _ => path.map Subtype.val
  | n + 1, path, buf =>
    (dirname_tsd path buf).bind fun r => repeated n (some r.cstr) (some r.buf)

/-- What the two functions promise for a path, whatever is in the buffers. -/
structure NamesRight (path : Option Path) : Prop where
  dirname : ∀ buf, (dirname_tsd (path.map Subtype.val) buf).map Ret.str =
    some (dirname (path.map fun p => p.val.val))
  basename : ∀ buf, (basename_tsd (path.map Subtype.val) buf).map Ret.str =
    some (basename (path.map fun p => p.val.val))
  /-- The two names lead to where the path does. -/
  joined : ∀ p, path = some p → p.val.val ≠ [] → ∀ buf buf', ∃ dir base,
    (dirname_tsd (some p.val) buf).map Ret.str = some dir ∧
    (basename_tsd (some p.val) buf').map Ret.str = some base ∧
    named (dir ++ 47 :: base) = named p.val.val
  repeated : ∀ buf, ∃ n, repeated n (path.map Subtype.val) buf = some [46] ∨
    repeated n (path.map Subtype.val) buf = some [47]

/-- The last name in a path has more than one slash in front of it, and there is more than `//`. -/
def Doubled (path : List UInt8) : Prop :=
  ∃ dir name k, path = dir ++ 47 :: (name ++ List.replicate k 47) ∧ name ≠ [] ∧ 47 ∉ name ∧
    dir.getLast? = some 47 ∧ dir ≠ [47]

/-! ## 4. The trailing slashes -/

theorem stripBody_next {s s' : Locals} (h : stripBody s = .next s') : 1 < strlen s.buf.val ∧
    s.c = s'.c + 1 ∧ s.buf.val[s'.c]? = some 47 ∧ s'.buf = s.buf.set s'.c 0 := by
  unfold stripBody at h
  split at h
  · rename_i hlen
    split at h
    · exact nomatch h
    · rename_i c hc
      split at h
      · rename_i hslash
        rw [Iter.next.injEq] at h
        subst h
        exact ⟨hlen, hc, hslash, rfl⟩
      · exact nomatch h
  · exact nomatch h

/-- The loop is left at a character that is no slash, or with one character. -/
theorem stripBody_done {s : Locals} {buf : Buf} (h : stripBody s = .done buf) : buf = s.buf ∧
    (strlen s.buf.val ≤ 1 ∨ ∃ c, s.c = c + 1 ∧ s.buf.val[c]? ≠ some 47) := by
  unfold stripBody at h
  split at h
  · split at h
    · exact nomatch h
    rename_i c hc
    split at h
    · exact nomatch h
    rename_i hslash
    rw [Iter.done.injEq] at h
    exact ⟨h.symm, .inr ⟨c, hc, hslash⟩⟩
  · rename_i hshort
    rw [Iter.done.injEq] at h
    exact ⟨h.symm, .inl (Nat.le_of_not_lt hshort)⟩

/-- The pointer is at the end of the string, which is the path with some of its trailing slashes. -/
structure Stripping (q : List UInt8) (s : Locals) : Prop where
  c : s.c = strlen s.buf.val
  str : ∃ j, str s.buf.val = q ++ List.replicate j 47 ∧ (q = [] → 1 ≤ j)

section

variable {q : List UInt8} (hq : q.getLast? ≠ some 47)

include hq in
theorem stripping_next {s s' : Locals} (hs : Stripping q s) (h : stripBody s = .next s') :
    Stripping q s' := by
  obtain ⟨hlen, hc, hslash, hbuf⟩ := stripBody_next h
  obtain ⟨j, hstr, -⟩ := hs.str
  have hend : strlen s.buf.val = s'.c + 1 := by rw [← hs.c, hc]
  have hcut : CString.str s'.buf.val = (CString.str s.buf.val).take s'.c := by
    rw [hbuf]
    exact str_set _ _
  cases j with
  | zero =>
    -- the last character is one of `q`, and no slash
    rw [List.replicate_zero, List.append_nil] at hstr
    rw [getElem?_strlen hend, hstr] at hslash
    exact absurd hslash hq
  | succ j =>
    rw [List.replicate_succ', ← List.append_assoc] at hstr
    have hlen' : s'.c = (q ++ List.replicate j 47).length := by
      rw [strlen, hstr, List.length_append, List.length_singleton] at hend
      omega
    rw [hstr, hlen', List.take_left] at hcut
    refine ⟨?_, j, hcut, ?_⟩
    · rw [strlen, hcut, hlen']
    · rintro rfl
      rw [List.nil_append, List.length_replicate] at hlen'
      omega

theorem stripping_done {s : Locals} {buf : Buf} (hs : Stripping q s)
    (h : stripBody s = .done buf) : CString.str buf.val = if q = [] then [47] else q := by
  obtain ⟨j, hstr, hj⟩ := hs.str
  have hlen : strlen s.buf.val = q.length + j := by
    rw [strlen, hstr, List.length_append, List.length_replicate]
  obtain ⟨rfl, hshort | ⟨c, hc, hslash⟩⟩ := stripBody_done h
  · by_cases hnil : q = []
    · have hone : j = 1 := by
        have hpos := hj hnil
        omega
      rw [if_pos hnil, hstr, hnil, hone]
      rfl
    · have hzero : j = 0 := by
        have hpos := List.length_pos_iff.mpr hnil
        omega
      rw [if_neg hnil, hstr, hzero, List.replicate_zero, List.append_nil]
  · rw [getElem?_strlen (hs.c.symm.trans hc), hstr] at hslash
    cases j with
    | zero =>
      have hne : q ≠ [] := fun hnil => absurd (hj hnil) (by decide)
      rw [if_neg hne, hstr, List.replicate_zero, List.append_nil]
    | succ j =>
      rw [List.replicate_succ', ← List.append_assoc, List.getLast?_concat] at hslash
      exact absurd rfl hslash

include hq in
/-- **The loop leaves the path without its trailing slashes**, or one slash. -/
theorem stripSlashes_spec {buf : Buf} {j : ℕ}
    (hstr : CString.str buf.val = q ++ List.replicate j 47) (hj : q = [] → 1 ≤ j) :
    ∃ buf', stripSlashes buf = some buf' ∧ CString.str buf'.val = if q = [] then [47] else q := by
  have hstart : Stripping q ⟨strlen buf.val, buf⟩ := ⟨rfl, j, hstr, hj⟩
  have hdec : ∀ s s', stripBody s = .next s' → s'.c < s.c := by
    intro s s' h
    rw [(stripBody_next h).2.1]
    exact Nat.lt_succ_self _
  have hwaits : ∀ s, Stripping q s → stripBody s ≠ .blocked := by
    intro s hs
    have hc := hs.c
    unfold stripBody
    split
    · split
      · omega
      · split <;> exact fun h => nomatch h
    · exact fun h => nomatch h
  exact exec_rule hdec (fun _ _ => stripping_next hq) (fun _ _ => stripping_done) hwaits hstart

end

/-! ## 5. What is in the buffer -/

theorem str_put (buf : Buf) {c : UInt8} (hc : c ≠ 0) : str (buf.put c).val = [c] := by
  obtain ⟨bytes, hlen⟩ := buf
  match bytes, hlen with
  | _ :: _ :: rest, _ => exact str_append (s := [c]) (by simpa using hc.symm) rest

/-- A path that fits is copied as it is. -/
theorem str_copy (path : Path) : str (Buf.copy path.val.val).val = path.val.val := by
  obtain ⟨⟨path, hzero⟩, hlen⟩ := path
  have hle : path.length ≤ MAX_PATH - 1 := Nat.le_sub_one_of_lt hlen
  have hbytes : (Buf.copy path).val =
      path ++ 0 :: List.replicate (MAX_PATH - 1 - path.length) 0 := by
    rw [Buf.copy]
    simp only [List.take_of_length_le hle, List.append_assoc, ← List.replicate_succ',
      List.replicate_succ]
  rw [hbytes]
  exact str_append hzero _

theorem getLast?_stripped (path : List UInt8) : (stripped path).getLast? ≠ some 47 := by
  intro h
  have hne : stripped path ≠ [] := by
    intro hnil
    rw [hnil] at h
    exact nomatch h
  have hlast := List.rdropWhile_last_not (fun b : UInt8 => decide (b = 47)) path hne
  rw [List.getLast?_eq_some_getLast hne, Option.some.injEq] at h
  exact hlast (decide_eq_true h)

/-- What is cut off are slashes. -/
theorem exists_replicate (path : List UInt8) :
    ∃ k, path = stripped path ++ List.replicate k 47 := by
  refine ⟨(path.rtakeWhile (· = 47)).length, ?_⟩
  have hall : path.rtakeWhile (· = 47) = List.replicate (path.rtakeWhile (· = 47)).length 47 := by
    rw [List.eq_replicate_iff]
    refine ⟨rfl, fun b hb => ?_⟩
    have hslash := List.mem_rtakeWhile_imp hb
    rwa [decide_eq_true_eq] at hslash
  rw [← hall]
  exact (List.rdropWhile_append_rtakeWhile ..).symm

theorem stripped_append_replicate {q : List UInt8} (hq : q.getLast? ≠ some 47) (k : ℕ) :
    stripped (q ++ List.replicate k 47) = q := by
  induction k with
  | zero =>
    rw [List.replicate_zero, List.append_nil, stripped, List.rdropWhile_eq_self_iff]
    intro hne hslash
    rw [List.getLast?_eq_some_getLast hne] at hq
    exact hq (congrArg some (of_decide_eq_true hslash))
  | succ k ih =>
    rw [List.replicate_succ', ← List.append_assoc, stripped, List.rdropWhile_concat_pos _ _ _ rfl]
    exact ih

theorem ne_nil_of_eq {path front name : List UInt8} (h : path = front ++ 47 :: name) :
    path ≠ [] := by
  rw [h]
  exact List.append_ne_nil_of_right_ne_nil _ (List.cons_ne_nil _ _)

/-- What the path is when its trailing slashes are cut off. -/
theorem shape (path : List UInt8) : stripped path = [] ∨
    (stripped path ≠ [] ∧ 47 ∉ stripped path) ∨
    ∃ dir name, stripped path = dir ++ 47 :: name ∧ name ≠ [] ∧ 47 ∉ name := by
  by_cases hnil : stripped path = []
  · exact .inl hnil
  by_cases hslash : 47 ∈ stripped path
  · right; right
    -- the last slash is the first one from behind
    obtain ⟨name, dir, hsplit, hname⟩ := List.eq_append_cons_of_mem (List.mem_reverse.mpr hslash)
    have heq : stripped path = dir.reverse ++ 47 :: name.reverse := by
      rw [← List.reverse_reverse (stripped path), hsplit, List.reverse_append, List.reverse_cons,
        List.append_assoc]
      rfl
    refine ⟨dir.reverse, name.reverse, heq, ?_, fun h => hname (List.mem_reverse.mp h)⟩
    intro hempty
    apply getLast?_stripped path
    rw [heq, hempty, List.getLast?_concat]
  · exact .inr (.inl ⟨hnil, hslash⟩)

/-! ## 6. What is returned -/

theorem str_dirRest_none {buf : Buf} (h : 47 ∉ str buf.val) : (dirRest buf).str = [46] := by
  rw [dirRest, strrchr_eq_none h]
  exact str_put buf (by decide)

theorem str_dirRest {buf : Buf} {dir name : List UInt8} (h : str buf.val = dir ++ 47 :: name)
    (hname : 47 ∉ name) : (dirRest buf).str = if dir = [] then [47] else dir := by
  have hcut : str (buf.set dir.length 0).val = dir := by
    rw [Buf.set, str_set, h, List.take_left]
  rw [dirRest, strrchr_eq_some h hname]
  by_cases hdir : dir = []
  · have hzero : (buf.set dir.length 0).val[0]? = some 0 := by
      rw [hdir]
      exact List.getElem?_set_self (by rw [buf.property]; decide)
    simp only [hzero, if_true, if_pos hdir]
    exact str_put _ (by decide)
  · have hpos := List.length_pos_iff.mpr hdir
    have hnonzero : (buf.set dir.length 0).val[0]? ≠ some 0 := by
      intro hzero
      rw [getElem?_str (by rw [strlen, hcut]; exact hpos)] at hzero
      exact zero_notMem_str _ (List.mem_of_getElem? hzero)
    simp only [if_neg hnonzero, if_neg hdir]
    exact hcut

theorem str_baseRest_none {buf : Buf} (h : 47 ∉ str buf.val) : (baseRest buf).str = str buf.val := by
  rw [baseRest, strrchr_eq_none h]
  rfl

theorem str_baseRest_slash {buf : Buf} (h : str buf.val = [47]) : (baseRest buf).str = [47] := by
  have hlen : strlen buf.val = 1 := by rw [strlen, h]; rfl
  rw [baseRest, strrchr_eq_some (s := []) h (by decide)]
  simp only [hlen, if_true]
  exact h

theorem str_baseRest {buf : Buf} {dir name : List UInt8} (h : str buf.val = dir ++ 47 :: name)
    (hname : 47 ∉ name) (hne : name ≠ []) : (baseRest buf).str = name := by
  have hlen : strlen buf.val = dir.length + (name.length + 1) := by
    rw [strlen, h, List.length_append, List.length_cons]
  have hpos := List.length_pos_iff.mpr hne
  rw [baseRest, strrchr_eq_some h hname]
  simp only [if_neg (show ¬strlen buf.val = 1 by omega)]
  have hbehind : (buf.set dir.length 0).val.drop (dir.length + 1) = buf.val.drop (dir.length + 1) :=
    List.drop_set_of_lt (Nat.lt_succ_self _)
  rw [Ret.str]
  simp only [hbehind]
  rw [str_drop (by omega), h, ← List.drop_drop, List.drop_left]
  rfl

/-- The trailing slashes are cut off before the rest is done. -/
theorem nameTsd_str {rest : Buf → Ret}
    (hroot : ∀ buf : Buf, str buf.val = [47] → (rest buf).str = [47]) {path : Path}
    (hne : path.val.val ≠ []) (buf : Option Buf) : ∃ buf' : Buf,
      str buf'.val = (if stripped path.val.val = [] then [47] else stripped path.val.val) ∧
      (nameTsd rest (some path.val) buf).map Ret.str = some (rest buf').str := by
  have hlen : ¬path.val.val.length = 0 := by rwa [List.length_eq_zero_iff]
  have hcopy := str_copy path
  unfold nameTsd
  simp only [if_neg hlen, hcopy]
  by_cases hslash : path.val.val = [47]
  · -- the path is `/`, which is returned at once
    refine ⟨Buf.copy path.val.val, ?_, ?_⟩
    · rw [hcopy, hslash]
      rfl
    · rw [if_pos hslash, hroot _ (hcopy.trans hslash)]
      exact congrArg some (str_put _ (by decide))
  · rw [if_neg hslash]
    obtain ⟨k, hk⟩ := exists_replicate path.val.val
    have hpos : stripped path.val.val = [] → 1 ≤ k := by
      intro hnil
      rw [hnil, List.nil_append] at hk
      by_contra hzero
      rw [Nat.lt_one_iff.mp (Nat.lt_of_not_le hzero)] at hk
      exact hne hk
    obtain ⟨buf', hbuf', hresult⟩ := stripSlashes_spec (getLast?_stripped _) (hcopy.trans hk) hpos
    exact ⟨buf', hresult, by rw [hbuf']; rfl⟩

/-- What the two functions return for a path, by its shape. -/
theorem tsd_cases {path : Path} (hne : path.val.val ≠ []) (buf buf₂ : Option Buf) :
    ∃ dir base, (dirname_tsd (some path.val) buf).map Ret.str = some dir ∧
      (basename_tsd (some path.val) buf₂).map Ret.str = some base ∧
      ((stripped path.val.val = [] ∧ dir = [47] ∧ base = [47]) ∨
        (stripped path.val.val ≠ [] ∧ 47 ∉ stripped path.val.val ∧ dir = [46] ∧
          base = stripped path.val.val) ∨
        ∃ front, stripped path.val.val = front ++ 47 :: base ∧ base ≠ [] ∧ 47 ∉ base ∧
          dir = if front = [] then [47] else front) := by
  obtain ⟨dbuf, hdstr, hdir⟩ := nameTsd_str
    (fun buf h => @str_dirRest buf [] [] h (by decide)) hne buf
  obtain ⟨bbuf, hbstr, hbase⟩ := nameTsd_str (fun buf h => @str_baseRest_slash buf h) hne buf₂
  refine ⟨_, _, hdir, hbase, ?_⟩
  rcases shape path.val.val with hnil | ⟨hq, hslash⟩ | ⟨front, name, hq, hname, hslash⟩
  · rw [if_pos hnil] at hdstr hbstr
    exact .inl ⟨hnil, @str_dirRest dbuf [] [] hdstr (by decide), str_baseRest_slash hbstr⟩
  · rw [if_neg hq] at hdstr hbstr
    refine .inr (.inl ⟨hq, hslash, str_dirRest_none (hdstr ▸ hslash), ?_⟩)
    rw [str_baseRest_none (hbstr ▸ hslash), hbstr]
  · rw [if_neg (ne_nil_of_eq hq), hq] at hdstr hbstr
    rw [str_baseRest hbstr hslash hname]
    exact .inr (.inr ⟨front, hq, hname, hslash, str_dirRest hdstr hslash⟩)

/-! ## 7. What should be returned -/

section

variable {path : List UInt8}

theorem basename_some (hne : path ≠ []) : basename (some path) =
    if stripped path = [] then [47] else (stripped path).rtakeWhile (· ≠ 47) := by
  cases path with
  | nil => exact absurd rfl hne
  | cons b path => rfl

theorem dirname_some (hne : path ≠ []) : dirname (some path) =
    if stripped path = [] then [47]
    else if 47 ∉ stripped path then [46]
    else if stripped ((stripped path).rdropWhile (· ≠ 47)).dropLast = [] then [47]
    else stripped ((stripped path).rdropWhile (· ≠ 47)).dropLast := by
  cases path with
  | nil => exact absurd rfl hne
  | cons b path => rfl

end

/-- What stands behind the last occurrence of a character. -/
theorem rtakeWhile_append_cons (front : List UInt8) {name : List UInt8} (h : 47 ∉ name) :
    (front ++ 47 :: name).rtakeWhile (· ≠ 47) = name := by
  have hsplit : (front ++ 47 :: name).rdropWhile (· ≠ 47) ++
      (front ++ 47 :: name).rtakeWhile (· ≠ 47) = front ++ 47 :: name :=
    List.rdropWhile_append_rtakeWhile
  rw [rdropWhile_append_cons front h, List.append_assoc] at hsplit
  exact (List.cons.inj (List.append_cancel_left hsplit)).2

theorem dirname_of_front {path front name : List UInt8} (hne : path ≠ [])
    (h : stripped path = front ++ 47 :: name) (hname : 47 ∉ name) :
    dirname (some path) = if stripped front = [] then [47] else stripped front := by
  have hslash : ¬47 ∉ stripped path := by
    rw [h, not_not]
    exact List.mem_append_right _ List.mem_cons_self
  rw [dirname_some hne, if_neg (ne_nil_of_eq h), if_neg hslash, h,
    rdropWhile_append_cons front hname, List.dropLast_concat]

/-- `basename_tsd()` returns what it should. -/
theorem basename_tsd_eq {path : Path} (hne : path.val.val ≠ []) (buf : Option Buf) :
    (basename_tsd (some path.val) buf).map Ret.str = some (basename (some path.val.val)) := by
  obtain ⟨dir, base, -, hbase, hcases⟩ := tsd_cases hne none buf
  rw [hbase, basename_some hne]
  rcases hcases with ⟨hnil, -, rfl⟩ | ⟨hq, hslash, -, rfl⟩ | ⟨front, hq, -, hslash, -⟩
  · rw [if_pos hnil]
  · have hall : (stripped path.val.val).rtakeWhile (· ≠ 47) = stripped path.val.val := by
      rw [List.rtakeWhile_eq_self_iff]
      intro b hb
      rw [decide_eq_true_eq]
      rintro rfl
      exact hslash hb
    rw [if_neg hq, hall]
  · rw [if_neg (ne_nil_of_eq hq), hq, rtakeWhile_append_cons front hslash]

/-- The directory in front of the last name is right, unless it has slashes at its end. -/
theorem front_eq_iff (front : List UInt8) :
    ((if front = [] then [47] else front) = if stripped front = [] then [47] else stripped front) ↔
      ¬(front.getLast? = some 47 ∧ front ≠ [47]) := by
  constructor
  · rintro heq ⟨hlast, hroot⟩
    have hne : front ≠ [] := by
      rintro rfl
      exact nomatch hlast
    -- `front` is not empty, so it is returned as it is
    rw [if_neg hne] at heq
    split at heq
    · exact hroot heq
    · exact getLast?_stripped front (heq ▸ hlast)
  · intro hend
    by_cases hlast : front.getLast? = some 47
    · have hroot : front = [47] := by
        by_contra hne
        exact hend ⟨hlast, hne⟩
      rw [hroot]
      rfl
    · have hsame : stripped front = front := by
        have := stripped_append_replicate hlast 0
        rwa [List.replicate_zero, List.append_nil] at this
      rw [hsame]

theorem front_unique {front front' name name' : List UInt8}
    (h : front ++ 47 :: name = front' ++ 47 :: name') (hname : 47 ∉ name) (hname' : 47 ∉ name') :
    front = front' := by
  have hupTo := congrArg (List.rdropWhile fun b : UInt8 => decide (b ≠ 47)) h
  rw [rdropWhile_append_cons front hname, rdropWhile_append_cons front' hname'] at hupTo
  exact List.append_cancel_right hupTo

theorem doubled_iff (path : List UInt8) : Doubled path ↔
    ∃ front name, stripped path = front ++ 47 :: name ∧ name ≠ [] ∧ 47 ∉ name ∧
      front.getLast? = some 47 ∧ front ≠ [47] := by
  constructor
  · rintro ⟨front, name, k, rfl, hne, hname, hlast, hroot⟩
    refine ⟨front, name, ?_, hne, hname, hlast, hroot⟩
    have hend : (front ++ 47 :: name).getLast? ≠ some 47 := by
      rw [List.getLast?_append_of_ne_nil _ (List.cons_ne_nil _ _), List.getLast?_cons_of_ne_nil hne]
      intro h
      exact hname (List.mem_of_getLast? h)
    rw [← List.cons_append, ← List.append_assoc, stripped_append_replicate hend]
  · rintro ⟨front, name, hq, hne, hname, hlast, hroot⟩
    obtain ⟨k, hk⟩ := exists_replicate path
    refine ⟨front, name, k, ?_, hne, hname, hlast, hroot⟩
    rw [hq, List.append_assoc, List.cons_append] at hk
    exact hk

/-- The directory is wrong if the last name has more than one slash in front of it. -/
theorem dirname_tsd_eq_iff {path : Path} (hne : path.val.val ≠ []) (buf : Option Buf) :
    (dirname_tsd (some path.val) buf).map Ret.str = some (dirname (some path.val.val)) ↔
      ¬Doubled path.val.val := by
  obtain ⟨dir, base, hdir, -, hcases⟩ := tsd_cases hne buf none
  rw [hdir, Option.some.injEq, doubled_iff]
  rcases hcases with ⟨hnil, rfl, -⟩ | ⟨hq, hslash, rfl, -⟩ | ⟨front, hq, hbase, hslash, rfl⟩
  · rw [dirname_some hne, if_pos hnil, hnil]
    simp
  · rw [dirname_some hne, if_neg hq, if_pos hslash]
    refine iff_of_true rfl ?_
    rintro ⟨front, name, hsplit, -⟩
    rw [hsplit] at hslash
    exact hslash (List.mem_append_right _ List.mem_cons_self)
  · rw [dirname_of_front hne hq hslash, front_eq_iff, hq]
    refine not_congr ⟨fun hend => ⟨front, base, rfl, hbase, hslash, hend⟩, ?_⟩
    rintro ⟨front', name', hsplit, -, hname', hend⟩
    rw [front_unique hsplit hslash hname']
    exact hend

/-! ## 8. Where the names lead -/

theorem names_append (front back : List UInt8) :
    names (front ++ 47 :: back) = names front ++ names back := by
  rw [names, List.splitOn_append_cons_self, List.filter_append, ← names, ← names]

theorem names_replicate (k : ℕ) : names (List.replicate k 47) = [] := by
  induction k with
  | zero => rfl
  | succ k ih =>
    have hcons := names_append [] (List.replicate k 47)
    rw [List.replicate_succ, ← List.nil_append (47 :: List.replicate k 47), hcons, ih]
    rfl

/-- Trailing slashes lead nowhere else. -/
theorem named_stripped {path : List UInt8} (h : stripped path ≠ []) :
    named path = named (stripped path) := by
  obtain ⟨k, hk⟩ := exists_replicate path
  have hnames : names (stripped path ++ List.replicate k 47) = names (stripped path) := by
    cases k with
    | zero => rw [List.replicate_zero, List.append_nil]
    | succ k => rw [List.replicate_succ, names_append, names_replicate, List.append_nil]
  have hhead : (stripped path ++ List.replicate k 47).head? = (stripped path).head? :=
    List.head?_append_of_ne_nil _ h
  conv_lhs => rw [hk, named, hnames, hhead]
  rfl

theorem named_slashes {path : List UInt8} (hne : path ≠ []) (h : stripped path = []) :
    named path = (true, []) := by
  obtain ⟨k, hk⟩ := exists_replicate path
  rw [h, List.nil_append] at hk
  cases k with
  | zero => exact absurd hk hne
  | succ k =>
    rw [hk, named, names_replicate]
    rfl

/-- **Directory and name lead to where the path does.** -/
theorem named_joined {path : Path} (hne : path.val.val ≠ []) (buf buf' : Option Buf) :
    ∃ dir base, (dirname_tsd (some path.val) buf).map Ret.str = some dir ∧
      (basename_tsd (some path.val) buf').map Ret.str = some base ∧
      named (dir ++ 47 :: base) = named path.val.val := by
  obtain ⟨dir, base, hdir, hbase, hcases⟩ := tsd_cases hne buf buf'
  refine ⟨dir, base, hdir, hbase, ?_⟩
  -- slashes only, a name only, or a directory and a name
  rcases hcases with ⟨hnil, rfl, rfl⟩ | ⟨hq, hslash, rfl, rfl⟩ | ⟨front, hq, hname, -, rfl⟩
  · rw [named_slashes hne hnil]
    rfl
  · -- `.` is no name, and the name does not begin with a slash
    have hhead : (stripped path.val.val).head? ≠ some 47 := by
      intro h
      exact hslash (List.mem_of_head? h)
    rw [named_stripped hq, named, named, names_append, decide_eq_false hhead]
    rfl
  · rw [named_stripped (ne_nil_of_eq hq), hq]
    split
    · rename_i hfront
      subst hfront
      rw [named, named, names_append, names_append]
      rfl
    · rfl

/-! ## 9. Directories of directories -/

/-- The directory of a path that is longer than its own is shorter than the path. -/
theorem dirname_tsd_shorter {path : Path} (hne : path.val.val ≠ []) (buf : Option Buf) :
    ∃ r, dirname_tsd (some path.val) buf = some r ∧
      (r.str = [46] ∨ r.str = [47] ∨ (r.str ≠ [] ∧ r.str.length < path.val.val.length)) := by
  obtain ⟨dir, base, hdir, -, hcases⟩ := tsd_cases hne buf none
  obtain ⟨r, hr, rfl⟩ := Option.map_eq_some_iff.mp hdir
  refine ⟨r, hr, ?_⟩
  rcases hcases with ⟨-, hroot, -⟩ | ⟨-, -, hdot, -⟩ | ⟨front, hq, -, -, hfront⟩
  · exact .inr (.inl hroot)
  · exact .inl hdot
  · split at hfront
    · exact .inr (.inl hfront)
    · rename_i hne'
      have hlen : (stripped path.val.val).length ≤ path.val.val.length :=
        (List.rdropWhile_prefix ..).length_le
      rw [hq, List.length_append, List.length_cons] at hlen
      rw [hfront]
      exact .inr (.inr ⟨hne', by omega⟩)

theorem repeated_reaches (n : ℕ) : ∀ (path : Path) (buf : Option Buf), path.val.val ≠ [] →
    path.val.val.length ≤ n → ∃ m, repeated m (some path.val) buf = some [46] ∨
      repeated m (some path.val) buf = some [47] := by
  induction n with
  | zero =>
    intro path buf hne hlen
    exact absurd (List.length_eq_zero_iff.mp (Nat.le_zero.mp hlen)) hne
  | succ n ih =>
    intro path buf hne hlen
    obtain ⟨r, hr, hcases⟩ := dirname_tsd_shorter hne buf
    have hstep : ∀ m, repeated (m + 1) (some path.val) buf = repeated m (some r.cstr) (some r.buf) := by
      intro m
      rw [repeated, hr, Option.bind_some]
    rcases hcases with hdot | hroot | ⟨hne', hshorter⟩
    · exact ⟨1, .inl ((hstep 0).trans (congrArg some hdot))⟩
    · exact ⟨1, .inr ((hstep 0).trans (congrArg some hroot))⟩
    · obtain ⟨m, hm⟩ := ih ⟨r.cstr, hshorter.trans path.property⟩ (some r.buf) hne'
        (Nat.le_of_lt_succ (hshorter.trans_le hlen))
      exact ⟨m + 1, by rw [hstep]; exact hm⟩

/-! ## 10. The two functions -/

/-- There is no path, or an empty one. -/
theorem namesRight_empty {path : Option Path} (h : ∀ p, path = some p → p.val.val = []) :
    NamesRight path := by
  have hempty : ∀ rest buf, nameTsd rest (path.map Subtype.val) buf =
      some ⟨(getspecific buf).put 46, 0⟩ := by
    intro rest buf
    cases path with
    | none => rfl
    | some p => exact if_pos (List.length_eq_zero_iff.mpr (h p rfl))
  have hdot : ∀ buf, Ret.str ⟨(getspecific buf).put 46, 0⟩ = [46] := by
    intro buf
    exact str_put _ (by decide)
  have hpath : path.map (fun p => p.val.val) = none ∨ path.map (fun p => p.val.val) = some [] := by
    cases path with
    | none => exact .inl rfl
    | some p => exact .inr (congrArg some (h p rfl))
  refine ⟨?_, ?_, ?_, ?_⟩
  · intro buf
    rw [dirname_tsd, hempty, Option.map_some, hdot]
    rcases hpath with hpath | hpath <;> rw [hpath] <;> rfl
  · intro buf
    rw [basename_tsd, hempty, Option.map_some, hdot]
    rcases hpath with hpath | hpath <;> rw [hpath] <;> rfl
  · intro p hp hne
    exact absurd (h p hp) hne
  · intro buf
    refine ⟨1, .inl ?_⟩
    rw [repeated, dirname_tsd, hempty, Option.bind_some]
    exact congrArg some (hdot buf)

/-- **The two functions do what they promise, unless the last name of the path has more than one
slash in front of it.** -/
theorem namesRight_iff (path : Option Path) :
    NamesRight path ↔ ∀ p, path = some p → ¬Doubled p.val.val := by
  constructor
  · rintro h p rfl hdoubled
    have hne : p.val.val ≠ [] := by
      obtain ⟨front, name, k, hpath, -⟩ := hdoubled
      exact ne_nil_of_eq hpath
    exact (dirname_tsd_eq_iff hne none).mp (h.dirname none) hdoubled
  · intro h
    by_cases hempty : ∀ p, path = some p → p.val.val = []
    · exact namesRight_empty hempty
    · push Not at hempty
      obtain ⟨p, rfl, hne⟩ := hempty
      refine ⟨?_, ?_, ?_, ?_⟩
      · intro buf
        exact (dirname_tsd_eq_iff hne buf).mpr (h p rfl)
      · intro buf
        exact basename_tsd_eq hne buf
      · rintro p' hp' - buf buf'
        rw [← Option.some.inj hp']
        exact named_joined hne buf buf'
      · intro buf
        exact repeated_reaches _ p buf hne (Nat.le_refl _)

/-- The directory of `a//b` is `a/`, and should be `a`. -/
theorem dirname_tsd_doubled : ¬NamesRight (some ⟨⟨[97, 47, 47, 98], by decide⟩, by decide⟩) ∧
    dirname (some [97, 47, 47, 98]) = [97] ∧
    (dirname_tsd (some ⟨[97, 47, 47, 98], by decide⟩) none).map Ret.str = some [97, 47] := by
  have hdir : dirname (some [97, 47, 47, 98]) = [97] := by decide
  have hcut : (dirname_tsd (some ⟨[97, 47, 47, 98], by decide⟩) none).map Ret.str = some [97, 47] := rfl
  refine ⟨?_, hdir, hcut⟩
  intro h
  have hright := h.dirname none
  rw [Option.map_some, Option.map_some, hcut, hdir] at hright
  exact absurd hright (by decide)

end Tlpi.NameTsd
