/-
`proc/setenv.c`: `unsetenv()` and `setenv()`, built on `environ`, `getenv()` and `putenv()`.

The environment is the list of strings in front of the `NULL` with which `environ` ends; a string may
be anything, and a name may be defined more than once. `unsetenv()` deletes while it scans: the
entries behind a deleted one are moved under the cursor, which then stays where it is.

`setenv()` first deletes and only then asks for memory, so that a call that fails may leave the name
undefined. Whether `malloc()` and `putenv()` succeed is given.
-/
import Mathlib.Data.List.Perm.Basic
import Tlpi.CString
import Tlpi.Loop

set_option autoImplicit false

namespace Tlpi.Setenv

open Tlpi.CString Tlpi.Loop

/-! ## 1. The functions -/

/-- `strncmp(s, t, n) == 0`, of two strings. -/
def strncmpEq (s t : List UInt8) (n : ℕ) : Bool := s.take n = t.take n

/-- `strncmp(*ep, name, len) == 0 && (*ep)[len] == '='` -/
def defines (name : List UInt8) (e : CStr) : Bool :=
  strncmpEq e.val name name.length && e.val[name.length]? = some 61

/-- An element of `environ` is assigned to: a `NULL` ends it there. -/
def assign (environ : List CStr) (i : ℕ) (e : Option CStr) : List CStr :=
  match e with
  | some e => environ.set i e
  | none => environ.take i

/-- A pointer into `environ`, and `environ`. -/
structure Cursor where
  p : ℕ
  environ : List CStr

/-- How many entries lie in front of the pointer. -/
def Cursor.rest (c : Cursor) : ℕ := c.environ.length - c.p

def shiftBody (c : Cursor) : Iter Cursor (List CStr) :=
  if c.environ[c.p]? = none then .done c.environ
  else .next ⟨c.p + 1, assign c.environ c.p c.environ[c.p + 1]?⟩

/-- The entries behind `ep` are moved back by one. -/
def shift (ep : ℕ) (environ : List CStr) : Option (List CStr) :=
  exec shiftBody Cursor.rest ⟨ep, environ⟩

def unsetBody (name : List UInt8) (c : Cursor) : Iter Cursor (List CStr) :=
  match c.environ[c.p]? with
  | none => .done c.environ
  | some e =>
    if defines name e then
      match shift c.p c.environ with
      | none => .blocked
      | some environ => .next ⟨c.p, environ⟩
    else .next ⟨c.p + 1, c.environ⟩

inductive Errno where
  | EINVAL
  | ENOMEM
deriving Repr, DecidableEq

/-- What a function returns, `error` for -1, and the environment that it leaves. -/
structure Ret where
  ret : Except Errno Unit
  environ : List CStr

/-- `name[0] != '\0' && strchr(name, '=') == NULL` -/
def validName (name : List UInt8) : Bool := name ≠ [] ∧ 61 ∉ name

def unsetenv (name : Option CStr) (environ : List CStr) : Option Ret :=
  match name with
  | none => some ⟨.error .EINVAL, environ⟩
  | some name =>
    if !validName name.val then some ⟨.error .EINVAL, environ⟩
    else (exec (unsetBody name.val) Cursor.rest ⟨0, environ⟩).map fun environ => ⟨.ok (), environ⟩

/-- The value in the first definition. -/
def getenv (name : List UInt8) (environ : List CStr) : Option (List UInt8) :=
  (environ.find? (defines name)).map fun e => e.val.drop (name.length + 1)

/-- The first definition of the name is replaced, or a new one added behind the last entry. -/
def putenv (es : CStr) (environ : List CStr) : List CStr :=
  match environ.findIdx? (defines (es.val.takeWhile (· ≠ 61))) with
  | some i => environ.set i es
  | none => environ ++ [es]

/-- `es`: name, `=` and value. -/
def entry (name value : CStr) : CStr :=
  ⟨name.val ++ 61 :: value.val, by
    rw [List.mem_append, List.mem_cons]
    rintro (h | h | h)
    · exact name.property h
    · exact absurd h (by decide)
    · exact value.property h⟩

/-- Whether `malloc()` and `putenv()` succeed. -/
structure Outcome where
  malloc : Bool
  putenv : Bool
deriving Repr, DecidableEq

def setenv (out : Outcome) (name value : Option CStr) (overwrite : BitVec 32)
    (environ : List CStr) : Option Ret :=
  match name, value with
  | some name, some value =>
    if !validName name.val then some ⟨.error .EINVAL, environ⟩
    else if getenv name.val environ ≠ none ∧ overwrite = 0 then some ⟨.ok (), environ⟩
    else do
      let r ← unsetenv (some name) environ
      if !out.malloc then return ⟨.error .ENOMEM, r.environ⟩
      else if !out.putenv then return ⟨.error .ENOMEM, r.environ⟩
      else return ⟨.ok (), Setenv.putenv (entry name value) r.environ⟩
  | _, _ => some ⟨.error .EINVAL, environ⟩

/-! ## 2. The entries are moved -/

theorem shiftBody_next {c c' : Cursor} (h : shiftBody c = .next c') : c.p < c.environ.length ∧
    c' = ⟨c.p + 1, assign c.environ c.p c.environ[c.p + 1]?⟩ := by
  unfold shiftBody at h
  split at h
  · exact nomatch h
  rename_i hsome
  rw [List.getElem?_eq_none_iff, Nat.not_le] at hsome
  rw [Iter.next.injEq] at h
  exact ⟨hsome, h.symm⟩

theorem shiftBody_ne_blocked (c : Cursor) : shiftBody c ≠ .blocked := by
  unfold shiftBody
  split <;> exact fun h => nomatch h

theorem rest_shiftBody {c c' : Cursor} (h : shiftBody c = .next c') : c'.rest < c.rest := by
  obtain ⟨hlt, rfl⟩ := shiftBody_next h
  unfold Cursor.rest assign
  split
  · simp only [List.length_set]
    omega
  · simp only [List.length_take]
    omega

/-- The entry behind is moved, and then its old place is to be deleted. -/
theorem set_eraseIdx (l : List CStr) {i : ℕ} {e : CStr} (h : l[i + 1]? = some e) :
    (l.set i e).eraseIdx (i + 1) = l.eraseIdx i := by
  induction l generalizing i with
  | nil => exact nomatch h
  | cons a l ih =>
    rw [List.getElem?_cons_succ] at h
    cases i with
    | zero =>
      cases l with
      | nil => exact nomatch h
      | cons b l =>
        rw [List.getElem?_cons_zero, Option.some.injEq] at h
        rw [h]
        rfl
    | succ i => rw [List.set_cons_succ, List.eraseIdx_cons_succ, ih h, List.eraseIdx_cons_succ]

theorem eraseIdx_shiftBody {c c' : Cursor} (h : shiftBody c = .next c') :
    c'.environ.eraseIdx c'.p = c.environ.eraseIdx c.p := by
  obtain ⟨hlt, rfl⟩ := shiftBody_next h
  unfold assign
  split
  · rename_i e he
    exact set_eraseIdx _ he
  · rename_i hnone
    rw [List.getElem?_eq_none_iff] at hnone
    have hlast : c.p + 1 = c.environ.length := Nat.le_antisymm hlt hnone
    have hlen : (c.environ.take c.p).length ≤ c.p + 1 := by
      rw [List.length_take]
      omega
    rw [List.eraseIdx_of_length_le hlen, List.eraseIdx_eq_dropLast hlast, List.dropLast_eq_take,
      ← hlast, Nat.add_sub_cancel]

/-- The entry at `ep` is deleted. -/
theorem shift_eq (ep : ℕ) (environ : List CStr) : shift ep environ = some (environ.eraseIdx ep) := by
  obtain ⟨r, hr, rfl⟩ : ∃ r, shift ep environ = some r ∧ r = environ.eraseIdx ep := by
    refine exec_rule (I := fun c : Cursor => c.environ.eraseIdx c.p = environ.eraseIdx ep)
      (fun _ _ => rest_shiftBody) ?_ ?_ (fun c _ => shiftBody_ne_blocked c) rfl
    · intro c c' hc hb
      rw [eraseIdx_shiftBody hb, hc]
    · intro c r hc hb
      unfold shiftBody at hb
      split at hb
      · rename_i hnone
        rw [Iter.done.injEq] at hb
        rw [← hb, ← hc, List.eraseIdx_of_length_le (List.getElem?_eq_none_iff.mp hnone)]
      · exact nomatch hb
  exact hr

/-! ## 3. The definitions of a name are deleted -/

/-- The entries that do not define the name. -/
def others (name : List UInt8) (environ : List CStr) : List CStr :=
  environ.filter fun e => !defines name e

theorem unsetBody_next {name : List UInt8} {c c' : Cursor} (h : unsetBody name c = .next c') :
    ∃ e, c.environ[c.p]? = some e ∧
      ((defines name e = true ∧ c' = ⟨c.p, c.environ.eraseIdx c.p⟩) ∨
        (defines name e = false ∧ c' = ⟨c.p + 1, c.environ⟩)) := by
  unfold unsetBody at h
  split at h
  · exact nomatch h
  rename_i e he
  rw [shift_eq] at h
  split at h
  · rename_i hdef
    rw [Iter.next.injEq] at h
    exact ⟨e, he, .inl ⟨hdef, h.symm⟩⟩
  · rename_i hdef
    rw [Iter.next.injEq] at h
    exact ⟨e, he, .inr ⟨Bool.not_eq_true _ ▸ hdef, h.symm⟩⟩

theorem unsetBody_ne_blocked (name : List UInt8) (c : Cursor) : unsetBody name c ≠ .blocked := by
  unfold unsetBody
  split
  · exact fun h => nomatch h
  rw [shift_eq]
  split <;> exact fun h => nomatch h

theorem rest_unsetBody {name : List UInt8} {c c' : Cursor} (h : unsetBody name c = .next c') :
    c'.rest < c.rest := by
  obtain ⟨e, he, hcases⟩ := unsetBody_next h
  have hlt := (List.getElem?_eq_some_iff.mp he).1
  unfold Cursor.rest
  rcases hcases with ⟨-, rfl⟩ | ⟨-, rfl⟩
  · simp only [List.length_eraseIdx_of_lt hlt]
    omega
  · simp only
    omega

/-- The entries in front of the cursor are those that stay, and nothing but definitions of the name
has been deleted. -/
structure Scanning (name : List UInt8) (environ : List CStr) (c : Cursor) : Prop where
  le : c.p ≤ c.environ.length
  passed : ∀ e ∈ c.environ.take c.p, defines name e = false
  others : others name c.environ = others name environ

theorem scanning_next {name : List UInt8} {environ : List CStr} {c c' : Cursor}
    (hc : Scanning name environ c) (h : unsetBody name c = .next c') :
    Scanning name environ c' := by
  obtain ⟨e, he, hcases⟩ := unsetBody_next h
  obtain ⟨hlt, heq⟩ := List.getElem?_eq_some_iff.mp he
  -- an entry is deleted and the cursor stays, or the cursor moves on
  rcases hcases with ⟨hdef, rfl⟩ | ⟨hdef, rfl⟩
  · have herase := List.eraseIdx_eq_take_drop_succ c.environ c.p
    refine ⟨?_, ?_, ?_⟩
    · simp only [List.length_eraseIdx_of_lt hlt]
      omega
    · intro e' he'
      have htake : (c.environ.take c.p).length = c.p := List.length_take_of_le hc.le
      rw [herase, List.take_append_of_le_length (Nat.le_of_eq htake.symm), List.take_take,
        Nat.min_self] at he'
      exact hc.passed e' he'
    · have hsplit : c.environ = c.environ.take c.p ++ e :: c.environ.drop (c.p + 1) := by
        rw [← heq, ← List.drop_eq_getElem_cons hlt, List.take_append_drop]
      calc others name (c.environ.eraseIdx c.p)
          = others name (c.environ.take c.p ++ e :: c.environ.drop (c.p + 1)) := by
            rw [herase, others, others, List.filter_append, List.filter_append,
              List.filter_cons_of_neg (by simp [hdef])]
        _ = others name environ := by rw [← hsplit, hc.others]
  · refine ⟨hlt, ?_, hc.others⟩
    intro e' he'
    simp only [List.take_succ_eq_append_getElem hlt, List.mem_append, List.mem_singleton] at he'
    rcases he' with he' | rfl
    · exact hc.passed e' he'
    · rw [heq]
      exact hdef

theorem scanning_done {name : List UInt8} {environ : List CStr} {c : Cursor} {r : List CStr}
    (hc : Scanning name environ c) (h : unsetBody name c = .done r) : r = others name environ := by
  unfold unsetBody at h
  split at h
  · rename_i hnone
    rw [Iter.done.injEq] at h
    rw [List.getElem?_eq_none_iff] at hnone
    -- the cursor is at the end, so that all entries stay
    have hpassed := hc.passed
    rw [List.take_of_length_le hnone] at hpassed
    rw [← h, ← hc.others, others]
    symm
    apply List.filter_eq_self.mpr
    intro e he
    rw [hpassed e he]
    rfl
  · rw [shift_eq] at h
    split at h <;> exact nomatch h

/-- **`unsetenv()` leaves the entries that do not define the name**, in their order. -/
theorem unsetBody_spec (name : List UInt8) (environ : List CStr) :
    exec (unsetBody name) Cursor.rest ⟨0, environ⟩ = some (others name environ) := by
  have hstart : Scanning name environ ⟨0, environ⟩ := by
    refine ⟨Nat.zero_le _, ?_, rfl⟩
    intro e he
    exact nomatch he
  obtain ⟨r, hr, rfl⟩ := exec_rule (fun _ _ => rest_unsetBody) (fun _ _ => scanning_next)
    (fun _ _ => scanning_done) (fun c _ => unsetBody_ne_blocked name c) hstart
  exact hr

/-! ## 4. Names and definitions -/

/-- A name that `setenv()` and `unsetenv()` accept. -/
structure Name where
  str : CStr
  valid : validName str.val = true

theorem Name.not_mem (name : Name) : 61 ∉ name.str.val := (of_decide_eq_true name.valid).2

theorem defines_iff (name : List UInt8) (e : CStr) :
    defines name e = true ↔ ∃ value, e.val = name ++ 61 :: value := by
  rw [defines, strncmpEq, Bool.and_eq_true, decide_eq_true_eq, decide_eq_true_eq, List.take_length]
  constructor
  · rintro ⟨htake, heq⟩
    obtain ⟨hlt, hchar⟩ := List.getElem?_eq_some_iff.mp heq
    refine ⟨e.val.drop (name.length + 1), ?_⟩
    conv_lhs => rw [← List.take_append_drop name.length e.val]
    rw [htake, List.drop_eq_getElem_cons hlt, hchar]
  · rintro ⟨value, he⟩
    rw [he, List.take_left, List.getElem?_append_right (Nat.le_refl _), Nat.sub_self]
    exact ⟨rfl, rfl⟩

/-- An entry defines one name only. -/
theorem defines_unique {name name' : Name} {e : CStr} (h : defines name.str.val e = true)
    (h' : defines name'.str.val e = true) : name.str = name'.str := by
  obtain ⟨value, he⟩ := (defines_iff _ _).mp h
  obtain ⟨value', he'⟩ := (defines_iff _ _).mp h'
  apply Subtype.ext
  rw [← takeWhile_append_cons name.not_mem value, ← takeWhile_append_cons name'.not_mem value',
    ← he, ← he']

theorem defines_entry (name : CStr) (value : CStr) : defines name.val (entry name value) = true :=
  (defines_iff _ _).mpr ⟨value.val, rfl⟩

theorem getenv_eq_none_iff (name : List UInt8) (environ : List CStr) :
    getenv name environ = none ↔ environ.any (defines name) = false := by
  rw [getenv, Option.map_eq_none_iff, List.find?_eq_none, List.any_eq_false]

theorem any_others (name : List UInt8) (environ : List CStr) :
    (others name environ).any (defines name) = false := by
  rw [List.any_eq_false]
  intro e he
  have hnot := (List.mem_filter.mp he).2
  simpa using hnot

theorem others_eq_self {name : List UInt8} {environ : List CStr}
    (h : environ.any (defines name) = false) : others name environ = environ := by
  apply List.filter_eq_self.mpr
  intro e he
  rw [List.any_eq_false] at h
  simpa using h e he

/-- `putenv()` appends, if the name is not defined. -/
theorem putenv_entry (name : Name) (value : CStr) {environ : List CStr}
    (h : environ.any (defines name.str.val) = false) :
    putenv (entry name.str value) environ = environ ++ [entry name.str value] := by
  have hname : (entry name.str value).val.takeWhile (· ≠ 61) = name.str.val :=
    takeWhile_append_cons name.not_mem value.val
  have hnone : environ.findIdx? (defines name.str.val) = none := by
    rw [List.findIdx?_eq_none_iff]
    intro e he
    rw [List.any_eq_false] at h
    simpa using h e he
  rw [putenv, hname, hnone]

theorem unsetenv_eq (name : Name) (environ : List CStr) :
    unsetenv (some name.str) environ = some ⟨.ok (), others name.str.val environ⟩ := by
  rw [unsetenv]
  simp only [name.valid, Bool.not_true, Bool.false_eq_true, if_false, unsetBody_spec,
    Option.map_some]

/-- **What `setenv()` does** with a valid name and a value. -/
theorem setenv_eq (out : Outcome) (name : Name) (value : CStr) (overwrite : BitVec 32)
    (environ : List CStr) : setenv out (some name.str) (some value) overwrite environ = some (
      if environ.any (defines name.str.val) = true ∧ overwrite = 0 then ⟨.ok (), environ⟩
      else if out.malloc && out.putenv then
        ⟨.ok (), others name.str.val environ ++ [entry name.str value]⟩
      else ⟨.error .ENOMEM, others name.str.val environ⟩) := by
  have hdefined : getenv name.str.val environ ≠ none ↔ environ.any (defines name.str.val) = true := by
    rw [ne_eq, getenv_eq_none_iff, Bool.not_eq_false]
  unfold setenv
  simp only [name.valid, Bool.not_true, Bool.false_eq_true, if_false, hdefined, unsetenv_eq,
    Option.bind_eq_bind, Option.bind_some, putenv_entry name value (any_others _ _)]
  split
  · rfl
  · cases out.malloc <;> cases out.putenv <;> rfl

/-! ## 5. The laws -/

/-- A call with a valid name, in which memory is to be had. -/
inductive Op where
  | unset (name : Name)
  | set (name : Name) (value : CStr) (overwrite : BitVec 32)

def Op.name : Op → Name
  | .unset name | .set name _ _ => name

def Op.run : Op → List CStr → Option Ret
  | .unset name, environ => unsetenv (some name.str) environ
  | .set name value overwrite, environ =>
    setenv ⟨true, true⟩ (some name.str) (some value) overwrite environ

/-- The environment is as it was. -/
def Op.keeps : Op → List CStr → Prop
  | .unset _, _ => False
  | .set name _ overwrite, environ => environ.any (defines name.str.val) = true ∧ overwrite = 0

instance (op : Op) (environ : List CStr) : Decidable (op.keeps environ) :=
  match op with
  | .unset _ => inferInstanceAs (Decidable False)
  | .set _ _ _ => inferInstanceAs (Decidable (_ ∧ _))

/-- The entry that is added. -/
def Op.added : Op → List CStr
  | .unset _ => []
  | .set name value _ => [entry name.str value]

/-- The environment after a call. -/
def Op.effect (op : Op) (environ : List CStr) : List CStr :=
  if op.keeps environ then environ else others op.name.str.val environ ++ op.added

theorem run_eq (op : Op) (environ : List CStr) :
    op.run environ = some ⟨.ok (), op.effect environ⟩ := by
  cases op with
  | unset name =>
    have heffect : (Op.unset name).effect environ = others name.str.val environ ++ [] :=
      if_neg fun h => h
    rw [Op.run, unsetenv_eq, heffect, List.append_nil]
  | set name value overwrite =>
    rw [Op.run, setenv_eq]
    by_cases hkeeps : environ.any (defines name.str.val) = true ∧ overwrite = 0
    · have heffect : (Op.set name value overwrite).effect environ = environ := if_pos hkeeps
      rw [if_pos hkeeps, heffect]
    · have heffect : (Op.set name value overwrite).effect environ =
          others name.str.val environ ++ [entry name.str value] := if_neg hkeeps
      rw [if_neg hkeeps, heffect]
      rfl

/-- What a call adds defines no other name. -/
theorem defines_added {op : Op} {name : Name} (h : op.name.str ≠ name.str) {e : CStr}
    (he : e ∈ op.added) : defines name.str.val e = false := by
  cases op with
  | unset _ => exact nomatch he
  | set name' value overwrite =>
    by_contra hdef
    rw [Bool.not_eq_false, List.mem_singleton.mp he] at hdef
    exact h (defines_unique (defines_entry _ value) hdef)

/-- A call leaves the definitions of another name alone. -/
theorem filter_effect {op : Op} {name : Name} (h : op.name.str ≠ name.str) (environ : List CStr) :
    (op.effect environ).filter (defines name.str.val) = environ.filter (defines name.str.val) := by
  unfold Op.effect
  split
  · rfl
  have hadded : op.added.filter (defines name.str.val) = [] := by
    rw [List.filter_eq_nil_iff]
    intro e he
    rw [defines_added h he]
    exact Bool.false_ne_true
  rw [List.filter_append, hadded, List.append_nil, others, List.filter_filter]
  apply List.filter_congr
  intro e _
  cases hdef : defines name.str.val e with
  | false => rfl
  | true =>
    have hother : defines op.name.str.val e = false := by
      by_contra hboth
      rw [Bool.not_eq_false] at hboth
      exact h (defines_unique hboth hdef)
    rw [hother]
    rfl

theorem keeps_effect {op op' : Op} (h : op'.name.str ≠ op.name.str) (environ : List CStr) :
    op.keeps (op'.effect environ) ↔ op.keeps environ := by
  cases op with
  | unset _ => exact Iff.rfl
  | set name value overwrite =>
    have hany : ∀ l : List CStr, (Op.set name value overwrite).keeps l ↔
        l.filter (defines name.str.val) ≠ [] ∧ overwrite = 0 := by
      intro l
      apply and_congr_left'
      rw [ne_eq, List.filter_eq_nil_iff, List.any_eq_true]
      simp only [not_forall, not_not, exists_prop]
    have hsame := filter_effect h environ
    rw [hany, hany]
    exact hsame ▸ Iff.rfl

/-- The entries that are left by both calls, and then what they add. -/
theorem effect_effect {op op' : Op} (h : op'.name.str ≠ op.name.str) {environ : List CStr}
    (hop : ¬op.keeps environ) (hop' : ¬op'.keeps environ) : op.effect (op'.effect environ) =
      others op.name.str.val (others op'.name.str.val environ) ++ (op'.added ++ op.added) := by
  have hadded : others op.name.str.val op'.added = op'.added := by
    apply List.filter_eq_self.mpr
    intro e he
    rw [defines_added h he]
    rfl
  rw [Op.effect, if_neg (mt (keeps_effect h environ).mp hop), Op.effect, if_neg hop', others,
    List.filter_append, ← others, ← others, hadded, List.append_assoc]

/-- Calls with two names commute, up to the order of what they add. -/
theorem effect_comm {op op' : Op} (h : op'.name.str ≠ op.name.str) (environ : List CStr) :
    (op.effect (op'.effect environ)).Perm (op'.effect (op.effect environ)) := by
  -- a call that changes nothing does so also after the other one
  by_cases hop : op.keeps environ
  · have hfirst : op.effect environ = environ := if_pos hop
    have hlast : op.effect (op'.effect environ) = op'.effect environ :=
      if_pos ((keeps_effect h environ).mpr hop)
    rw [hfirst, hlast]
  by_cases hop' : op'.keeps environ
  · have hfirst : op'.effect environ = environ := if_pos hop'
    have hlast : op'.effect (op.effect environ) = op.effect environ :=
      if_pos ((keeps_effect h.symm environ).mpr hop')
    rw [hfirst, hlast]
  rw [effect_effect h hop hop', effect_effect h.symm hop' hop]
  have hothers : others op.name.str.val (others op'.name.str.val environ) =
      others op'.name.str.val (others op.name.str.val environ) := by
    rw [others, others, others, others, List.filter_comm]
  rw [hothers]
  exact List.perm_append_comm.append_left _

section

variable (name value : CStr) (environ : List CStr)

/-- A new entry is a definition like others. -/
theorem others_concat : others name.val (environ ++ [entry name value]) = others name.val environ := by
  rw [others, List.filter_append, List.filter_cons_of_neg (by simp [defines_entry]),
    List.filter_nil, List.append_nil, others]

/-- The new entry is the only definition. -/
theorem filter_others_concat :
    (others name.val environ ++ [entry name value]).filter (defines name.val) =
      [entry name value] := by
  have hnone := any_others name.val environ
  rw [List.any_eq_false] at hnone
  rw [List.filter_append, List.filter_eq_nil_iff.mpr hnone,
    List.filter_cons_of_pos (defines_entry name value)]
  rfl

theorem getenv_others_concat :
    getenv name.val (others name.val environ ++ [entry name value]) = some value.val := by
  have hfind : (others name.val environ ++ [entry name value]).find? (defines name.val) =
      some (entry name value) := by
    rw [← List.head?_filter, filter_others_concat]
    rfl
  have hdrop : (name.val ++ 61 :: value.val).drop (name.val.length + 1) = value.val := by
    rw [← List.drop_drop, List.drop_left]
    rfl
  rw [getenv, hfind, Option.map_some]
  exact congrArg some hdrop

end

/-- An entry that begins with the name and `=`. -/
def isDefinition (name : List UInt8) (e : CStr) : Bool := (name ++ [61]).isPrefixOf e.val

theorem defines_eq (name : List UInt8) : defines name = isDefinition name := by
  funext e
  rw [Bool.eq_iff_iff, defines_iff, isDefinition, List.isPrefixOf_iff_prefix]
  constructor
  · rintro ⟨value, he⟩
    exact ⟨value, by rw [he, List.append_assoc]; rfl⟩
  · rintro ⟨value, he⟩
    exact ⟨value, by rw [← he, List.append_assoc]; rfl⟩

/-- What the calls promise, memory being had. -/
structure Laws (environ : List CStr) (name : Name) : Prop where
  unset : unsetenv (some name.str) environ =
    some ⟨.ok (), environ.filter fun e => !isDefinition name.str.val e⟩
  set : ∀ value overwrite, overwrite ≠ 0 → ∃ environ',
    setenv ⟨true, true⟩ (some name.str) (some value) overwrite environ = some ⟨.ok (), environ'⟩ ∧
    getenv name.str.val environ' = some value.val ∧
    environ'.filter (isDefinition name.str.val) = [entry name.str value] ∧
    environ'.filter (fun e => !isDefinition name.str.val e) =
      environ.filter fun e => !isDefinition name.str.val e
  keep : ∀ value, environ.any (isDefinition name.str.val) = true →
    setenv ⟨true, true⟩ (some name.str) (some value) 0 environ = some ⟨.ok (), environ⟩
  add : ∀ value overwrite, environ.any (isDefinition name.str.val) = false →
    setenv ⟨true, true⟩ (some name.str) (some value) 0 environ =
      setenv ⟨true, true⟩ (some name.str) (some value) overwrite environ
  restore : ∀ value overwrite, environ.any (isDefinition name.str.val) = false →
    ((setenv ⟨true, true⟩ (some name.str) (some value) overwrite environ).bind fun r =>
      unsetenv (some name.str) r.environ) = some ⟨.ok (), environ⟩
  commute : ∀ op op' : Op, op.name = name → op'.name.str ≠ name.str → ∃ environ₁ environ₂,
    ((op.run environ).bind fun r => op'.run r.environ) = some ⟨.ok (), environ₁⟩ ∧
    ((op'.run environ).bind fun r => op.run r.environ) = some ⟨.ok (), environ₂⟩ ∧
    environ₁.Perm environ₂

theorem setenv_undefined {environ : List CStr} {name : Name}
    (h : environ.any (defines name.str.val) = false) (value : CStr) (overwrite : BitVec 32) :
    setenv ⟨true, true⟩ (some name.str) (some value) overwrite environ =
      some ⟨.ok (), environ ++ [entry name.str value]⟩ := by
  rw [setenv_eq, if_neg (by rw [h]; exact fun hand => Bool.noConfusion hand.1), others_eq_self h]
  rfl

/-- **The laws of `setenv()` and `unsetenv()`.** -/
theorem setenv_laws (environ : List CStr) (name : Name) : Laws environ name := by
  refine ⟨?_, ?_, ?_, ?_, ?_, ?_⟩
  · rw [unsetenv_eq, ← defines_eq]
    rfl
  · intro value overwrite hoverwrite
    refine ⟨others name.str.val environ ++ [entry name.str value], ?_, ?_, ?_, ?_⟩
    · rw [setenv_eq, if_neg (fun hand => hoverwrite hand.2)]
      rfl
    · exact getenv_others_concat _ _ _
    · rw [← defines_eq]
      exact filter_others_concat _ _ _
    · rw [← defines_eq]
      exact (others_concat _ _ _).trans (others_eq_self (any_others _ _))
  · intro value hdefined
    rw [← defines_eq] at hdefined
    rw [setenv_eq, if_pos ⟨hdefined, rfl⟩]
  · intro value overwrite hundefined
    rw [← defines_eq] at hundefined
    rw [setenv_undefined hundefined, setenv_undefined hundefined]
  · intro value overwrite hundefined
    rw [← defines_eq] at hundefined
    rw [setenv_undefined hundefined, Option.bind_some, unsetenv_eq, others_concat,
      others_eq_self hundefined]
  · intro op op' hop hop'
    subst hop
    refine ⟨op'.effect (op.effect environ), op.effect (op'.effect environ), ?_, ?_, ?_⟩
    · rw [run_eq, Option.bind_some, run_eq]
    · rw [run_eq, Option.bind_some, run_eq]
    · exact effect_comm hop'.symm environ

/-! ## 6. Failure -/

/-- A call that fails leaves the environment as it was. -/
def Atomic (out : Outcome) (name value : Option CStr) (overwrite : BitVec 32)
    (environ : List CStr) : Prop :=
  ∃ r, setenv out name value overwrite environ = some r ∧
    ∀ e, r.ret = .error e → r.environ = environ

theorem others_ne {name : List UInt8} {environ : List CStr}
    (h : environ.any (defines name) = true) : others name environ ≠ environ := by
  intro heq
  rw [← heq, any_others] at h
  exact Bool.noConfusion h

/-- The arguments are refused, or they are a valid name and a value. -/
theorem setenv_cases (out : Outcome) (name value : Option CStr) (overwrite : BitVec 32)
    (environ : List CStr) :
    setenv out name value overwrite environ = some ⟨.error .EINVAL, environ⟩ ∨
      ∃ (n : Name) (v : CStr), name = some n.str ∧ value = some v := by
  cases name with
  | none => exact .inl rfl
  | some n =>
    cases value with
    | none => exact .inl rfl
    | some v =>
      by_cases hvalid : validName n.val = true
      · exact .inr ⟨⟨n, hvalid⟩, v, rfl, rfl⟩
      · left
        rw [setenv, if_pos (by simpa using hvalid)]

/-- **A failure is harmless unless a definition was to be overwritten**: it has been deleted when
`malloc()` or `putenv()` fails. -/
theorem setenv_atomic_iff (out : Outcome) (name value : Option CStr) (overwrite : BitVec 32)
    (environ : List CStr) : Atomic out name value overwrite environ ↔
      ∀ n v, name = some n → value = some v → validName n.val = true →
        environ.any (isDefinition n.val) = true → overwrite ≠ 0 →
        out.malloc = true ∧ out.putenv = true := by
  constructor
  · rintro ⟨r, hr, hatomic⟩ n v rfl rfl hvalid hdefined hoverwrite
    rw [← defines_eq] at hdefined
    rw [setenv_eq out ⟨n, hvalid⟩, if_neg (fun hand => hoverwrite hand.2), Option.some.injEq] at hr
    by_contra hfails
    rw [if_neg (by rwa [Bool.and_eq_true])] at hr
    subst hr
    exact others_ne hdefined (hatomic _ rfl)
  · intro h
    rcases setenv_cases out name value overwrite environ with hinvalid | ⟨n, v, rfl, rfl⟩
    · exact ⟨_, hinvalid, fun _ _ => rfl⟩
    refine ⟨_, setenv_eq out n v overwrite environ, ?_⟩
    intro e he
    split at he
    · exact nomatch he
    rename_i hset
    split at he
    · exact nomatch he
    rename_i hfails
    rw [if_neg hset, if_neg hfails]
    -- there was no definition that `unsetenv()` could have deleted
    apply others_eq_self
    by_contra hdefined
    rw [Bool.not_eq_false] at hdefined
    have hwork := h n.str v rfl rfl n.valid (defines_eq n.str.val ▸ hdefined)
      fun hzero => hset ⟨hdefined, hzero⟩
    exact hfails (by rw [hwork.1, hwork.2]; rfl)

/-- `A=1` is to be overwritten with `A=2`, and there is no memory: `A` is undefined afterwards. -/
theorem setenv_deletes :
    ¬Atomic ⟨false, true⟩ (some ⟨[65], by decide⟩) (some ⟨[50], by decide⟩) 1
      [⟨[65, 61, 49], by decide⟩] ∧
    setenv ⟨false, true⟩ (some ⟨[65], by decide⟩) (some ⟨[50], by decide⟩) 1
      [⟨[65, 61, 49], by decide⟩] = some ⟨.error .ENOMEM, []⟩ := by
  have hdeleted : setenv ⟨false, true⟩ (some ⟨[65], by decide⟩) (some ⟨[50], by decide⟩) 1
      [⟨[65, 61, 49], by decide⟩] = some ⟨.error .ENOMEM, []⟩ := rfl
  refine ⟨?_, hdeleted⟩
  rintro ⟨r, hr, hatomic⟩
  rw [hdeleted, Option.some.injEq] at hr
  subst hr
  exact List.cons_ne_nil _ _ (hatomic _ rfl).symm

end Tlpi.Setenv
