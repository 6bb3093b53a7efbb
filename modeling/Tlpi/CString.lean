/-
The **string layer**: C strings, and the functions that look for their end or for a character.
Nothing here is about this repository.

Memory is a list of bytes, and the string in it is what stands in front of the first null byte. A
null byte that is stored into a string cuts it off there (`str_set`), and what stands behind some of
its characters is a string of its own (`str_drop`).
-/
import Mathlib.Data.List.Basic
import Mathlib.Data.List.DropRight
import Mathlib.Tactic.Common

set_option autoImplicit false

namespace Tlpi.CString

/-- A string without its terminating null byte. -/
abbrev CStr := {s : List UInt8 // (0 : UInt8) ∉ s}

/-- The bytes of a string literal. -/
def bytes (s : String) : List UInt8 := s.toList.map fun c => UInt8.ofNat c.toNat

/-- `isdigit()` -/
def isdigit (c : UInt8) : Bool := 48 ≤ c && c ≤ 57

/-- The string at the beginning of some memory. -/
def str (mem : List UInt8) : List UInt8 := mem.takeWhile (· ≠ 0)

def strlen (mem : List UInt8) : ℕ := (str mem).length

theorem zero_notMem_str (mem : List UInt8) : 0 ∉ str mem := by
  intro h
  rw [str] at h
  have hne := List.mem_takeWhile_imp h
  rw [decide_eq_true_eq] at hne
  exact hne rfl

/-- No character of the string is this one. -/
theorem forall_ne_of_notMem {c : UInt8} {s : List UInt8} (h : c ∉ s) :
    ∀ b ∈ s, decide (b ≠ c) = true := by
  intro b hb
  rw [decide_eq_true_eq]
  rintro rfl
  exact h hb

/-- What stands in front of the first occurrence of a character. -/
theorem takeWhile_append_cons {c : UInt8} {s : List UInt8} (h : c ∉ s) (rest : List UInt8) :
    (s ++ c :: rest).takeWhile (· ≠ c) = s := by
  rw [List.takeWhile_append_of_pos (forall_ne_of_notMem h), List.takeWhile_cons_of_neg (by simp),
    List.append_nil]

/-- The string ends at the first null byte. -/
theorem str_append {s : List UInt8} (h : (0 : UInt8) ∉ s) (rest : List UInt8) :
    str (s ++ 0 :: rest) = s := takeWhile_append_cons h rest

theorem strlen_append {s : List UInt8} (h : (0 : UInt8) ∉ s) (rest : List UInt8) :
    strlen (s ++ 0 :: rest) = s.length := by
  rw [strlen, str_append h]

/-- A null byte ends the string. -/
theorem str_set (mem : List UInt8) (i : ℕ) : str (mem.set i 0) = (str mem).take i := by
  induction mem generalizing i with
  | nil => rw [List.set_nil, str, List.takeWhile_nil, List.take_nil]
  | cons b mem ih =>
    cases i with
    | zero => rfl
    | succ i =>
      rw [List.set_cons_succ, str, str, List.takeWhile_cons, List.takeWhile_cons, ← str, ih, ← str]
      split
      · rw [List.take_succ_cons]
      · rw [List.take_nil]

/-- The string behind the first characters. -/
theorem str_drop {mem : List UInt8} {i : ℕ} (h : i ≤ strlen mem) :
    str (mem.drop i) = (str mem).drop i := by
  induction mem generalizing i with
  | nil => rw [List.drop_nil, str, List.takeWhile_nil, List.drop_nil]
  | cons b mem ih =>
    cases i with
    | zero => rfl
    | succ i =>
      rw [strlen, str, List.takeWhile_cons] at h
      rw [List.drop_succ_cons, str, str, List.takeWhile_cons]
      -- as long as the null byte is not reached
      split at h
      · rename_i hb
        rw [if_pos hb, List.drop_succ_cons]
        exact ih (Nat.le_of_succ_le_succ h)
      · exact absurd h (Nat.not_succ_le_zero _)

/-- A character of the string. -/
theorem getElem?_str {mem : List UInt8} {i : ℕ} (h : i < strlen mem) : mem[i]? = (str mem)[i]? := by
  have hprefix : str mem <+: mem := List.takeWhile_prefix _
  rw [List.getElem?_eq_getElem h, hprefix.getElem h, List.getElem?_eq_getElem]

/-- The character in front of the null byte. -/
theorem getElem?_strlen {mem : List UInt8} {i : ℕ} (h : strlen mem = i + 1) :
    mem[i]? = (str mem).getLast? := by
  rw [getElem?_str (by omega), List.getLast?_eq_getElem?, ← strlen, h, Nat.add_sub_cancel]

/-- `strchr(s, c)`: where the first occurrence of a character is; the null byte is one of them. -/
def strchr : List UInt8 → UInt8 → Option ℕ
  | [], _ => none
  | b :: mem, c => if b = c then some 0 else if b = 0 then none else (strchr mem c).map (· + 1)

theorem strchr_eq_some {c : UInt8} {s : List UInt8} (h : (0 : UInt8) ∉ s) (hc : c ∉ s)
    (rest : List UInt8) : strchr (s ++ c :: rest) c = some s.length := by
  induction s with
  | nil => rw [List.nil_append, strchr, if_pos rfl, List.length_nil]
  | cons b s ih =>
    rw [List.mem_cons, not_or] at h hc
    rw [List.cons_append, strchr, if_neg (Ne.symm hc.1), if_neg (Ne.symm h.1), ih h.2 hc.2,
      Option.map_some, List.length_cons]

theorem strchr_eq_none {c : UInt8} {s : List UInt8} (h : (0 : UInt8) ∉ s) (hc : c ∉ s)
    (hne : c ≠ 0) (rest : List UInt8) : strchr (s ++ 0 :: rest) c = none := by
  induction s with
  | nil => rw [List.nil_append, strchr, if_neg (Ne.symm hne), if_pos rfl]
  | cons b s ih =>
    rw [List.mem_cons, not_or] at h hc
    rw [List.cons_append, strchr, if_neg (Ne.symm hc.1), if_neg (Ne.symm h.1), ih h.2 hc.2,
      Option.map_none]

/-! ## A character somewhere in memory -/

section

variable (pre s t : List UInt8) (b c : UInt8)

/-- Another character is stored there. -/
theorem set_at : (pre ++ (s ++ b :: t)).set (pre.length + s.length) c = pre ++ (s ++ c :: t) := by
  rw [List.set_append_right _ _ (Nat.le_add_right _ _), Nat.add_sub_cancel_left,
    List.set_append_right _ _ (Nat.le_refl _), Nat.sub_self, List.set_cons_zero]

/-- What stands behind it. -/
theorem drop_behind : (pre ++ (s ++ b :: t)).drop (pre.length + s.length + 1) = t := by
  rw [Nat.add_assoc, List.drop_length_add_append, List.drop_length_add_append, List.drop_succ_cons,
    List.drop_zero]

theorem getElem?_behind :
    (pre ++ (s ++ b :: t))[pre.length + s.length + 1]? = t.head? := by
  rw [← List.head?_drop, drop_behind]

end

/-- A string in two at the first occurrence of a character. -/
def cut (c : UInt8) (s : List UInt8) : List UInt8 × Option (List UInt8) :=
  (s.takeWhile (· ≠ c), (s.dropWhile (· ≠ c)).tail?)

theorem cut_append_cons {c : UInt8} {s : List UInt8} (h : c ∉ s) (rest : List UInt8) :
    cut c (s ++ c :: rest) = (s, some rest) := by
  rw [cut, takeWhile_append_cons h, List.dropWhile_append_of_pos (forall_ne_of_notMem h),
    List.dropWhile_cons_of_neg (by simp)]
  rfl

theorem cut_of_notMem {c : UInt8} {s : List UInt8} (h : c ∉ s) : cut c s = (s, none) := by
  rw [cut, List.takeWhile_eq_self_iff.mpr (forall_ne_of_notMem h),
    List.dropWhile_eq_nil_iff.mpr (forall_ne_of_notMem h)]
  rfl

/-- A piece of a string has no delimiter, and no other characters than the string. -/
theorem of_mem_splitOn {c : UInt8} {s piece : List UInt8} (h : piece ∈ s.splitOn c) :
    c ∉ piece ∧ ∀ b ∈ piece, b ∈ s := by
  induction s generalizing piece with
  | nil =>
    rw [List.splitOn_nil, List.mem_singleton] at h
    rw [h]
    exact ⟨List.not_mem_nil, nofun⟩
  | cons x s ih =>
    rw [List.splitOn_cons_eq_if_modifyHead] at h
    split at h
    · rcases List.mem_cons.mp h with rfl | h
      · exact ⟨List.not_mem_nil, nofun⟩
      · exact ⟨(ih h).1, fun b hb => List.mem_cons_of_mem _ ((ih h).2 b hb)⟩
    · rename_i hx
      rw [beq_iff_eq] at hx
      obtain ⟨first, rest, hsplit⟩ := List.exists_cons_of_ne_nil (List.splitOn_ne_nil c s)
      rw [hsplit] at h ih
      rw [List.modifyHead_cons, List.mem_cons] at h
      rcases h with rfl | h
      · have hfirst := ih List.mem_cons_self
        refine ⟨?_, ?_⟩
        · rw [List.mem_cons, not_or]
          exact ⟨Ne.symm hx, hfirst.1⟩
        · exact fun b hb => (List.mem_cons.mp hb).elim (fun hb => hb ▸ List.mem_cons_self)
            fun hb => List.mem_cons_of_mem _ (hfirst.2 b hb)
      · have hrest := ih (List.mem_cons_of_mem _ h)
        exact ⟨hrest.1, fun b hb => List.mem_cons_of_mem _ (hrest.2 b hb)⟩

theorem notMem_intercalate {b c : UInt8} (hne : b ≠ c) {pieces : List (List UInt8)}
    (h : ∀ piece ∈ pieces, b ∉ piece) : b ∉ [c].intercalate pieces := by
  induction pieces with
  | nil => exact List.not_mem_nil
  | cons piece pieces ih =>
    have hpiece := h piece List.mem_cons_self
    have hpieces := ih fun p hp => h p (List.mem_cons_of_mem _ hp)
    by_cases hnil : pieces = []
    · rw [hnil, List.intercalate_singleton]
      exact hpiece
    · rw [List.intercalate_cons_of_ne_nil hnil, List.mem_append, List.mem_append, List.mem_singleton,
        not_or, not_or]
      exact ⟨⟨hpiece, hne⟩, hpieces⟩

/-- `strrchr(s, c)`: where the last occurrence of a character is. -/
def strrchr (mem : List UInt8) (c : UInt8) : Option ℕ :=
  let upTo := (str mem).rdropWhile (· ≠ c)
  if upTo = [] then none else some (upTo.length - 1)

/-- What stands up to the last occurrence of a character. -/
theorem rdropWhile_append_cons {c : UInt8} (s : List UInt8) {rest : List UInt8} (h : c ∉ rest) :
    (s ++ c :: rest).rdropWhile (· ≠ c) = s ++ [c] := by
  have hall : ∀ b ∈ rest.reverse, decide (b ≠ c) = true := by
    intro b hb
    rw [decide_eq_true_eq]
    rintro rfl
    exact h (List.mem_reverse.mp hb)
  rw [List.rdropWhile, List.reverse_append, List.reverse_cons, List.append_assoc,
    List.dropWhile_append_of_pos hall, List.singleton_append, List.dropWhile_cons_of_neg (by simp),
    List.reverse_cons, List.reverse_reverse]

theorem strrchr_eq_some {mem : List UInt8} {c : UInt8} {s rest : List UInt8}
    (hmem : str mem = s ++ c :: rest) (h : c ∉ rest) : strrchr mem c = some s.length := by
  rw [strrchr, hmem, rdropWhile_append_cons s h]
  simp

theorem strrchr_eq_none {mem : List UInt8} {c : UInt8} (h : c ∉ str mem) :
    strrchr mem c = none := by
  have hnil : (str mem).rdropWhile (· ≠ c) = [] := by
    rw [List.rdropWhile_eq_nil_iff]
    intro b hb
    rw [decide_eq_true_eq]
    rintro rfl
    exact h hb
  rw [strrchr, hnil]
  rfl

end Tlpi.CString
