/-
`timers/itimerspec_from_str.c`: a timer setting from a string of the form
"value.sec[/value.nanosec][:interval.sec[/interval.nanosec]]".

The string is duplicated and the duplicate is cut into its parts by null bytes, at the `:` first and
then at a `/` in each of the two halves. Memory is a number of blocks, the caller's string in one of
them and the duplicate in another, so that it can be said which of them is written to.

The one lemma that carries the rest is `cutAt_spec`: what a cut finds in the string that begins at a
pointer, and what it leaves in memory, where the string is followed by more.
-/
import Mathlib.Logic.Function.Basic
import Tlpi.CString
import Tlpi.Decimal

set_option autoImplicit false

namespace Tlpi.ItimerspecFromStr

open Tlpi.CString Tlpi.Decimal Tlpi.Strtol

/-! ## 1. Memory -/

/-- The blocks of memory. -/
abbrev Memory := ℕ → List UInt8

structure Ptr where
  block : ℕ
  offset : ℕ
deriving Repr, DecidableEq

def Ptr.add (p : Ptr) (n : ℕ) : Ptr := ⟨p.block, p.offset + n⟩

/-- What is behind a pointer, up to the end of the block. -/
def Memory.behind (mem : Memory) (p : Ptr) : List UInt8 := (mem p.block).drop p.offset

/-- `*p = b` -/
def Memory.store (mem : Memory) (p : Ptr) (b : UInt8) : Memory :=
  Function.update mem p.block ((mem p.block).set p.offset b)

/-- `strdup(p)` into a block that has not been in use. -/
def Memory.strdup (mem : Memory) (p : Ptr) (new : ℕ) : Memory :=
  Function.update mem new (str (mem.behind p) ++ [0])

/-- `free()` -/
def Memory.free (mem : Memory) (block : ℕ) : Memory := Function.update mem block []

/-! ## 2. The function -/

/-- `:` -/
abbrev colon : UInt8 := 58

/-- `/` -/
abbrev slash : UInt8 := 47

structure Timespec where
  tv_sec : ℤ
  tv_nsec : ℤ
deriving Repr, DecidableEq

structure Itimerspec where
  it_value : Timespec
  it_interval : Timespec
deriving Repr, DecidableEq

/-- `q = strchr(p, c); if (q != NULL) *q = '\0';` -/
def cutAt (mem : Memory) (p : Ptr) (c : UInt8) : Memory × Option Ptr :=
  match strchr (mem.behind p) c with
  | none => (mem, none)
  | some n => (mem.store (p.add n) 0, some (p.add n))

/-- `atoi(p)` -/
def atoiAt (mem : Memory) (p : Ptr) : ℤ := atoi (str (mem.behind p))

/-- The two conversions of `tv_sec` and `tv_nsec`. -/
def fields (mem : Memory) (p : Ptr) (sptr : Option Ptr) : Timespec where
  tv_sec := atoiAt mem p
  tv_nsec :=
    match sptr with
    | none => 0
    | some sptr => atoiAt mem (sptr.add 1)

/-- `new` is the block that `strdup()` returns. -/
def itimerspecFromStr (mem : Memory) (str : Ptr) (new : ℕ) : Memory × Itimerspec :=
  let mem := mem.strdup str new
  let dupstr : Ptr := ⟨new, 0⟩
  let (mem, cptr) := cutAt mem dupstr colon
  let (mem, sptr) := cutAt mem dupstr slash
  let it_value := fields mem dupstr sptr
  match cptr with
  | none => (mem.free new, ⟨it_value, ⟨0, 0⟩⟩)
  | some cptr =>
    let (mem, sptr) := cutAt mem (cptr.add 1) slash
    let it_interval := fields mem (cptr.add 1) sptr
    (mem.free new, ⟨it_value, it_interval⟩)

/-! ## 3. The format -/

/-- "sec[/nanosec]" -/
structure TimeText where
  sec : ℤ
  nsec : Option ℤ
deriving Repr, DecidableEq

def TimeText.text (t : TimeText) : List UInt8 :=
  match t.nsec with
  | none => printInt t.sec
  | some nsec => printInt t.sec ++ slash :: printInt nsec

def TimeText.timespec (t : TimeText) : Timespec := ⟨t.sec, t.nsec.getD 0⟩

abbrev isInt (i : ℤ) : Prop := INT_MIN ≤ i ∧ i ≤ INT_MAX

def TimeText.IsInt (t : TimeText) : Prop := isInt t.sec ∧ ∀ nsec, t.nsec = some nsec → isInt nsec

/-- "value[:interval]" -/
structure TimerText where
  value : TimeText
  interval : Option TimeText
deriving Repr, DecidableEq

def TimerText.text (t : TimerText) : List UInt8 :=
  match t.interval with
  | none => t.value.text
  | some interval => t.value.text ++ colon :: interval.text

/-- With 0 for each part that is omitted. -/
def TimerText.itimerspec (t : TimerText) : Itimerspec where
  it_value := t.value.timespec
  it_interval := (t.interval.map TimeText.timespec).getD ⟨0, 0⟩

def TimerText.IsInt (t : TimerText) : Prop :=
  t.value.IsInt ∧ ∀ interval, t.interval = some interval → interval.IsInt

/-- What a string stands for on one side of the colon: what is in front of its first `/`, and what is
behind it, if it has one. -/
def timespecOf (s : List UInt8) : Timespec where
  tv_sec := atoi (cut slash s).1
  tv_nsec := ((cut slash s).2.map atoi).getD 0

/-! ## 4. Cuts -/

section

variable {mem : Memory} {block : ℕ} {pre s post : List UInt8} {c : UInt8}

/-- The string at a pointer. -/
theorem str_behind (h : mem block = pre ++ (s ++ 0 :: post)) (hs : (0 : UInt8) ∉ s) {p : Ptr}
    (hp : p = ⟨block, pre.length⟩) : str (mem.behind p) = s := by
  rw [hp, Memory.behind, h, List.drop_left, str_append hs]

/-- **A cut**: the string at a pointer ends at the first occurrence of the character, and what is
behind it is a string of its own. All else stays as it is. -/
theorem cutAt_spec (h : mem block = pre ++ (s ++ 0 :: post)) (hs : (0 : UInt8) ∉ s) (hc : c ≠ 0) :
    (cutAt mem ⟨block, pre.length⟩ c = (mem, none) ∧ c ∉ s) ∨
    ∃ a b mem', s = a ++ c :: b ∧ c ∉ a ∧
      cutAt mem ⟨block, pre.length⟩ c = (mem', some ⟨block, pre.length + a.length⟩) ∧
      mem' block = pre ++ (a ++ 0 :: (b ++ 0 :: post)) := by
  have hbehind : mem.behind ⟨block, pre.length⟩ = s ++ 0 :: post := by
    rw [Memory.behind, h, List.drop_left]
  by_cases hmem : c ∈ s
  · obtain ⟨a, b, rfl, ha⟩ := List.eq_append_cons_of_mem hmem
    have h0 : (0 : UInt8) ∉ a := fun h0 => hs (List.mem_append_left _ h0)
    rw [List.append_assoc, List.cons_append] at h hbehind
    refine .inr ⟨a, b, mem.store ⟨block, pre.length + a.length⟩ 0, rfl, ha, ?_, ?_⟩
    · rw [cutAt, hbehind, strchr_eq_some h0 ha]
      rfl
    · rw [Memory.store, Function.update_self, h, set_at]
  · refine .inl ⟨?_, hmem⟩
    rw [cutAt, hbehind, strchr_eq_none hs hmem hc]

/-- Nothing is written into another block. -/
theorem cutAt_of_ne {mem' : Memory} {p : Ptr} {q : Option Ptr} {b : ℕ}
    (hcut : cutAt mem p c = (mem', q)) (h : b ≠ p.block) :
    mem' b = mem b ∧ ∀ r, q = some r → r.block = p.block := by
  rw [cutAt] at hcut
  split at hcut
  · obtain ⟨rfl, rfl⟩ := Prod.mk.inj hcut
    exact ⟨rfl, nofun⟩
  · obtain ⟨rfl, rfl⟩ := Prod.mk.inj hcut
    refine ⟨Function.update_of_ne h _ _, ?_⟩
    rintro r ⟨⟩
    rfl

/-- **One side of the colon**: the seconds and the nanoseconds are those of the string at the
pointer, and what stands behind that string in memory stays where it is. -/
theorem fields_spec (h : mem block = pre ++ (s ++ 0 :: post)) (hs : (0 : UInt8) ∉ s) :
    ∃ s' mem' sptr, cutAt mem ⟨block, pre.length⟩ slash = (mem', sptr) ∧
      mem' block = pre ++ (s' ++ 0 :: post) ∧ s'.length = s.length ∧
      fields mem' ⟨block, pre.length⟩ sptr = timespecOf s := by
  rcases cutAt_spec h hs (show slash ≠ 0 by decide) with
    ⟨hcut, hslash⟩ | ⟨a, b, mem', rfl, ha, hcut, hmem'⟩
  · refine ⟨s, mem, none, hcut, h, rfl, ?_⟩
    rw [fields, timespecOf, cut_of_notMem hslash, atoiAt, str_behind h hs rfl]
    rfl
  · refine ⟨a ++ 0 :: b, mem', _, hcut, ?_, ?_, ?_⟩
    · rw [hmem', List.append_assoc a, List.cons_append]
    · rw [List.length_append, List.length_append, List.length_cons, List.length_cons]
    · have h0a : (0 : UInt8) ∉ a := fun h0 => hs (List.mem_append_left _ h0)
      have h0b : (0 : UInt8) ∉ b := fun h0 => hs (List.mem_append_right _ (List.mem_cons_of_mem _ h0))
      have hnsec : mem' block = (pre ++ (a ++ [0])) ++ (b ++ 0 :: post) := by
        rw [hmem', List.append_assoc, List.append_assoc, List.singleton_append]
      have hptr : Ptr.add ⟨block, pre.length + a.length⟩ 1 = ⟨block, (pre ++ (a ++ [0])).length⟩ := by
        simp only [Ptr.add, List.length_append, List.length_singleton, Nat.add_assoc]
      simp only [fields, atoiAt, timespecOf, cut_append_cons ha, str_behind hmem' h0a rfl,
        str_behind hnsec h0b hptr, Option.map_some, Option.getD_some]

end

/-! ## 5. The function -/

section

variable (mem : Memory) (strp : Ptr) (new : ℕ)

/-- **What the function does with any string**: the two sides of the first colon are converted each
for itself. -/
theorem itimerspecFromStr_eq {s rest : List UInt8} (hs : (0 : UInt8) ∉ s)
    (h : mem.behind strp = s ++ 0 :: rest) :
    (itimerspecFromStr mem strp new).2 =
      ⟨timespecOf (cut colon s).1, ((cut colon s).2.map timespecOf).getD ⟨0, 0⟩⟩ := by
  have hdup : (mem.strdup strp new) new = [] ++ (s ++ 0 :: []) := by
    rw [Memory.strdup, Function.update_self, h, str_append hs, List.nil_append]
  rcases cutAt_spec hdup hs (show colon ≠ 0 by decide) with
    ⟨hcut, hcolon⟩ | ⟨v, r, mem₁, rfl, hv, hcut, hmem₁⟩
  · obtain ⟨s', mem₂, sptr, hcut', -, -, hfields⟩ := fields_spec hdup hs
    rw [List.length_nil] at hcut hcut' hfields
    rw [itimerspecFromStr, cut_of_notMem hcolon]
    simp only [hcut, hcut', hfields]
    rfl
  · have h0v : (0 : UInt8) ∉ v := fun h0 => hs (List.mem_append_left _ h0)
    have h0r : (0 : UInt8) ∉ r := fun h0 => hs (List.mem_append_right _ (List.mem_cons_of_mem _ h0))
    -- the value is at the beginning of the block, the interval behind the null byte
    obtain ⟨v', mem₂, sptr, hcut₂, hmem₂, hlen, hfields₂⟩ := fields_spec hmem₁ h0v
    have hinterval : mem₂ new = (v' ++ [0]) ++ (r ++ 0 :: []) := by
      rw [hmem₂, List.nil_append, List.append_assoc, List.singleton_append]
    obtain ⟨r', mem₃, sptr', hcut₃, -, -, hfields₃⟩ := fields_spec hinterval h0r
    have hptr : Ptr.add ⟨new, 0 + v.length⟩ 1 = ⟨new, (v' ++ [0]).length⟩ := by
      simp only [Ptr.add, List.length_append, List.length_singleton, hlen, Nat.zero_add]
    rw [← hptr] at hcut₃ hfields₃
    rw [List.length_nil] at hcut hcut₂ hfields₂
    rw [itimerspecFromStr, cut_append_cons hv]
    simp only [hcut, hcut₂, hfields₂, hcut₃, hfields₃]
    rfl

/-- Only the duplicate is written to. -/
theorem itimerspecFromStr_of_ne {b : ℕ} (h : b ≠ new) : (itimerspecFromStr mem strp new).1 b = mem b := by
  have hdup : (mem.strdup strp new) b = mem b := Function.update_of_ne h _ _
  have hfree : ∀ m : Memory, m.free new b = m b := fun m => Function.update_of_ne h _ _
  rw [itimerspecFromStr]
  rcases hcut₁ : cutAt (mem.strdup strp new) ⟨new, 0⟩ colon with ⟨mem₁, cptr⟩
  rcases hcut₂ : cutAt mem₁ ⟨new, 0⟩ slash with ⟨mem₂, sptr⟩
  obtain ⟨h₁, hcptr⟩ := cutAt_of_ne hcut₁ h
  have h₂ := (cutAt_of_ne hcut₂ h).1
  simp only [hcut₂]
  cases cptr with
  | none => exact (hfree mem₂).trans (h₂.trans (h₁.trans hdup))
  | some cptr =>
    rcases hcut₃ : cutAt mem₂ (cptr.add 1) slash with ⟨mem₃, sptr'⟩
    have hblock : (cptr.add 1).block = new := hcptr cptr rfl
    have h₃ := (cutAt_of_ne hcut₃ (hblock ▸ h)).1
    simp only [hcut₃]
    exact (hfree mem₃).trans (h₃.trans (h₂.trans (h₁.trans hdup)))

/-! ## 6. What is printed -/

theorem notMem_printInt {c : UInt8} (hc : c ≠ 45) (hdigit : ¬(48 ≤ c.toNat ∧ c.toNat ≤ 57)) (i : ℤ) :
    c ∉ printInt i := fun h => (mem_printInt h).elim hc hdigit

theorem TimeText.notMem_text {c : UInt8} (hc : c ≠ 45) (hdigit : ¬(48 ≤ c.toNat ∧ c.toNat ≤ 57))
    (hslash : c ≠ slash) (t : TimeText) : c ∉ t.text := by
  rw [TimeText.text]
  split
  · exact notMem_printInt hc hdigit t.sec
  · rw [List.mem_append, List.mem_cons, not_or, not_or]
    exact ⟨notMem_printInt hc hdigit t.sec, hslash, notMem_printInt hc hdigit _⟩

theorem TimeText.timespecOf_text {t : TimeText} (h : t.IsInt) : timespecOf t.text = t.timespec := by
  have hsec : slash ∉ printInt t.sec := notMem_printInt (by decide) (by decide) t.sec
  have hvalue := atoi_printInt h.1.1 h.1.2
  rw [timespecOf, TimeText.text, TimeText.timespec]
  cases hnsec : t.nsec with
  | none => simp only [cut_of_notMem hsec, hvalue, Option.map_none]
  | some nsec =>
    have hint := h.2 nsec hnsec
    simp only [cut_append_cons hsec, hvalue, Option.map_some, Option.getD_some,
      atoi_printInt hint.1 hint.2]

theorem TimerText.notMem_text (t : TimerText) : (0 : UInt8) ∉ t.text := by
  have hpart : ∀ part : TimeText, (0 : UInt8) ∉ part.text :=
    TimeText.notMem_text (by decide) (by decide) (by decide)
  rw [TimerText.text]
  split
  · exact hpart t.value
  · rw [List.mem_append, List.mem_cons, not_or, not_or]
    exact ⟨hpart t.value, by decide, hpart _⟩

/-- **The format**: what is printed is read back, whichever parts are omitted; what is in front of
the first colon alone makes the value, so that the value has no nanoseconds if there is no `/` in
front of it; and no block of memory but the duplicate is written to. -/
theorem itimerspecFromStr_inverts (hnew : new ≠ strp.block) :
    (∀ t rest, TimerText.IsInt t → mem.behind strp = t.text ++ 0 :: rest →
      (itimerspecFromStr mem strp new).2 = t.itimerspec) ∧
    (∀ v s rest, (0 : UInt8) ∉ v ++ colon :: s → colon ∉ v →
      mem.behind strp = v ++ colon :: s ++ 0 :: rest →
      (itimerspecFromStr mem strp new).2.it_value = timespecOf v ∧
        (slash ∉ v → (itimerspecFromStr mem strp new).2.it_value.tv_nsec = 0)) ∧
    (itimerspecFromStr mem strp new).1 strp.block = mem strp.block := by
  refine ⟨?_, ?_, itimerspecFromStr_of_ne mem strp new hnew.symm⟩
  · intro t rest hint h
    have hcolon : colon ∉ t.value.text :=
      TimeText.notMem_text (by decide) (by decide) (by decide) t.value
    rw [itimerspecFromStr_eq mem strp new t.notMem_text h, TimerText.itimerspec, TimerText.text]
    cases hinterval : t.interval with
    | none =>
      simp only [cut_of_notMem hcolon, TimeText.timespecOf_text hint.1, Option.map_none]
    | some interval =>
      simp only [cut_append_cons hcolon, TimeText.timespecOf_text hint.1, Option.map_some,
        TimeText.timespecOf_text (hint.2 interval hinterval)]
  · intro v s rest hs hv h
    have heq : (itimerspecFromStr mem strp new).2.it_value = timespecOf v := by
      rw [itimerspecFromStr_eq mem strp new hs h, cut_append_cons hv]
    refine ⟨heq, fun hslash => ?_⟩
    rw [heq, timespecOf, cut_of_notMem hslash]
    rfl

/-- "1/2:3", at the beginning of block 0. -/
theorem itimerspecFromStr_inverts_three :
    (itimerspecFromStr (fun _ => [49, 47, 50, 58, 51, 0]) ⟨0, 0⟩ 1).2 = ⟨⟨1, 2⟩, ⟨3, 0⟩⟩ :=
  (itimerspecFromStr_inverts (fun _ => [49, 47, 50, 58, 51, 0]) ⟨0, 0⟩ 1 (by decide)).1
    ⟨⟨1, some 2⟩, some ⟨3, none⟩⟩ []
    ⟨⟨by decide, fun _ h => Option.some.inj h ▸ by decide⟩,
      fun _ h => Option.some.inj h ▸ ⟨by decide, nofun⟩⟩ rfl

end

end Tlpi.ItimerspecFromStr
