/-
The **numeral layer**: the subject sequence of the C `strtol` family, over byte
strings. Nothing here is about this repository.

`scan base s` is the C standard's description, in its order: leading white space, an
optional sign, an optional `0x` where the base allows it (only in front of a
hexadecimal digit), then as many digits of the base as there are. What it returns is
the numeral *as a numeral*, its sign and its digits, together with the text after it;
the saturation of `strtoll` and the reduction modulo `2^64` of `strtoull` are put on
top, so that "the number the text denotes" can be said without either.

`scan_ten_split` and `scan_ten_of` say what a decimal numeral at the start of a text is,
in both directions, and everything else about `scan` is read off them. The two facts
about cutting the text short are what a fixed-size buffer in front of the conversion
asks for: a beginning of the text denotes a numeral of the same sign with fewer digits
(`scan_beginning`), and one that still holds the whole numeral denotes the same one
(`scan_cut`).
-/
import Mathlib.Data.List.TakeWhile
import Mathlib.Data.List.Infix
import Mathlib.Tactic.NormNum
import Mathlib.Tactic.Ring

set_option autoImplicit false

namespace Tlpi.Strtol

/-! ## Characters -/

/-- `isspace()` in the C locale. -/
def isspace (c : UInt8) : Bool := c == 32 || (9 ≤ c && c ≤ 13)

/-- The value of a digit or letter. -/
def digitVal (c : UInt8) : Option ℕ :=
  if 48 ≤ c && c ≤ 57 then some (c.toNat - 48)
  else if 97 ≤ c && c ≤ 122 then some (c.toNat - 87)
  else if 65 ≤ c && c ≤ 90 then some (c.toNat - 55)
  else none

/-- The value of a digit of the given base. -/
def digitIn (base : ℕ) (c : UInt8) : Option ℕ :=
  (digitVal c).filter fun d => decide (d < base)

/-! ## Numerals -/

/-- The longest run of digits of the base, and the text after it. -/
def takeDigits (base : ℕ) : List UInt8 → List ℕ × List UInt8
  | [] => ([], [])
  | c :: cs =>
    match digitIn base c with
    | some d => (d :: (takeDigits base cs).1, (takeDigits base cs).2)
    | none => ([], c :: cs)

/-- The number a run of digits stands for. -/
def digitsValue (base : ℕ) (ds : List ℕ) : ℕ := ds.foldl (fun acc d => acc * base + d) 0

/-- A numeral found at the start of a text: sign, base, digits, and the text after it. -/
structure Numeral where
  neg : Bool
  base : ℕ
  digits : List ℕ
  rest : List UInt8
deriving Repr, DecidableEq

/-- The integer the numeral denotes. -/
def Numeral.int (n : Numeral) : ℤ :=
  if n.neg then -(digitsValue n.base n.digits : ℤ) else digitsValue n.base n.digits

/-- An optional sign. -/
def scanSign : List UInt8 → Bool × List UInt8
  | 45 :: cs => (true, cs)
  | 43 :: cs => (false, cs)
  | cs => (false, cs)

/-- The base that is used, and the text the digits start at: `0x` is skipped for base 16
and base 0 when a hexadecimal digit follows, and base 0 reads `0` as octal. -/
def scanBase (base : ℕ) (s : List UInt8) : ℕ × List UInt8 :=
  match s with
  | 48 :: x :: c :: cs =>
    if (base = 16 ∨ base = 0) ∧ (x = 120 ∨ x = 88) ∧ (digitIn 16 c).isSome then (16, c :: cs)
    else if base = 0 then (8, s) else (base, s)
  | 48 :: _ => if base = 0 then (8, s) else (base, s)
  | _ => if base = 0 then (10, s) else (base, s)

/-- The numeral at the start of a text, if there is one. -/
def scan (base : ℕ) (s : List UInt8) : Option Numeral :=
  let signed := scanSign (s.dropWhile isspace)
  let based := scanBase base signed.2
  let digits := takeDigits based.1 based.2
  if digits.1 = [] then none
  else some { neg := signed.1, base := based.1, digits := digits.1, rest := digits.2 }

@[simp] theorem scan_nil (base : ℕ) : scan base [] = none := by
  have hbase : (scanBase base []).2 = [] := by
    simp only [scanBase]
    split <;> rfl
  simp only [scan, List.dropWhile_nil, scanSign, hbase, takeDigits, if_true]

/-! ## `strtoll`, `strtoull`, `atoi` -/

abbrev LLONG_MAX : ℤ := 9223372036854775807
abbrev LLONG_MIN : ℤ := -9223372036854775808
abbrev ULLONG_MAX : ℕ := 18446744073709551615
abbrev INT_MAX : ℤ := 2147483647
abbrev INT_MIN : ℤ := -2147483648

/-- What a conversion leaves: the value, `endptr` (as the text it points to, and whether
it moved), and whether `errno` was set to `ERANGE`. -/
structure Conv (α : Type) where
  value : α
  rest : List UInt8
  moved : Bool
  erange : Bool
deriving Repr, DecidableEq

/-- `strtoll(s, &endptr, base)`: saturated at the ends of the range. -/
def strtoll (base : ℕ) (s : List UInt8) : Conv ℤ :=
  match scan base s with
  | none => { value := 0, rest := s, moved := false, erange := false }
  | some n =>
    if n.int > LLONG_MAX then { value := LLONG_MAX, rest := n.rest, moved := true, erange := true }
    else if n.int < LLONG_MIN then
      { value := LLONG_MIN, rest := n.rest, moved := true, erange := true }
    else { value := n.int, rest := n.rest, moved := true, erange := false }

theorem strtoll_of_none {base : ℕ} {s : List UInt8} (h : scan base s = none) :
    strtoll base s = { value := 0, rest := s, moved := false, erange := false } := by
  simp only [strtoll, h]

theorem strtoll_of_range {base : ℕ} {s : List UInt8} {n : Numeral} (h : scan base s = some n)
    (hr : LLONG_MIN ≤ n.int ∧ n.int ≤ LLONG_MAX) :
    strtoll base s = { value := n.int, rest := n.rest, moved := true, erange := false } := by
  simp only [strtoll, h, if_neg (show ¬n.int > LLONG_MAX by omega),
    if_neg (show ¬n.int < LLONG_MIN by omega)]

theorem strtoll_erange {base : ℕ} {s : List UInt8} {n : Numeral} (h : scan base s = some n)
    (hr : ¬(LLONG_MIN ≤ n.int ∧ n.int ≤ LLONG_MAX)) : (strtoll base s).erange = true := by
  simp only [strtoll, h]
  split
  · rfl
  · rw [if_pos (by omega)]

/-- `strtoull(s, &endptr, base)`: the magnitude saturates, and a minus sign negates it
modulo `2^64`. -/
def strtoull (base : ℕ) (s : List UInt8) : Conv ℕ :=
  match scan base s with
  | none => { value := 0, rest := s, moved := false, erange := false }
  | some n =>
    let mag := digitsValue n.base n.digits
    if mag > ULLONG_MAX then
      { value := ULLONG_MAX, rest := n.rest, moved := true, erange := true }
    else { value := if n.neg then (2 ^ 64 - mag) % 2 ^ 64 else mag, rest := n.rest, moved := true,
           erange := false }

/-- The conversion of a 64-bit value to a 32-bit `int`: the low 32 bits. -/
def toInt32 (v : ℤ) : ℤ := (BitVec.ofInt 32 v).toInt

/-- `atoi(s)`, which on an LP64 system is `(int) strtol(s, NULL, 10)`. -/
def atoi (s : List UInt8) : ℤ := toInt32 (strtoll 10 s).value

theorem toInt32_of_range {v : ℤ} (hlo : INT_MIN ≤ v) (hhi : v ≤ INT_MAX) : toInt32 v = v := by
  rw [toInt32, BitVec.toInt_ofInt]
  apply Int.bmod_eq_of_le <;> simp only [INT_MIN, INT_MAX] at hlo hhi <;> omega

/-! ## Digits -/

/-- A text whose first character, if any, is not a digit. -/
def NoDigit (base : ℕ) (s : List UInt8) : Prop := ∀ c, s.head? = some c → digitIn base c = none

theorem takeDigits_append {base : ℕ} {ds : List ℕ} : ∀ {text rest : List UInt8},
    text.map (digitIn base) = ds.map some →
      takeDigits base (text ++ rest)
        = (ds ++ (takeDigits base rest).1, (takeDigits base rest).2) := by
  induction ds with
  | nil =>
    intro text rest h
    rw [List.map_nil, List.map_eq_nil_iff] at h
    rw [h]
    rfl
  | cons d ds ih =>
    intro text rest h
    cases text with
    | nil => exact nomatch h
    | cons c text =>
      rw [List.map_cons, List.map_cons, List.cons.injEq] at h
      simp only [List.cons_append, takeDigits, h.1, ih h.2]

theorem takeDigits_noDigit {base : ℕ} {rest : List UInt8} (h : NoDigit base rest) :
    takeDigits base rest = ([], rest) := by
  cases rest with
  | nil => rfl
  | cons c cs => simp only [takeDigits, h c rfl]

/-- The run of digits in front of the rest, as text. -/
theorem takeDigits_split (base : ℕ) : ∀ s : List UInt8,
    NoDigit base (takeDigits base s).2 ∧
      ∃ text, s = text ++ (takeDigits base s).2 ∧
        text.map (digitIn base) = (takeDigits base s).1.map some := by
  intro s
  induction s with
  | nil => exact ⟨nofun, [], rfl, rfl⟩
  | cons c cs ih =>
    obtain ⟨hno, text, hs, hmap⟩ := ih
    cases hd : digitIn base c with
    | some d =>
      simp only [takeDigits, hd]
      exact ⟨hno, c :: text, by rw [List.cons_append, ← hs], by rw [List.map_cons, hd, hmap]; rfl⟩
    | none =>
      simp only [takeDigits, hd]
      refine ⟨?_, [], rfl, rfl⟩
      rintro c' hc'
      rw [List.head?_cons, Option.some.injEq] at hc'
      rw [← hc', hd]

theorem digitsValue_append (base : ℕ) (xs ys : List ℕ) :
    digitsValue base (xs ++ ys)
      = digitsValue base xs * base ^ ys.length + digitsValue base ys := by
  have hfold : ∀ (ys : List ℕ) (acc : ℕ),
      ys.foldl (fun acc d => acc * base + d) acc
        = acc * base ^ ys.length + ys.foldl (fun acc d => acc * base + d) 0 := by
    intro ys
    induction ys with
    | nil => intro acc; simp only [List.foldl_nil, List.length_nil, pow_zero, mul_one, add_zero]
    | cons y ys ih =>
      intro acc
      rw [List.foldl_cons, List.foldl_cons, ih (acc * base + y), ih (0 * base + y),
        List.length_cons, pow_succ]
      ring
  rw [digitsValue, List.foldl_append, hfold]
  rfl

/-- Fewer digits, no larger a number. -/
theorem digitsValue_le_of_isPrefix {base : ℕ} (hb : 0 < base) {xs ys : List ℕ} (h : xs <+: ys) :
    digitsValue base xs ≤ digitsValue base ys := by
  obtain ⟨zs, rfl⟩ := h
  rw [digitsValue_append]
  calc digitsValue base xs = digitsValue base xs * 1 := (Nat.mul_one _).symm
    _ ≤ digitsValue base xs * base ^ zs.length :=
        Nat.mul_le_mul_left _ (Nat.one_le_pow _ _ hb)
    _ ≤ _ := Nat.le_add_right _ _

/-! ## What a decimal numeral is -/

/-- The text of a sign. -/
inductive SignText : Bool → List UInt8 → Prop
  | none : SignText false []
  | plus : SignText false [43]
  | minus : SignText true [45]

theorem digitIn_ten_isSome {c : UInt8} (h : (digitIn 10 c).isSome) : 48 ≤ c.toNat ∧ c.toNat ≤ 57 := by
  unfold digitIn digitVal at h
  split at h
  · rename_i hc
    simp only [Bool.and_eq_true, decide_eq_true_eq, UInt8.le_iff_toNat_le] at hc
    exact hc
  · split at h
    · rename_i hc
      simp only [Bool.and_eq_true, decide_eq_true_eq, UInt8.le_iff_toNat_le] at hc
      have h97 : (97 : UInt8).toNat = 97 := rfl
      rw [Option.filter_some, if_neg (by rw [decide_eq_true_eq]; omega)] at h
      exact nomatch h
    · split at h
      · rename_i hc
        simp only [Bool.and_eq_true, decide_eq_true_eq, UInt8.le_iff_toNat_le] at hc
        have h65 : (65 : UInt8).toNat = 65 := rfl
        rw [Option.filter_some, if_neg (by rw [decide_eq_true_eq]; omega)] at h
        exact nomatch h
      · exact nomatch h

theorem isspace_iff {c : UInt8} : isspace c = true ↔ c.toNat = 32 ∨ (9 ≤ c.toNat ∧ c.toNat ≤ 13) := by
  have h9 : (9 : UInt8).toNat = 9 := rfl
  have h13 : (13 : UInt8).toNat = 13 := rfl
  have h32 : (32 : UInt8).toNat = 32 := rfl
  simp only [isspace, Bool.or_eq_true, beq_iff_eq, Bool.and_eq_true, decide_eq_true_eq,
    UInt8.le_iff_toNat_le, ← UInt8.toNat_inj, h9, h13, h32]

@[simp] theorem scanBase_ten (s : List UInt8) : scanBase 10 s = (10, s) := by
  unfold scanBase
  split <;> simp

/-- A decimal numeral inside a text: white space, a sign, at least one digit. -/
structure IsNumeral (n : Numeral) (ws sign text : List UInt8) : Prop where
  base : n.base = 10
  space : ∀ c ∈ ws, isspace c = true
  sign : SignText n.neg sign
  digits : text.map (digitIn 10) = n.digits.map some
  nonempty : n.digits ≠ []

theorem IsNumeral.text_ne_nil {n : Numeral} {ws sign text : List UInt8}
    (h : IsNumeral n ws sign text) : text ≠ [] := by
  rintro rfl
  have hd := h.digits
  rw [List.map_nil, eq_comm, List.map_eq_nil_iff] at hd
  exact h.nonempty hd

theorem isDigit_of_mem {text : List UInt8} {ds : List ℕ}
    (h : text.map (digitIn 10) = ds.map some) {c : UInt8} (hc : c ∈ text) :
    48 ≤ c.toNat ∧ c.toNat ≤ 57 := by
  apply digitIn_ten_isSome
  have hmem : digitIn 10 c ∈ ds.map some := h ▸ List.mem_map_of_mem hc
  obtain ⟨d, -, hd⟩ := List.mem_map.mp hmem
  rw [← hd]
  rfl

/-- White space stops at a character that is none. -/
theorem dropWhile_space {ws t : List UInt8} (hws : ∀ c ∈ ws, isspace c = true)
    (ht : ∀ c, t.head? = some c → isspace c = false) : (ws ++ t).dropWhile isspace = t := by
  rw [List.dropWhile_append_of_pos hws]
  cases t with
  | nil => rfl
  | cons c t => rw [List.dropWhile_cons_of_neg (by rw [ht c rfl]; exact Bool.false_ne_true)]

/-- **A text that starts with a numeral scans to it**, whatever comes after, as long as
that is not another digit. -/
theorem scan_ten_of {n : Numeral} {ws sign text : List UInt8} (h : IsNumeral n ws sign text)
    (hrest : NoDigit 10 n.rest) : scan 10 (ws ++ (sign ++ (text ++ n.rest))) = some n := by
  obtain ⟨c, cs, htext⟩ : ∃ c cs, text = c :: cs := List.exists_cons_of_ne_nil h.text_ne_nil
  have hc : 48 ≤ c.toNat ∧ c.toNat ≤ 57 :=
    isDigit_of_mem h.digits (htext ▸ List.mem_cons_self)
  -- neither a sign nor a digit is white space
  have hnospace : ∀ a : UInt8, (a = 43 ∨ a = 45 ∨ (48 ≤ a.toNat ∧ a.toNat ≤ 57)) →
      isspace a = false := by
    rintro a (rfl | rfl | ha)
    · rfl
    · rfl
    · rw [Bool.eq_false_iff, ne_eq, isspace_iff]
      omega
  have hhead : ∀ a, (sign ++ (text ++ n.rest)).head? = some a → isspace a = false := by
    intro a ha
    apply hnospace
    generalize hneg : n.neg = neg at h
    have hsign := h.sign
    rw [hneg] at hsign
    cases hsign with
    | none =>
      rw [List.nil_append, htext, List.cons_append, List.head?_cons, Option.some.injEq] at ha
      exact Or.inr (Or.inr (ha ▸ hc))
    | plus => exact Or.inl (Option.some.inj ha).symm
    | minus => exact Or.inr (Or.inl (Option.some.inj ha).symm)
  have hsigned : scanSign (sign ++ (text ++ n.rest)) = (n.neg, text ++ n.rest) := by
    have hsign := h.sign
    generalize n.neg = neg at hsign
    cases hsign with
    | none =>
      rw [List.nil_append, htext, List.cons_append]
      have h45 : c ≠ 45 := by rintro rfl; exact absurd hc.1 (by decide)
      have h43 : c ≠ 43 := by rintro rfl; exact absurd hc.1 (by decide)
      unfold scanSign
      split
      · rename_i heq; exact absurd (List.cons.inj heq).1 h45
      · rename_i heq; exact absurd (List.cons.inj heq).1 h43
      · rfl
    | plus => rfl
    | minus => rfl
  have hdigits : takeDigits 10 (text ++ n.rest) = (n.digits, n.rest) := by
    rw [takeDigits_append h.digits, takeDigits_noDigit hrest, List.append_nil]
  rw [scan, dropWhile_space h.space hhead]
  simp only [hsigned, scanBase_ten, hdigits, if_neg h.nonempty]
  rw [← h.base]

/-- **What scans to a numeral starts with it.** -/
theorem scan_ten_split {s : List UInt8} {n : Numeral} (h : scan 10 s = some n) :
    NoDigit 10 n.rest ∧ ∃ ws sign text, s = ws ++ (sign ++ (text ++ n.rest)) ∧
      IsNumeral n ws sign text := by
  unfold scan at h
  simp only [scanBase_ten] at h
  split at h
  · exact nomatch h
  · rename_i hne
    rw [Option.some.injEq] at h
    obtain ⟨hno, text, htext, hmap⟩ := takeDigits_split 10 (scanSign (s.dropWhile isspace)).2
    have hsign : ∃ sign, s.dropWhile isspace = sign ++ (scanSign (s.dropWhile isspace)).2 ∧
        SignText (scanSign (s.dropWhile isspace)).1 sign := by
      generalize s.dropWhile isspace = t
      unfold scanSign
      split
      · exact ⟨[45], rfl, .minus⟩
      · exact ⟨[43], rfl, .plus⟩
      · exact ⟨[], rfl, .none⟩
    obtain ⟨sign, hs, hsign⟩ := hsign
    subst h
    refine ⟨hno, s.takeWhile isspace, sign, text, ?_, rfl, ?_, hsign, hmap, hne⟩
    · rw [← htext, ← hs, List.takeWhile_append_dropWhile]
    · intro c hc
      exact List.mem_takeWhile_imp hc

/-- A beginning of a text has a numeral only if the text has one, of the same sign and
with at least its digits. -/
theorem scan_beginning {p s : List UInt8} (hp : p <+: s) {n : Numeral} (h : scan 10 p = some n) :
    ∃ m, scan 10 s = some m ∧ m.neg = n.neg ∧ m.base = 10 ∧ n.base = 10 ∧
      n.digits <+: m.digits := by
  obtain ⟨q, rfl⟩ := hp
  obtain ⟨hno, ws, sign, text, hsplit, hnum⟩ := scan_ten_split h
  obtain ⟨hno', text', hq, hmap'⟩ := takeDigits_split 10 (n.rest ++ q)
  generalize takeDigits 10 (n.rest ++ q) = more at hno' hq hmap'
  have hs : p ++ q = ws ++ (sign ++ ((text ++ text') ++ more.2)) := by
    rw [hsplit, List.append_assoc text, ← hq]
    simp only [List.append_assoc]
  refine ⟨⟨n.neg, 10, n.digits ++ more.1, more.2⟩, ?_, rfl, rfl, hnum.base,
    List.prefix_append _ _⟩
  rw [hs]
  refine scan_ten_of (n := ⟨n.neg, 10, n.digits ++ more.1, more.2⟩)
    ⟨rfl, hnum.space, hnum.sign, ?_, ?_⟩ hno'
  · rw [List.map_append, List.map_append, hnum.digits, hmap']
  · intro hnil
    exact hnum.nonempty (List.append_eq_nil_iff.mp hnil).1

/-- The number of bytes a numeral takes, white space and sign included. -/
def numeralLength (s : List UInt8) (n : Numeral) : ℕ := s.length - n.rest.length

/-- **A numeral is not changed by cutting the text after it**, at a length or at the first
NUL, as a fixed-size buffer and a C string do. -/
theorem scan_cut {s : List UInt8} {n : Numeral} (h : scan 10 s = some n) {k : ℕ}
    (hk : numeralLength s n ≤ k) :
    ∃ r, scan 10 ((s.take k).takeWhile (· ≠ 0)) = some { n with rest := r } := by
  obtain ⟨hno, ws, sign, text, hsplit, hnum⟩ := scan_ten_split h
  set pre := ws ++ (sign ++ text) with hpre
  have hs : s = pre ++ n.rest := by
    rw [hsplit, hpre]
    simp only [List.append_assoc]
  have hlen : pre.length ≤ k := by
    rw [numeralLength, hs, List.length_append] at hk
    omega
  have hnul : ∀ c ∈ pre, decide (c ≠ 0) = true := by
    intro c hc
    rw [decide_eq_true_eq]
    rintro rfl
    rw [hpre, List.mem_append, List.mem_append] at hc
    rcases hc with hc | hc | hc
    · exact absurd (hnum.space _ hc) (by decide)
    · have hsign := hnum.sign
      generalize n.neg = neg at hsign
      cases hsign with
      | none => exact nomatch hc
      | plus => exact absurd hc (by decide)
      | minus => exact absurd hc (by decide)
    · exact absurd (isDigit_of_mem hnum.digits hc).1 (by decide)
  set r := (n.rest.take (k - pre.length)).takeWhile (· ≠ 0) with hr
  have hcut : (s.take k).takeWhile (· ≠ 0) = ws ++ (sign ++ (text ++ r)) := by
    rw [hs, List.take_append, List.take_of_length_le hlen, List.takeWhile_append_of_pos hnul, ← hr,
      hpre]
    simp only [List.append_assoc]
  refine ⟨r, ?_⟩
  rw [hcut]
  refine scan_ten_of (n := { n with rest := r })
    ⟨hnum.base, hnum.space, hnum.sign, hnum.digits, hnum.nonempty⟩ ?_
  -- what is left still starts as the old rest did, or is empty
  intro c hc
  apply hno c
  obtain ⟨t, ht⟩ : r <+: n.rest := (List.takeWhile_prefix _).trans (List.take_prefix _ _)
  cases hrr : r with
  | nil => rw [hrr] at hc; exact nomatch hc
  | cons a as =>
    rw [hrr] at hc
    rw [← ht, hrr, List.cons_append]
    exact hc

/-! ## `atoi` -/

/-- A numeral that fits an `int` is converted to what it denotes. -/
theorem atoi_of_scan {s : List UInt8} {n : Numeral} (h : scan 10 s = some n)
    (hlo : INT_MIN ≤ n.int) (hhi : n.int ≤ INT_MAX) : atoi s = n.int := by
  have hrange : LLONG_MIN ≤ n.int ∧ n.int ≤ LLONG_MAX :=
    ⟨le_trans (by decide) hlo, le_trans hhi (by decide)⟩
  rw [atoi, strtoll_of_range h hrange, toInt32_of_range hlo hhi]

theorem atoi_of_scan_none {s : List UInt8} (h : scan 10 s = none) : atoi s = 0 := by
  rw [atoi, strtoll_of_none h]
  rfl

end Tlpi.Strtol
