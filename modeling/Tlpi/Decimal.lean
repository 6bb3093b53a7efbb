/-
The **printing layer**: integers in decimal, as `%d` prints them, and that `strtol()` and `atoi()`
read them back. Nothing here is about this repository.

The digits are those of `Nat.digits`, the most significant first; zero has one digit. What is proved
about the text is that it is the text of a numeral in the sense of `Strtol`, from which follow both
what a conversion makes of it and which characters cannot be in it.
-/
import Mathlib.Data.Nat.Digits.Defs
import Tlpi.Strtol

set_option autoImplicit false

namespace Tlpi.Decimal

open Tlpi.Strtol

/-- The decimal digits, the most significant first. -/
def decimalDigits (n : ℕ) : List ℕ := if n = 0 then [0] else (Nat.digits 10 n).reverse

def digitChar (d : ℕ) : UInt8 := UInt8.ofNat (48 + d)

/-- A natural number in decimal. -/
def decimal (n : ℕ) : List UInt8 := (decimalDigits n).map digitChar

/-- An integer as `%d` prints it. -/
def printInt (i : ℤ) : List UInt8 := if i < 0 then 45 :: decimal i.natAbs else decimal i.natAbs

theorem decimalDigits_ne_nil (n : ℕ) : decimalDigits n ≠ [] := by
  rw [decimalDigits]
  split
  · exact List.cons_ne_nil _ _
  · rename_i hn
    rw [ne_eq, List.reverse_eq_nil_iff, Nat.digits_eq_nil_iff_eq_zero]
    exact hn

theorem decimalDigits_lt {n d : ℕ} (h : d ∈ decimalDigits n) : d < 10 := by
  rw [decimalDigits] at h
  split at h
  · rw [List.mem_singleton.mp h]
    decide
  · exact Nat.digits_lt_base (by decide) (List.mem_reverse.mp h)

/-- The digits from the front are the digits of `Nat.ofDigits` from the back. -/
theorem digitsValue_reverse (base : ℕ) (ds : List ℕ) :
    digitsValue base ds.reverse = Nat.ofDigits base ds := by
  induction ds with
  | nil => rfl
  | cons d ds ih =>
    rw [List.reverse_cons, digitsValue_append, ih, Nat.ofDigits_cons, List.length_singleton, pow_one]
    rw [digitsValue, List.foldl_cons, List.foldl_nil]
    ring

theorem digitsValue_decimalDigits (n : ℕ) : digitsValue 10 (decimalDigits n) = n := by
  rw [decimalDigits]
  split
  · rename_i hn
    rw [hn]
    rfl
  · rw [digitsValue_reverse, Nat.ofDigits_digits]

theorem digitIn_digitChar : ∀ d < 10, digitIn 10 (digitChar d) = some d := by decide

theorem map_digitIn_decimal (n : ℕ) : (decimal n).map (digitIn 10) = (decimalDigits n).map some := by
  rw [decimal, List.map_map]
  refine List.map_congr_left fun d hd => ?_
  exact digitIn_digitChar d (decimalDigits_lt hd)

/-- The numeral that a printed integer is, with the text behind it. -/
def printed (i : ℤ) (rest : List UInt8) : Numeral :=
  ⟨decide (i < 0), 10, decimalDigits i.natAbs, rest⟩

@[simp] theorem printed_int (i : ℤ) (rest : List UInt8) : (printed i rest).int = i := by
  rw [Numeral.int, printed]
  simp only [decide_eq_true_eq, digitsValue_decimalDigits]
  split <;> omega

/-- A printed integer is a numeral. -/
theorem isNumeral_printInt (i : ℤ) (rest : List UInt8) :
    ∃ sign, printInt i = sign ++ decimal i.natAbs ∧
      IsNumeral (printed i rest) [] sign (decimal i.natAbs) := by
  rw [printInt]
  by_cases hi : i < 0
  · refine ⟨[45], if_pos hi, rfl, nofun, ?_, map_digitIn_decimal _, decimalDigits_ne_nil _⟩
    rw [printed, decide_eq_true hi]
    exact .minus
  · refine ⟨[], if_neg hi, rfl, nofun, ?_, map_digitIn_decimal _, decimalDigits_ne_nil _⟩
    rw [printed, decide_eq_false hi]
    exact .none

/-- **What is printed is read back**, if no digit follows. -/
theorem scan_printInt (i : ℤ) {rest : List UInt8} (h : NoDigit 10 rest) :
    scan 10 (printInt i ++ rest) = some (printed i rest) := by
  obtain ⟨sign, htext, hnum⟩ := isNumeral_printInt i rest
  have hscan := scan_ten_of hnum h
  rw [htext, List.append_assoc]
  exact hscan

theorem atoi_printInt {i : ℤ} (hlo : INT_MIN ≤ i) (hhi : i ≤ INT_MAX) : atoi (printInt i) = i := by
  have hscan := scan_printInt i (show NoDigit 10 [] from nofun)
  rw [List.append_nil] at hscan
  rw [atoi_of_scan hscan (by rwa [printed_int]) (by rwa [printed_int]), printed_int]

theorem isDigit_of_mem_decimal {n : ℕ} {c : UInt8} (h : c ∈ decimal n) :
    48 ≤ c.toNat ∧ c.toNat ≤ 57 := isDigit_of_mem (map_digitIn_decimal n) h

/-- Only digits and a minus sign are printed. -/
theorem mem_printInt {i : ℤ} {c : UInt8} (h : c ∈ printInt i) :
    c = 45 ∨ (48 ≤ c.toNat ∧ c.toNat ≤ 57) := by
  rw [printInt] at h
  split at h
  · rcases List.mem_cons.mp h with h | h
    · exact .inl h
    · exact .inr (isDigit_of_mem_decimal h)
  · exact .inr (isDigit_of_mem_decimal h)

end Tlpi.Decimal
