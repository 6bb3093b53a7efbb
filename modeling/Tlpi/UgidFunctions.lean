/-
`users_groups/ugid_functions.c`: user and group names as user and group IDs.

"As a convenience to caller", a numeric string is taken for the ID itself. It goes through `strtol()`,
which saturates at the ends of a 64-bit `long`, and from there into a 32-bit `uid_t`, which keeps the
low half of it; neither is checked. So the number that was written is the ID that is returned only
as long as it fits (`convertId_eq_iff`).

The databases of users and groups are given, each as what is found under a name.
-/
import Tlpi.Decimal

set_option autoImplicit false

namespace Tlpi.UgidFunctions

open Tlpi.Decimal Tlpi.Strtol

/-! ## 1. The functions -/

/-- `uid_t` and `gid_t` -/
abbrev Id := BitVec 32

/-- `(uid_t) -1`, which the functions return on error. -/
abbrev noId : Id := -1

/-- What `getpwnam()` and `getgrnam()` find: `pw_uid` and `gr_gid`. -/
structure Names where
  getpwnam : List UInt8 → Option Id
  getgrnam : List UInt8 → Option Id

/-- The body that the two functions share. A string is what stands in front of its null byte, `none`
is `NULL`. -/
def idFromName (lookup : List UInt8 → Option Id) (name : Option (List UInt8)) : Id :=
  match name with
  | none => noId
  | some [] => noId
  | some (c :: cs) =>
    let res := strtoll 10 (c :: cs)
    if res.rest = [] then BitVec.ofInt 32 res.value
    else
      match lookup (c :: cs) with
      | none => noId
      | some id => id

def userIdFromName (names : Names) : Option (List UInt8) → Id := idFromName names.getpwnam

def groupIdFromName (names : Names) : Option (List UInt8) → Id := idFromName names.getgrnam

/-! ## 2. Numeric strings -/

/-- The text is white space, a sign and digits, the first two optional, and denotes the number. -/
def Denotes (s : List UInt8) (n : ℤ) : Prop :=
  ∃ m ws sign text, IsNumeral m ws sign text ∧ s = ws ++ (sign ++ text) ∧ m.int = n

/-- What becomes of the number on the way through `strtol()` into a `uid_t`. -/
def convertId (n : ℤ) : Id := BitVec.ofInt 32 (max LLONG_MIN (min n LLONG_MAX))

theorem Denotes.scan {s : List UInt8} {n : ℤ} (h : Denotes s n) :
    ∃ m, Strtol.scan 10 s = some m ∧ m.rest = [] ∧ m.int = n := by
  obtain ⟨m, ws, sign, text, hnum, rfl, hint⟩ := h
  have hnum' : IsNumeral { m with rest := [] } ws sign text :=
    ⟨hnum.base, hnum.space, hnum.sign, hnum.digits, hnum.nonempty⟩
  have hscan := scan_ten_of hnum' (show NoDigit 10 [] from nofun)
  rw [List.append_nil] at hscan
  exact ⟨_, hscan, rfl, hint⟩

theorem denotes_iff {s : List UInt8} {n : ℤ} :
    Denotes s n ↔ ∃ m, Strtol.scan 10 s = some m ∧ m.rest = [] ∧ m.int = n := by
  refine ⟨Denotes.scan, ?_⟩
  rintro ⟨m, hscan, hrest, hint⟩
  obtain ⟨-, ws, sign, text, hs, hnum⟩ := scan_ten_split hscan
  rw [hrest, List.append_nil] at hs
  exact ⟨m, ws, sign, text, hnum, hs, hint⟩

theorem Denotes.ne_nil {s : List UInt8} {n : ℤ} (h : Denotes s n) : s ≠ [] := by
  obtain ⟨m, ws, sign, text, hnum, rfl, -⟩ := h
  exact List.append_ne_nil_of_right_ne_nil _
    (List.append_ne_nil_of_right_ne_nil _ hnum.text_ne_nil)

/-- A text denotes one number at most. -/
theorem Denotes.unique {s : List UInt8} {n k : ℤ} (h : Denotes s n) (h' : Denotes s k) : n = k := by
  obtain ⟨m, hscan, -, rfl⟩ := h.scan
  obtain ⟨m', hscan', -, rfl⟩ := h'.scan
  rw [Option.some.inj (hscan.symm.trans hscan')]

theorem denotes_decimal (n : ℕ) : Denotes (decimal n) n := by
  rw [denotes_iff]
  have hscan := scan_printInt n (show NoDigit 10 [] from nofun)
  rw [List.append_nil, printInt, if_neg (by omega), Int.natAbs_natCast] at hscan
  exact ⟨_, hscan, rfl, printed_int _ _⟩

/-- The conversion of `strtol()`: the number, saturated. -/
theorem strtoll_of_scan {s : List UInt8} {m : Numeral} (h : Strtol.scan 10 s = some m) :
    (strtoll 10 s).value = max LLONG_MIN (min m.int LLONG_MAX) ∧ (strtoll 10 s).rest = m.rest := by
  simp only [strtoll, h]
  split
  · exact ⟨by simp only [LLONG_MIN, LLONG_MAX] at *; omega, rfl⟩
  · split
    · exact ⟨by simp only [LLONG_MIN, LLONG_MAX] at *; omega, rfl⟩
    · exact ⟨by simp only [LLONG_MIN, LLONG_MAX] at *; omega, rfl⟩

/-- **A numeric string is not looked up.** -/
theorem idFromName_of_denotes (lookup : List UInt8 → Option Id) {s : List UInt8} {n : ℤ}
    (h : Denotes s n) : idFromName lookup (some s) = convertId n := by
  obtain ⟨m, hscan, hrest, rfl⟩ := h.scan
  obtain ⟨c, cs, rfl⟩ := List.exists_cons_of_ne_nil h.ne_nil
  obtain ⟨hvalue, hend⟩ := strtoll_of_scan hscan
  rw [idFromName]
  simp only [hend, hrest, if_true, hvalue, convertId]

/-! ## 3. Which numbers come through -/

/-- The number is an ID, or it is one of those of which the low half is that of -1. -/
def Survives (n : ℤ) : Prop :=
  (0 ≤ n ∧ n < 2 ^ 32) ∨ LLONG_MAX ≤ n ∨ (LLONG_MIN ≤ n ∧ n % 2 ^ 32 = 2 ^ 32 - 1)

instance (n : ℤ) : Decidable (Survives n) := inferInstanceAs (Decidable (_ ∨ _ ∨ _))

theorem toNat_convertId (n : ℤ) :
    ((convertId n).toNat : ℤ) = max LLONG_MIN (min n LLONG_MAX) % 2 ^ 32 := by
  rw [convertId, BitVec.toNat_ofInt]
  have := Int.emod_nonneg (max LLONG_MIN (min n LLONG_MAX)) (show (2 ^ 32 : ℤ) ≠ 0 by decide)
  push_cast
  omega

theorem convertId_eq_noId_iff (n : ℤ) :
    convertId n = noId ↔ max LLONG_MIN (min n LLONG_MAX) % 2 ^ 32 = 2 ^ 32 - 1 := by
  rw [← toNat_convertId, ← BitVec.toNat_inj]
  have : noId.toNat = 2 ^ 32 - 1 := by decide
  omega

/-- **Which numbers are themselves, if they are an ID at all.** -/
theorem convertId_eq_iff (n : ℤ) :
    (convertId n ≠ noId → ((convertId n).toNat : ℤ) = n) ↔ Survives n := by
  rw [ne_eq, convertId_eq_noId_iff, toNat_convertId, Survives]
  simp only [LLONG_MIN, LLONG_MAX]
  omega

theorem convertId_toNat (id : Id) : convertId id.toNat = id := by
  have hlt := id.isLt
  rw [convertId, show max LLONG_MIN (min (id.toNat : ℤ) LLONG_MAX) = id.toNat by
    simp only [LLONG_MIN, LLONG_MAX]; omega, BitVec.ofInt_natCast, BitVec.ofNat_toNat]
  rfl

end Tlpi.UgidFunctions
