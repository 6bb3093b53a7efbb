/-
`lib/tryGet_num.c`: the numeric argument parser that reports instead of exiting.

`tryGetNum` runs its checks in one `if ... else if` chain: a failed conversion, no digits,
trailing text, and only then the constraints `GN_NONNEG` and `GN_GT_0`. The chain is kept
as it stands, because its shape has a consequence: an argument with trailing text that the
flags forgive takes the third branch and never reaches the fourth.

A C string argument is the bytes in front of its terminator (`none` for a null pointer). The six
routines share one body, `tryGet`, and differ in the name they report, the signedness,
and the range they check before they store the result.
-/
import Tlpi.Strtol

set_option autoImplicit false

namespace Tlpi.TryGetNum

open Tlpi.Strtol

/-! ## Flags and reports -/

abbrev GN_NONNEG : BitVec 32 := 0o1#32
abbrev GN_GT_0 : BitVec 32 := 0o2#32
abbrev TGN_IGN_TRAILGB : BitVec 32 := 0o10#32
abbrev TGN_IGN_TRAILWS : BitVec 32 := 0o20#32
abbrev GN_ANY_BASE : BitVec 32 := 0o100#32
abbrev GN_BASE_8 : BitVec 32 := 0o200#32
abbrev GN_BASE_16 : BitVec 32 := 0o400#32

/-- `flags & bit` as a condition. -/
def isSet (flags bit : BitVec 32) : Bool := flags &&& bit != 0

inductive tgn_t where
  | TGN_SUCCESS
  | TGN_FAILURE
deriving Repr, DecidableEq

/-- The arguments of one `gnWarn()` call: what is printed on `stderr`. -/
structure Warn where
  fname : String
  msg : String
  arg : Option (List UInt8)
  name : Option String
deriving Repr, DecidableEq

/-- `hasNonWhitespace(ptr)` -/
def hasNonWhitespace (s : List UInt8) : Bool := s.any fun c => !isspace c

/-- The base the flags choose; `GN_ANY_BASE` goes first. -/
def baseOf (flags : BitVec 32) : ℕ :=
  if isSet flags GN_ANY_BASE then 0
  else if isSet flags GN_BASE_8 then 8
  else if isSet flags GN_BASE_16 then 16
  else 10

/-! ## The parser -/

/-- `strtoll()` or `strtoull()`; the result is the member of `privres_t` that was
written. -/
def convert (is_unsigned : Bool) (base : ℕ) (s : List UInt8) : Conv ℤ :=
  if is_unsigned then
    let c := strtoull base s
    { value := c.value, rest := c.rest, moved := c.moved, erange := c.erange }
  else strtoll base s

/-- `tryGetNum(fname, arg, flags, name, is_unsigned, out)`: the text of the warning it
prints, or the value it stores. -/
def tryGetNum (arg : Option (List UInt8)) (flags : BitVec 32) (is_unsigned : Bool) :
    Except String ℤ :=
  match arg with
  | none => .error "null or empty string"
  | some [] => .error "null or empty string"
  | some (c :: cs) =>
    if is_unsigned && c == 45 then .error "negative value not allowed for unsigned type"
    else
      let res := convert is_unsigned (baseOf flags) (c :: cs)
      if res.erange then .error "Numerical result out of range"
      else if !res.moved then .error "no digits found"
      else if !res.rest.isEmpty && !isSet flags TGN_IGN_TRAILGB then
        -- this branch ends the chain whether or not it reports anything
        if !isSet flags TGN_IGN_TRAILWS || hasNonWhitespace res.rest then
          .error "nonnumeric characters"
        else .ok res.value
      else if !is_unsigned then
        if isSet flags GN_NONNEG && decide (res.value < 0) then
          .error "negative value not allowed"
        else if isSet flags GN_GT_0 && decide (res.value ≤ 0) then .error "value must be > 0"
        else .ok res.value
      else .ok res.value

/-- What a routine returns: the status, the warning printed, and `*out` (`none` when the
caller passed a null pointer to check the syntax only). -/
structure Result where
  status : tgn_t
  warn : Option Warn
  out : Option ℤ
deriving Repr, DecidableEq

/-- The range a routine checks after the conversion, with the text it reports. -/
structure Range where
  lo : ℤ
  hi : ℤ
  msg : String

/-- The body the six routines share. -/
def tryGet (fname : String) (is_unsigned : Bool) (range : Option Range)
    (arg : Option (List UInt8)) (flags : BitVec 32) (name : Option String) (out : Option ℤ) :
    Result :=
  match tryGetNum arg flags is_unsigned with
  | .error msg => { status := .TGN_FAILURE, warn := some ⟨fname, msg, arg, name⟩, out := out }
  | .ok v =>
    match range.filter fun r => decide (v > r.hi) || decide (v < r.lo) with
    | some r => { status := .TGN_FAILURE, warn := some ⟨fname, r.msg, arg, name⟩, out := out }
    | none => { status := .TGN_SUCCESS, warn := none, out := out.map fun _ => v }

/-- `tryGetLLong(arg, flags, name, out)` -/
def tryGetLLong := tryGet "tryGetLLong" false none

/-- `tryGetLong(arg, flags, name, out)`, with the 64-bit `long` of an LP64 system. -/
def tryGetLong :=
  tryGet "tryGetLong" false (some ⟨LLONG_MIN, LLONG_MAX, "value out of range for 'long'"⟩)

/-- `tryGetInt(arg, flags, name, out)` -/
def tryGetInt :=
  tryGet "tryGetInt" false (some ⟨INT_MIN, INT_MAX, "value out of range for 'int'"⟩)

/-- `tryGetULLong(arg, flags, name, out)`, which reports under its signed sibling's name. -/
def tryGetULLong := tryGet "tryGetLLong" true none

/-- `tryGetULong(arg, flags, name, out)` -/
def tryGetULong :=
  tryGet "tryGetLong" true (some ⟨0, ULLONG_MAX, "value out of range for 'long'"⟩)

/-- `tryGetUInt(arg, flags, name, out)` -/
def tryGetUInt :=
  tryGet "tryGetInt" true (some ⟨0, 4294967295, "value out of range for 'int'"⟩)

/-! ## What is accepted

`TrailOk` and `Constrained` are the two conditions the flags put on an argument: on the text
after the numeral, and on the number. -/

/-- What may stand after the numeral. -/
def TrailOk (flags : BitVec 32) (rest : List UInt8) : Prop :=
  rest = [] ∨ isSet flags TGN_IGN_TRAILGB = true ∨
    (isSet flags TGN_IGN_TRAILWS = true ∧ ∀ c ∈ rest, isspace c = true)

instance (flags : BitVec 32) (rest : List UInt8) : Decidable (TrailOk flags rest) :=
  inferInstanceAs (Decidable (_ ∨ _ ∨ (_ ∧ _)))

/-- What `GN_NONNEG` and `GN_GT_0` ask of the number. -/
def Constrained (flags : BitVec 32) (v : ℤ) : Prop :=
  (isSet flags GN_NONNEG = true → 0 ≤ v) ∧ (isSet flags GN_GT_0 = true → 0 < v)

instance (flags : BitVec 32) (v : ℤ) : Decidable (Constrained flags v) :=
  inferInstanceAs (Decidable ((_ → _) ∧ (_ → _)))

/-- The chain comes to its fourth test, the one of the constraints. -/
def Reaches (flags : BitVec 32) (rest : List UInt8) : Prop :=
  rest = [] ∨ isSet flags TGN_IGN_TRAILGB = true

theorem hasNonWhitespace_eq_false {rest : List UInt8} :
    hasNonWhitespace rest = false ↔ ∀ c ∈ rest, isspace c = true := by
  simp only [hasNonWhitespace, List.any_eq_false, Bool.not_eq_true', Bool.not_eq_false]

/-- The fourth test: the sign of the value. -/
theorem sign_ok_iff {flags : BitVec 32} {value v : ℤ} :
    (if isSet flags GN_NONNEG && decide (value < 0) then Except.error "negative value not allowed"
      else if isSet flags GN_GT_0 && decide (value ≤ 0) then .error "value must be > 0"
      else .ok value) = Except.ok v ↔ value = v ∧ Constrained flags v := by
  by_cases h₁ : isSet flags GN_NONNEG = true ∧ value < 0
  · rw [if_pos (by simpa using h₁)]
    refine ⟨nofun, ?_⟩
    rintro ⟨rfl, hc, -⟩
    have := hc h₁.1
    omega
  · rw [if_neg (by simpa using h₁)]
    by_cases h₂ : isSet flags GN_GT_0 = true ∧ value ≤ 0
    · rw [if_pos (by simpa using h₂)]
      refine ⟨nofun, ?_⟩
      rintro ⟨rfl, -, hc⟩
      have := hc h₂.1
      omega
    · rw [if_neg (by simpa using h₂), Except.ok.injEq]
      refine ⟨?_, And.left⟩
      rintro rfl
      exact ⟨rfl, fun h => by_contra fun hn => h₁ ⟨h, by omega⟩,
        fun h => by_contra fun hn => h₂ ⟨h, by omega⟩⟩

/-- The third and the fourth test, on a conversion that went well. -/
theorem checks_ok_iff {flags : BitVec 32} {is_unsigned : Bool} {value v : ℤ} {rest : List UInt8} :
    (if !rest.isEmpty && !isSet flags TGN_IGN_TRAILGB then
        if !isSet flags TGN_IGN_TRAILWS || hasNonWhitespace rest then
          Except.error "nonnumeric characters"
        else .ok value
      else if !is_unsigned then
        if isSet flags GN_NONNEG && decide (value < 0) then .error "negative value not allowed"
        else if isSet flags GN_GT_0 && decide (value ≤ 0) then .error "value must be > 0"
        else .ok value
      else .ok value) = Except.ok v ↔
    value = v ∧ TrailOk flags rest ∧
      (is_unsigned = false → Reaches flags rest → Constrained flags v) := by
  by_cases hreach : Reaches flags rest
  · -- nothing is left over, or what is left over is ignored: the sign of the value is looked at
    have htrail : TrailOk flags rest := hreach.elim Or.inl fun h => Or.inr (Or.inl h)
    have hskip : ¬((!rest.isEmpty && !isSet flags TGN_IGN_TRAILGB) = true) := by
      rcases hreach with h | h <;> simp [h]
    rw [if_neg hskip]
    cases is_unsigned with
    | true => simp [htrail]
    | false =>
      simp only [Bool.not_false, if_true, htrail, hreach, true_and, forall_const]
      exact sign_ok_iff
  · -- text is left over and not ignored: the constraints are not looked at
    have hrest : rest ≠ [] := fun h => hreach (Or.inl h)
    have hgb : isSet flags TGN_IGN_TRAILGB = false := by
      simpa using fun h => hreach (Or.inr h)
    rw [if_pos (by simp [hrest, hgb])]
    by_cases hws : isSet flags TGN_IGN_TRAILWS = true ∧ ∀ c ∈ rest, isspace c = true
    · have hno : hasNonWhitespace rest = false := hasNonWhitespace_eq_false.mpr hws.2
      rw [if_neg (by simp [hws.1, hno]), Except.ok.injEq]
      exact ⟨fun h => ⟨h, Or.inr (Or.inr hws), fun _ h' => absurd h' hreach⟩, And.left⟩
    · have htrail : ¬TrailOk flags rest := by
        rintro (h | h | h)
        · exact hrest h
        · exact hreach (Or.inr h)
        · exact hws h
      rw [if_pos]
      · exact ⟨nofun, fun h => absurd h.2.1 htrail⟩
      · rw [← hasNonWhitespace_eq_false] at hws
        by_cases h : isSet flags TGN_IGN_TRAILWS = true
        · have := fun h' => hws ⟨h, h'⟩
          simpa [h] using this
        · simp [h]

/-- **What a signed conversion accepts**: a numeral in the range of `long long`, with text
after it that the flags allow; the constraints only where the chain comes to them. -/
theorem tryGetNum_signed_iff {s : List UInt8} {flags : BitVec 32} {v : ℤ} :
    tryGetNum (some s) flags false = .ok v ↔
      ∃ n, scan (baseOf flags) s = some n ∧ n.int = v ∧ (LLONG_MIN ≤ v ∧ v ≤ LLONG_MAX) ∧
        TrailOk flags n.rest ∧ (Reaches flags n.rest → Constrained flags v) := by
  cases s with
  | nil => simp only [tryGetNum, scan_nil, reduceCtorEq, false_and, exists_false]
  | cons c cs =>
    simp only [tryGetNum, convert, Bool.false_and, Bool.false_eq_true, if_false]
    cases hscan : scan (baseOf flags) (c :: cs) with
    | none => simp [strtoll_of_none hscan]
    | some n =>
      simp only [Option.some.injEq, exists_eq_left']
      by_cases hrange : LLONG_MIN ≤ n.int ∧ n.int ≤ LLONG_MAX
      · simp only [strtoll_of_range hscan hrange, Bool.false_eq_true, if_false, Bool.not_true]
        rw [checks_ok_iff]
        constructor
        · rintro ⟨rfl, ht, hc⟩
          exact ⟨rfl, hrange, ht, hc rfl⟩
        · rintro ⟨rfl, -, ht, hc⟩
          exact ⟨rfl, ht, fun _ => hc⟩
      · simp only [strtoll_erange hscan hrange, if_true, reduceCtorEq, false_iff]
        rintro ⟨rfl, hr, -⟩
        exact hrange hr

/-- What `strtoull()` makes of a numeral. -/
def wrapped (n : Numeral) : ℕ :=
  if n.neg then (2 ^ 64 - digitsValue n.base n.digits) % 2 ^ 64 else digitsValue n.base n.digits

/-- **What an unsigned conversion accepts**: the sign is looked for in the first character
only, and the constraints are not looked at. -/
theorem tryGetNum_unsigned_iff {s : List UInt8} {flags : BitVec 32} {v : ℤ} :
    tryGetNum (some s) flags true = .ok v ↔
      s.head? ≠ some 45 ∧ ∃ n, scan (baseOf flags) s = some n ∧ (wrapped n : ℤ) = v ∧
        digitsValue n.base n.digits ≤ ULLONG_MAX ∧ TrailOk flags n.rest := by
  cases s with
  | nil => simp only [tryGetNum, scan_nil, reduceCtorEq, false_and, exists_false, and_false]
  | cons c cs =>
    simp only [tryGetNum, convert, Bool.true_and, if_true, strtoull, List.head?_cons, ne_eq,
      Option.some.injEq]
    by_cases hc : c = 45
    · simp [hc]
    · rw [if_neg (by simpa using hc)]
      simp only [hc, not_false_eq_true, true_and]
      cases scan (baseOf flags) (c :: cs) with
      | none => simp
      | some n =>
        simp only [Option.some.injEq, exists_eq_left']
        by_cases hbig : digitsValue n.base n.digits > ULLONG_MAX
        · simp only [if_pos hbig, if_true, reduceCtorEq, false_iff]
          rintro ⟨-, hle, -⟩
          omega
        · simp only [if_neg hbig, Bool.false_eq_true, if_false]
          rw [if_neg (by decide), ← wrapped, checks_ok_iff]
          exact ⟨fun h => ⟨h.1, by omega, h.2.1⟩, fun h => ⟨h.1, h.2.2, nofun⟩⟩

/-! ## What a success says -/

/-- **A signed conversion that succeeds yields the number the text denotes**: nothing
saturates and nothing is reduced. -/
theorem tryGetNum_signed {s : List UInt8} {flags : BitVec 32} {v : ℤ}
    (h : tryGetNum (some s) flags false = .ok v) :
    ∃ n, scan (baseOf flags) s = some n ∧ n.int = v := by
  obtain ⟨n, hscan, hv, -⟩ := tryGetNum_signed_iff.mp h
  exact ⟨n, hscan, hv⟩

/-- **What `tryGetInt` stores** is what the text denotes, and fits an `int`. -/
theorem tryGetInt_success {s : List UInt8} {flags : BitVec 32} {name : Option String}
    {out : Option ℤ} (h : (tryGetInt (some s) flags name out).status = .TGN_SUCCESS) :
    ∃ n, scan (baseOf flags) s = some n ∧ INT_MIN ≤ n.int ∧ n.int ≤ INT_MAX ∧
      (tryGetInt (some s) flags name out).out = out.map fun _ => n.int := by
  unfold tryGetInt tryGet at h ⊢
  cases hn : tryGetNum (some s) flags false with
  | error msg =>
    simp only [hn] at h
    exact nomatch h
  | ok v =>
    obtain ⟨n, hscan, rfl⟩ := tryGetNum_signed hn
    simp only [hn, Option.filter_some] at h ⊢
    by_cases hr : (decide (n.int > INT_MAX) || decide (n.int < INT_MIN)) = true
    · simp only [if_pos hr, reduceCtorEq] at h
    · simp only [if_neg hr] at h ⊢
      rw [Bool.not_eq_true, Bool.or_eq_false_iff, decide_eq_false_iff_not,
        decide_eq_false_iff_not, not_lt, not_lt] at hr
      exact ⟨n, hscan, hr.2, hr.1, rfl⟩

/-- A failure stores nothing. -/
theorem tryGet_failure {fname : String} {is_unsigned : Bool} {range : Option Range}
    {arg : Option (List UInt8)} {flags : BitVec 32} {name : Option String} {out : Option ℤ}
    (h : (tryGet fname is_unsigned range arg flags name out).status = .TGN_FAILURE) :
    (tryGet fname is_unsigned range arg flags name out).out = out := by
  unfold tryGet at h ⊢
  cases hn : tryGetNum arg flags is_unsigned with
  | error msg => rfl
  | ok v =>
    simp only [hn] at h ⊢
    generalize range.filter _ = bad at h ⊢
    cases bad with
    | none => exact nomatch h
    | some r => rfl

/-! ## The routines

One statement for each half of the family: exactly when a routine is the validator that its
flags describe. -/

/-- A routine succeeds with `v`: it reports success and `*out` is `v`. -/
def Result.Gives (r : Result) (v : ℤ) : Prop := r.status = .TGN_SUCCESS ∧ r.out = some v

/-- The test of the range finds nothing to report. -/
theorem filter_range_eq_none {range : Option Range} {v : ℤ} :
    (range.filter fun r => decide (v > r.hi) || decide (v < r.lo)) = none ↔
      ∀ r ∈ range, r.lo ≤ v ∧ v ≤ r.hi := by
  rw [Option.filter_eq_none_iff]
  refine forall_congr' fun r => imp_congr_right fun _ => ?_
  simp only [Bool.or_eq_true, decide_eq_true_eq]
  omega

theorem tryGet_gives_iff {fname : String} {is_unsigned : Bool} {range : Option Range}
    {arg : Option (List UInt8)} {flags : BitVec 32} {name : Option String} {out v : ℤ} :
    (tryGet fname is_unsigned range arg flags name (some out)).Gives v ↔
      tryGetNum arg flags is_unsigned = .ok v ∧ ∀ r ∈ range, r.lo ≤ v ∧ v ≤ r.hi := by
  unfold tryGet Result.Gives
  cases tryGetNum arg flags is_unsigned with
  | error msg => simp
  | ok w =>
    rw [Except.ok.injEq]
    cases hbad : range.filter fun r => decide (w > r.hi) || decide (w < r.lo) with
    | some r =>
      simp only [hbad, reduceCtorEq, false_and, false_iff]
      rintro ⟨rfl, hrange⟩
      rw [filter_range_eq_none.mpr hrange] at hbad
      exact nomatch hbad
    | none =>
      simp only [hbad, Option.map_some, Option.some.injEq, true_and]
      refine ⟨?_, And.left⟩
      rintro rfl
      exact ⟨rfl, filter_range_eq_none.mp hbad⟩

/-- What the signed routine with range `lo..hi` is to accept as `v`. -/
structure Denotes (flags : BitVec 32) (lo hi : ℤ) (s : List UInt8) (v : ℤ) : Prop where
  numeral : ∃ n, scan (baseOf flags) s = some n ∧ n.int = v ∧ TrailOk flags n.rest
  range : lo ≤ v ∧ v ≤ hi
  constrained : Constrained flags v

/-- The type of the six routines. -/
abbrev Routine := Option (List UInt8) → BitVec 32 → Option String → Option ℤ → Result

/-- A signed routine is right about an argument: it accepts what it is to accept and nothing
else, and a failure stores nothing. -/
structure Validates (routine : Routine) (lo hi : ℤ) (s : List UInt8) (flags : BitVec 32)
    (name : Option String) (out : ℤ) : Prop where
  gives_iff : ∀ v, (routine (some s) flags name (some out)).Gives v ↔ Denotes flags lo hi s v
  failure : (routine (some s) flags name (some out)).status = .TGN_FAILURE →
    (routine (some s) flags name (some out)).out = some out

/-- White space is left over and ignored, so that the constraints are not looked at, and the
number breaks one of them. -/
def Unchecked (flags : BitVec 32) (lo hi : ℤ) (s : List UInt8) : Prop :=
  isSet flags TGN_IGN_TRAILWS = true ∧ isSet flags TGN_IGN_TRAILGB = false ∧
    ∃ n, scan (baseOf flags) s = some n ∧ (n.rest ≠ [] ∧ ∀ c ∈ n.rest, isspace c = true) ∧
      (lo ≤ n.int ∧ n.int ≤ hi) ∧ ¬Constrained flags n.int

/-- A routine that accepts what `tryGetNum` does, in a part of the range of `long long`. -/
theorem validates_iff {routine : Routine} {lo hi : ℤ} {s : List UInt8} {flags : BitVec 32}
    {name : Option String} {out : ℤ} (hlo : LLONG_MIN ≤ lo) (hhi : hi ≤ LLONG_MAX)
    (hgives : ∀ v, (routine (some s) flags name (some out)).Gives v ↔
      tryGetNum (some s) flags false = .ok v ∧ lo ≤ v ∧ v ≤ hi)
    (hfail : (routine (some s) flags name (some out)).status = .TGN_FAILURE →
      (routine (some s) flags name (some out)).out = some out) :
    Validates routine lo hi s flags name out ↔ ¬Unchecked flags lo hi s := by
  constructor
  · rintro hval ⟨hws, hgb, n, hscan, ⟨hne, hsp⟩, hrange, hbad⟩
    have hok : tryGetNum (some s) flags false = .ok n.int := by
      refine tryGetNum_signed_iff.mpr ⟨n, hscan, rfl, ⟨by omega, by omega⟩,
        Or.inr (Or.inr ⟨hws, hsp⟩), ?_⟩
      rintro (h | h)
      · exact absurd h hne
      · rw [hgb] at h
        exact nomatch h
    exact hbad ((hval.gives_iff n.int).mp ((hgives n.int).mpr ⟨hok, hrange⟩)).constrained
  · intro hnot
    refine ⟨fun v => ?_, hfail⟩
    rw [hgives, tryGetNum_signed_iff]
    constructor
    · rintro ⟨⟨n, hscan, rfl, -, htrail, hcon⟩, hrange⟩
      refine ⟨⟨n, hscan, rfl, htrail⟩, hrange, by_contra fun hbad => ?_⟩
      -- a broken constraint means that the chain did not come to it
      have hskip : ¬Reaches flags n.rest := fun h => hbad (hcon h)
      have hne : n.rest ≠ [] := fun h => hskip (Or.inl h)
      rcases htrail with h | h | ⟨hws, hsp⟩
      · exact hne h
      · exact hskip (Or.inr h)
      · refine hnot ⟨hws, ?_, n, hscan, ⟨hne, hsp⟩, hrange, hbad⟩
        rw [Bool.eq_false_iff]
        exact fun h => hskip (Or.inr h)
    · rintro ⟨⟨n, hscan, rfl, htrail⟩, hrange, hcon⟩
      exact ⟨⟨n, hscan, rfl, ⟨by omega, by omega⟩, htrail, fun _ => hcon⟩, hrange⟩

/-- **The signed routines** are right about exactly the arguments whose constraints are
looked at, or hold anyway. -/
theorem tryGet_signed_exact (s : List UInt8) (flags : BitVec 32) (name : Option String) (out : ℤ) :
    (Validates tryGetLLong LLONG_MIN LLONG_MAX s flags name out ↔
        ¬Unchecked flags LLONG_MIN LLONG_MAX s) ∧
      (Validates tryGetLong LLONG_MIN LLONG_MAX s flags name out ↔
        ¬Unchecked flags LLONG_MIN LLONG_MAX s) ∧
      (Validates tryGetInt INT_MIN INT_MAX s flags name out ↔ ¬Unchecked flags INT_MIN INT_MAX s) := by
  refine ⟨validates_iff (by decide) (by decide) (fun v => ?_) tryGet_failure,
    validates_iff (by decide) (by decide) (fun v => ?_) tryGet_failure,
    validates_iff (by decide) (by decide) (fun v => ?_) tryGet_failure⟩
  · -- `tryGetLLong` has no range of its own: `strtoll` has checked it
    rw [tryGetLLong, tryGet_gives_iff]
    refine ⟨fun h => ⟨h.1, ?_⟩, fun h => ⟨h.1, nofun⟩⟩
    obtain ⟨n, -, -, hrange, -⟩ := tryGetNum_signed_iff.mp h.1
    exact hrange
  · rw [tryGetLong, tryGet_gives_iff]
    simp only [Option.mem_def, Option.some.injEq, forall_eq']
  · rw [tryGetInt, tryGet_gives_iff]
    simp only [Option.mem_def, Option.some.injEq, forall_eq']

/-- `tryGetInt("-5 ", GN_NONNEG | TGN_IGN_TRAILWS, ...)` succeeds. -/
theorem tryGetInt_accepts_negative :
    ¬Validates tryGetInt INT_MIN INT_MAX [45, 53, 32] (GN_NONNEG ||| TGN_IGN_TRAILWS) none 7 := by
  intro h
  have hgives : (tryGetInt (some [45, 53, 32]) (GN_NONNEG ||| TGN_IGN_TRAILWS) none (some 7)).Gives
      (-5) := by
    constructor <;> decide
  exact absurd ((h.gives_iff (-5)).mp hgives).constrained (by decide)

/-- An unsigned routine is right about an argument: what it accepts is a number that is not
negative, in range and within the constraints, it is the number that the text denotes, and a
failure stores nothing. -/
structure ValidatesUnsigned (routine : Routine) (hi : ℤ) (s : List UInt8) (flags : BitVec 32)
    (name : Option String) (out : ℤ) : Prop where
  sound : ∀ v, (routine (some s) flags name (some out)).Gives v →
    (∃ n, scan (baseOf flags) s = some n ∧ n.int = v) ∧ (0 ≤ v ∧ v ≤ hi) ∧ Constrained flags v
  negative : ∀ n, scan (baseOf flags) s = some n → n.int < 0 →
    (routine (some s) flags name (some out)).status = .TGN_FAILURE
  failure : (routine (some s) flags name (some out)).status = .TGN_FAILURE →
    (routine (some s) flags name (some out)).out = some out

/-- The argument does not start with its sign, the text after the numeral is allowed, and
the numeral is a negative one that comes into range modulo `2^64`, or a zero under
`GN_GT_0`. -/
def Slips (flags : BitVec 32) (hi : ℤ) (s : List UInt8) : Prop :=
  s.head? ≠ some 45 ∧ ∃ n, scan (baseOf flags) s = some n ∧ TrailOk flags n.rest ∧
    ((-(2 ^ 64) < n.int ∧ n.int < 0 ∧ n.int + 2 ^ 64 ≤ hi) ∨
      (n.int = 0 ∧ isSet flags GN_GT_0 = true))

/-- The value that is stored: the number, or for a negative one the number modulo `2^64`. -/
theorem wrapped_eq (n : Numeral) (h : digitsValue n.base n.digits ≤ ULLONG_MAX) :
    (wrapped n : ℤ) = if n.int < 0 then n.int + 2 ^ 64 else n.int := by
  unfold wrapped Numeral.int
  simp only [ULLONG_MAX] at h
  cases n.neg with
  | false => simp
  | true =>
    simp only [if_true, Left.neg_neg_iff, Nat.cast_pos]
    split <;> omega

theorem digitsValue_le_iff (n : Numeral) :
    digitsValue n.base n.digits ≤ ULLONG_MAX ↔ -(2 ^ 64) < n.int ∧ n.int < 2 ^ 64 := by
  unfold Numeral.int
  simp only [ULLONG_MAX]
  split <;> omega

/-- What is accepted of an argument that does not slip through is the number itself. -/
theorem sound_of_not_slips {s : List UInt8} {flags : BitVec 32} {hi v : ℤ}
    (hnot : ¬Slips flags hi s) (hok : tryGetNum (some s) flags true = .ok v) (hv : 0 ≤ v ∧ v ≤ hi) :
    ∃ n, scan (baseOf flags) s = some n ∧ n.int = v ∧ Constrained flags v := by
  obtain ⟨hsign, n, hscan, hwv, hle, htrail⟩ := tryGetNum_unsigned_iff.mp hok
  have hbound := (digitsValue_le_iff n).mp hle
  rw [wrapped_eq n hle] at hwv
  by_cases hneg : n.int < 0
  · rw [if_pos hneg] at hwv
    exact absurd ⟨hsign, n, hscan, htrail, Or.inl ⟨hbound.1, hneg, by omega⟩⟩ hnot
  · rw [if_neg hneg] at hwv
    refine ⟨n, hscan, hwv, fun _ => hv.1, fun hset => by_contra fun hz => ?_⟩
    exact hnot ⟨hsign, n, hscan, htrail, Or.inr ⟨by omega, hset⟩⟩

/-- A routine that accepts what the unsigned `tryGetNum` does, up to `hi`. -/
theorem validatesUnsigned_iff {routine : Routine} {hi : ℤ} {s : List UInt8} {flags : BitVec 32}
    {name : Option String} {out : ℤ} (hpos : 0 ≤ hi)
    (hgives : ∀ v, (routine (some s) flags name (some out)).Gives v ↔
      tryGetNum (some s) flags true = .ok v ∧ 0 ≤ v ∧ v ≤ hi)
    (hfail : (routine (some s) flags name (some out)).status = .TGN_FAILURE →
      (routine (some s) flags name (some out)).out = some out)
    (hsucc : (routine (some s) flags name (some out)).status = .TGN_SUCCESS →
      ∃ v, (routine (some s) flags name (some out)).Gives v) :
    ValidatesUnsigned routine hi s flags name out ↔ ¬Slips flags hi s := by
  constructor
  · rintro hval ⟨hsign, n, hscan, htrail, hslip⟩
    have hle : digitsValue n.base n.digits ≤ ULLONG_MAX := by
      rw [digitsValue_le_iff]
      rcases hslip with h | h <;> omega
    have hok : tryGetNum (some s) flags true = .ok (wrapped n : ℤ) :=
      tryGetNum_unsigned_iff.mpr ⟨hsign, n, hscan, rfl, hle, htrail⟩
    have hw := wrapped_eq n hle
    have hgiven : (routine (some s) flags name (some out)).Gives (wrapped n) := by
      refine (hgives _).mpr ⟨hok, Int.natCast_nonneg _, ?_⟩
      rcases hslip with h | h <;> split at hw <;> omega
    obtain ⟨⟨m, hm, hmv⟩, -, -, hgt⟩ := hval.sound _ hgiven
    rw [hscan, Option.some.injEq] at hm
    subst hm
    rcases hslip with h | ⟨h, hset⟩
    · rw [if_pos h.2.1] at hw
      omega
    · have := hgt hset
      omega
  · intro hnot
    have hsound : ∀ v, (routine (some s) flags name (some out)).Gives v →
        ∃ n, scan (baseOf flags) s = some n ∧ n.int = v ∧ (0 ≤ v ∧ v ≤ hi) ∧
          Constrained flags v := by
      intro v hv
      obtain ⟨hok, hrange⟩ := (hgives v).mp hv
      obtain ⟨n, hscan, hint, hcon⟩ := sound_of_not_slips hnot hok hrange
      exact ⟨n, hscan, hint, hrange, hcon⟩
    refine ⟨fun v hv => ?_, fun n hscan hneg => ?_, hfail⟩
    · obtain ⟨n, hscan, hint, hrange, hcon⟩ := hsound v hv
      exact ⟨⟨n, hscan, hint⟩, hrange, hcon⟩
    · cases hst : (routine (some s) flags name (some out)).status with
      | TGN_FAILURE => rfl
      | TGN_SUCCESS =>
        obtain ⟨v, hv⟩ := hsucc hst
        obtain ⟨m, hm, hint, hrange, -⟩ := hsound v hv
        rw [hscan, Option.some.injEq] at hm
        subst hm
        omega

/-- A success stores something. -/
theorem tryGet_success {fname : String} {is_unsigned : Bool} {range : Option Range}
    {arg : Option (List UInt8)} {flags : BitVec 32} {name : Option String} {out : ℤ}
    (h : (tryGet fname is_unsigned range arg flags name (some out)).status = .TGN_SUCCESS) :
    ∃ v, (tryGet fname is_unsigned range arg flags name (some out)).Gives v := by
  unfold Result.Gives
  unfold tryGet at h ⊢
  cases hn : tryGetNum arg flags is_unsigned with
  | error msg =>
    simp only [hn] at h
    exact nomatch h
  | ok v =>
    simp only [hn] at h ⊢
    generalize range.filter _ = bad at h ⊢
    cases bad with
    | none => exact ⟨v, rfl, rfl⟩
    | some r => exact nomatch h

/-- **The unsigned routines** are right about exactly the arguments that do not slip
through: their test for a sign stops at the first character, and the constraints are tested
in the signed branch only. -/
theorem tryGet_unsigned_exact (s : List UInt8) (flags : BitVec 32) (name : Option String)
    (out : ℤ) :
    (ValidatesUnsigned tryGetULLong ULLONG_MAX s flags name out ↔ ¬Slips flags ULLONG_MAX s) ∧
      (ValidatesUnsigned tryGetULong ULLONG_MAX s flags name out ↔ ¬Slips flags ULLONG_MAX s) ∧
      (ValidatesUnsigned tryGetUInt 4294967295 s flags name out ↔ ¬Slips flags 4294967295 s) := by
  refine ⟨validatesUnsigned_iff (by decide) (fun v => ?_) tryGet_failure tryGet_success,
    validatesUnsigned_iff (by decide) (fun v => ?_) tryGet_failure tryGet_success,
    validatesUnsigned_iff (by decide) (fun v => ?_) tryGet_failure tryGet_success⟩
  · rw [tryGetULLong, tryGet_gives_iff]
    refine ⟨fun h => ⟨h.1, ?_⟩, fun h => ⟨h.1, nofun⟩⟩
    obtain ⟨-, n, -, hv, hle, -⟩ := tryGetNum_unsigned_iff.mp h.1
    have hw := wrapped_eq n hle
    have hbound := (digitsValue_le_iff n).mp hle
    simp only [ULLONG_MAX] at hle ⊢
    split at hw <;> omega
  · rw [tryGetULong, tryGet_gives_iff]
    simp only [Option.mem_def, Option.some.injEq, forall_eq']
  · rw [tryGetUInt, tryGet_gives_iff]
    simp only [Option.mem_def, Option.some.injEq, forall_eq']

/-- `tryGetUInt(" -18446744073709551615", 0, ...)` succeeds with 1. -/
theorem tryGetUInt_accepts_negative :
    ¬ValidatesUnsigned tryGetUInt 4294967295
      [32, 45, 49, 56, 52, 52, 54, 55, 52, 52, 48, 55, 51, 55, 48, 57, 53, 53, 49, 54, 49, 53] 0
      none 7 := by
  intro h
  have hgives : (tryGetUInt
      (some [32, 45, 49, 56, 52, 52, 54, 55, 52, 52, 48, 55, 51, 55, 48, 57, 53, 53, 49, 54, 49, 53])
      0 none (some 7)).Gives 1 := by
    constructor <;> decide
  obtain ⟨⟨n, hn, hint⟩, -⟩ := h.sound 1 hgives
  revert hint
  rw [show n = ⟨true, 10, [1, 8, 4, 4, 6, 7, 4, 4, 0, 7, 3, 7, 0, 9, 5, 5, 1, 6, 1, 5], []⟩ from
    (Option.some.inj (hn.symm.trans (by decide)))]
  decide

end Tlpi.TryGetNum
