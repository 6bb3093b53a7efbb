/-
`lib/get_num.c`: the numeric argument parser that ends the program on a bad argument, and
its agreement with the one that reports, of `TryGetNum.lean`.

The two files were written apart. `getNum` has no test for "no digits": it relies on
`strtoll()` leaving `endptr` at the start of a string that is not empty, so that the test for
trailing characters catches it. Its tests follow one another, where `tryGetNum` has one
`else if` chain. Without the two flags that only `tryGetNum` knows, the chain comes to its
last test for every argument with nothing after the numeral, and the two accept the same
arguments, with the same values.
-/
import Tlpi.TryGetNum

set_option autoImplicit false

namespace Tlpi.GetNum

open Tlpi.Strtol Tlpi.TryGetNum

/-! ## The source -/

/-- The arguments of the `gnFail()` call that ends the program. -/
structure Fail where
  fname : String
  msg : String
  arg : Option (List UInt8)
  name : Option String
deriving Repr, DecidableEq

/-- `getNum(fname, arg, flags, name)`: the text of the message it ends with, or the result. -/
def getNum (arg : Option (List UInt8)) (flags : BitVec 32) : Except String ℤ :=
  match arg with
  | none => .error "null or empty string"
  | some [] => .error "null or empty string"
  | some (c :: cs) =>
    let res := strtoll (baseOf flags) (c :: cs)
    if res.erange then .error "strtol() failed"
    -- no digits is caught here: the string is not empty, and all of it is left
    else if !res.rest.isEmpty then .error "nonnumeric characters"
    else if isSet flags GN_NONNEG && decide (res.value < 0) then
      .error "negative value not allowed"
    else if isSet flags GN_GT_0 && decide (res.value ≤ 0) then .error "value must be > 0"
    else .ok res.value

/-- The body the three routines share. -/
def get (fname : String) (range : Option Range) (arg : Option (List UInt8)) (flags : BitVec 32)
    (name : Option String) : Except Fail ℤ :=
  match getNum arg flags with
  | .error msg => .error ⟨fname, msg, arg, name⟩
  | .ok res =>
    match range.filter fun r => decide (res > r.hi) || decide (res < r.lo) with
    | some r => .error ⟨fname, r.msg, arg, name⟩
    | none => .ok res

/-- `getLLong(arg, flags, name)` -/
def getLLong := get "getLLong" none

/-- `getLong(arg, flags, name)`, with the 64-bit `long` of an LP64 system. -/
def getLong := get "getLong" (some ⟨LLONG_MIN, LLONG_MAX, "long integer out of range"⟩)

/-- `getInt(arg, flags, name)` -/
def getInt := get "getInt" (some ⟨INT_MIN, INT_MAX, "integer out of range"⟩)

/-! ## What is accepted -/

/-- **What `getNum` accepts**: a numeral in the range of `long long`, with nothing after it,
within the constraints. -/
theorem getNum_iff {s : List UInt8} {flags : BitVec 32} {v : ℤ} :
    getNum (some s) flags = .ok v ↔
      ∃ n, scan (baseOf flags) s = some n ∧ n.int = v ∧ (LLONG_MIN ≤ v ∧ v ≤ LLONG_MAX) ∧
        n.rest = [] ∧ Constrained flags v := by
  cases s with
  | nil => simp only [getNum, scan_nil, reduceCtorEq, false_and, exists_false]
  | cons c cs =>
    simp only [getNum]
    cases hscan : scan (baseOf flags) (c :: cs) with
    | none => simp [strtoll_of_none hscan]
    | some n =>
      simp only [Option.some.injEq, exists_eq_left']
      by_cases hrange : LLONG_MIN ≤ n.int ∧ n.int ≤ LLONG_MAX
      · simp only [strtoll_of_range hscan hrange, Bool.false_eq_true, if_false]
        by_cases hrest : n.rest = []
        · -- nothing after the numeral: the two tests left are the last two of `tryGetNum`
          have hsame := @checks_ok_iff flags false n.int v n.rest
          simp only [hrest, List.isEmpty_nil, Bool.not_true, Bool.false_and, Bool.false_eq_true,
            if_false, Bool.not_false, if_true] at hsame ⊢
          rw [hsame]
          constructor
          · rintro ⟨rfl, -, hc⟩
            exact ⟨rfl, hrange, trivial, hc trivial (Or.inl rfl)⟩
          · rintro ⟨rfl, -, -, hc⟩
            exact ⟨rfl, Or.inl rfl, fun _ _ => hc⟩
        · rw [if_pos (by simpa using hrest)]
          exact ⟨nofun, fun h => absurd h.2.2.1 hrest⟩
      · simp only [strtoll_erange hscan hrange, if_true, reduceCtorEq, false_iff]
        rintro ⟨rfl, hr, -⟩
        exact hrange hr

/-- No flag that only the `tryGet` family knows. -/
def NoTgn (flags : BitVec 32) : Prop :=
  isSet flags TGN_IGN_TRAILGB = false ∧ isSet flags TGN_IGN_TRAILWS = false

instance (flags : BitVec 32) : Decidable (NoTgn flags) := inferInstanceAs (Decidable (_ ∧ _))

theorem NoTgn.trailOk_iff {flags : BitVec 32} (h : NoTgn flags) {rest : List UInt8} :
    TrailOk flags rest ↔ rest = [] := by
  simp only [TrailOk, h.1, h.2, Bool.false_eq_true, false_and, or_false]

/-- **The two parsers accept the same arguments.** -/
theorem getNum_iff_tryGetNum {s : List UInt8} {flags : BitVec 32} (h : NoTgn flags) {v : ℤ} :
    tryGetNum (some s) flags false = .ok v ↔ getNum (some s) flags = .ok v := by
  rw [tryGetNum_signed_iff, getNum_iff]
  simp only [h.trailOk_iff]
  constructor
  · rintro ⟨n, hscan, hv, hrange, hrest, hc⟩
    exact ⟨n, hscan, hv, hrange, hrest, hc (Or.inl hrest)⟩
  · rintro ⟨n, hscan, hv, hrange, hrest, hc⟩
    exact ⟨n, hscan, hv, hrange, hrest, fun _ => hc⟩

theorem get_ok_iff {fname : String} {range : Option Range} {arg : Option (List UInt8)}
    {flags : BitVec 32} {name : Option String} {v : ℤ} :
    get fname range arg flags name = .ok v ↔
      getNum arg flags = .ok v ∧ ∀ r ∈ range, r.lo ≤ v ∧ v ≤ r.hi := by
  unfold get
  cases getNum arg flags with
  | error msg => simp
  | ok w =>
    rw [Except.ok.injEq]
    cases hbad : range.filter fun r => decide (w > r.hi) || decide (w < r.lo) with
    | some r =>
      simp only [hbad, reduceCtorEq, false_iff]
      rintro ⟨rfl, hrange⟩
      rw [filter_range_eq_none.mpr hrange] at hbad
      exact nomatch hbad
    | none =>
      simp only [hbad, Except.ok.injEq]
      refine ⟨?_, And.left⟩
      rintro rfl
      exact ⟨rfl, filter_range_eq_none.mp hbad⟩

/-- A routine that reports and one that ends the program agree on an argument: the first
succeeds with the value the second returns, and where the second would end the program, the
first fails and stores nothing. -/
structure Agrees (r : Result) (g : Except Fail ℤ) (out : ℤ) : Prop where
  gives_iff : ∀ v, r.Gives v ↔ g = .ok v
  failure : (∃ e, g = .error e) → r.status = .TGN_FAILURE ∧ r.out = some out

/-- Routines of the two families with the same range, whatever they report. -/
theorem agrees_of_range {fname fname' : String} {range range' : Option Range}
    (hrange : range.map (fun r => (r.lo, r.hi)) = range'.map fun r => (r.lo, r.hi))
    {s : List UInt8} {flags : BitVec 32} (h : NoTgn flags) (name name' : Option String) (out : ℤ) :
    Agrees (tryGet fname false range (some s) flags name (some out))
      (get fname' range' (some s) flags name') out := by
  have hsame : ∀ v : ℤ, (∀ r ∈ range, r.lo ≤ v ∧ v ≤ r.hi) ↔ ∀ r ∈ range', r.lo ≤ v ∧ v ≤ r.hi := by
    intro v
    cases range <;> cases range' <;> simp_all
  have hiff : ∀ v, (tryGet fname false range (some s) flags name (some out)).Gives v ↔
      get fname' range' (some s) flags name' = .ok v := by
    intro v
    rw [tryGet_gives_iff, get_ok_iff, getNum_iff_tryGetNum h, hsame v]
  refine ⟨hiff, ?_⟩
  rintro ⟨e, he⟩
  have hfail : (tryGet fname false range (some s) flags name (some out)).status = .TGN_FAILURE := by
    cases hst : (tryGet fname false range (some s) flags name (some out)).status with
    | TGN_FAILURE => rfl
    | TGN_SUCCESS =>
      obtain ⟨v, hv⟩ := tryGet_success hst
      rw [hiff, he] at hv
      exact nomatch hv
  exact ⟨hfail, tryGet_failure hfail⟩

/-- **The two families agree**, on every string and for all flags that both know. -/
theorem tryGet_agrees_get (s : List UInt8) (flags : BitVec 32) (h : NoTgn flags)
    (name : Option String) (out : ℤ) :
    Agrees (tryGetLLong (some s) flags name (some out)) (getLLong (some s) flags name) out ∧
      Agrees (tryGetLong (some s) flags name (some out)) (getLong (some s) flags name) out ∧
      Agrees (tryGetInt (some s) flags name (some out)) (getInt (some s) flags name) out := by
  refine ⟨?_, ?_, ?_⟩
  · apply agrees_of_range _ h
    rfl
  · apply agrees_of_range _ h
    rfl
  · apply agrees_of_range _ h
    rfl

/-- The argument `0x1F` in any base, which must be positive. -/
theorem tryGet_agrees_get_hex :
    NoTgn (GN_ANY_BASE ||| GN_GT_0) ∧
      Agrees (tryGetLLong (some [48, 120, 49, 70]) (GN_ANY_BASE ||| GN_GT_0) none (some 7))
        (getLLong (some [48, 120, 49, 70]) (GN_ANY_BASE ||| GN_GT_0) none) 7 ∧
      getLLong (some [48, 120, 49, 70]) (GN_ANY_BASE ||| GN_GT_0) none = .ok 31 :=
  ⟨by decide, (tryGet_agrees_get [48, 120, 49, 70] (GN_ANY_BASE ||| GN_GT_0) (by decide) none 7).1,
    by decide⟩

end Tlpi.GetNum
