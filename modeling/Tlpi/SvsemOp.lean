/-
`svsem/svsem_op.c`: groups of semaphore operations from a command line argument.

`parseOps()` reads with `strtol()`, which saturates at the ends of a 64-bit `long`, and stores what
it gets into the 16-bit fields of `struct sembuf`, which keep the low half-word of it; the test for
"=0" looks at the field. So what is accepted is more than the grammar that `usageError()` prints. A
string is a list of bytes without its null byte, a pointer into it what it points at and all behind.

The argument is a list of pieces, and `Operation` is what a piece is made of. `Shape` says what the
scan asks for, `Accepted` adds the test for "=0" as the code makes it, and `Strict` is the grammar.
What the scan makes of the text of an operation (`parseOp_text`), and that it accepts no other text
(`exists_operation`), is stated for one piece first and then for the loop.
-/
import Mathlib.Logic.Function.Basic
import Tlpi.CString
import Tlpi.Loop
import Tlpi.Strtol

set_option autoImplicit false

namespace Tlpi.SvsemOp

open Tlpi.CString Tlpi.Loop Tlpi.Strtol

/-! ## 1. The functions -/

abbrev MAX_SEMOPS : ℕ := 1000

abbrev IPC_NOWAIT : BitVec 16 := 0x0800
abbrev SEM_UNDO : BitVec 16 := 0x1000

/-- `struct sembuf`: an `unsigned short` and two `short`s. -/
structure Sembuf where
  sem_num : BitVec 16
  sem_op : BitVec 16
  sem_flg : BitVec 16
deriving Repr, DecidableEq

/-- A message with which the program terminates: the format, and the character in it, if there is
one. The argument is the other thing that is filled in. -/
structure Message where
  format : String
  char : Option UInt8
deriving Repr, DecidableEq

/-- `,` -/
abbrev comma : UInt8 := 44

/-- `+` -/
abbrev plus : UInt8 := 43

/-- `-` -/
abbrev minus : UInt8 := 45

/-- `=` -/
abbrev equals : UInt8 := 61

/-- `n` -/
abbrev charN : UInt8 := 110

/-- `u` -/
abbrev charU : UInt8 := 117

/-- The loop over the flags: what is in `sem_flg`, and where it stops. -/
def flagsLoop : BitVec 16 → List UInt8 → BitVec 16 × List UInt8
  | sem_flg, [] => (sem_flg, [])
  | sem_flg, c :: flags =>
    if c = charN then flagsLoop (sem_flg ||| IPC_NOWAIT) flags
    else if c = charU then flagsLoop (sem_flg ||| SEM_UNDO) flags
    else (sem_flg, c :: flags)

/-- The body of the loop from the flags on. -/
def parseFlags (sop : Sembuf) (flags : List UInt8) : Sembuf × Option Message :=
  let res := flagsLoop 0 flags
  let sop := { sop with sem_flg := res.1 }
  match res.2 with
  | [] => (sop, none)
  | c :: _ =>
    if c ≠ comma then (sop, some ⟨"Bad trailing character (%c) in \"%s\"\n", some c⟩) else (sop, none)

/-- The body of the loop from the number behind the sign on. -/
def parseValue (sop : Sembuf) (sign : UInt8) (behind : List UInt8) : Sembuf × Option Message :=
  let val := strtoll 10 behind
  let sop := { sop with sem_op := BitVec.ofInt 16 val.value }
  if sign = minus then parseFlags { sop with sem_op := -sop.sem_op } val.rest
  else if sign = equals ∧ sop.sem_op ≠ 0 then (sop, some ⟨"Expected \"=0\" in \"%s\"\n", none⟩)
  else parseFlags sop val.rest

/-- The body of the loop from the semaphore number on: the element of the array, and the message if
the operation is not accepted. -/
def parseOp (sop : Sembuf) (remaining : List UInt8) : Sembuf × Option Message :=
  let num := strtoll 10 remaining
  let sop := { sop with sem_num := BitVec.ofInt 16 num.value }
  match num.rest with
  | [] => (sop, some ⟨"Expected '+', '-', or '=' in \"%s\"\n", none⟩)
  | sign :: behind =>
    if sign ∉ [plus, minus, equals] then (sop, some ⟨"Expected '+', '-', or '=' in \"%s\"\n", none⟩)
    else if !behind.head?.any isdigit then
      (sop, some ⟨"Expected digit after '%c' in \"%s\"\n", some sign⟩)
    else parseValue sop sign behind

structure Locals where
  numOps : ℕ
  remaining : List UInt8
  sops : ℕ → Sembuf

/-- What `parseOps()` leaves in the array, and what it returns, if it does. -/
structure Parsed where
  sops : ℕ → Sembuf
  ret : Except Message ℕ

def parseOpsBody (s : Locals) : Iter Locals Parsed :=
  if s.numOps ≥ MAX_SEMOPS then
    .done ⟨s.sops, .error ⟨"Too many operations (maximum=%d): \"%s\"\n", none⟩⟩
  else if s.remaining = [] then
    .done ⟨s.sops, .error ⟨"Trailing comma or empty argument: \"%s\"", none⟩⟩
  else if !s.remaining.head?.any isdigit then
    .done ⟨s.sops, .error ⟨"Expected initial digit: \"%s\"\n", none⟩⟩
  else
    let op := parseOp (s.sops s.numOps) s.remaining
    let sops := Function.update s.sops s.numOps op.1
    match op.2 with
    | some message => .done ⟨sops, .error message⟩
    | none =>
      match (cut comma s.remaining).2 with
      | none => .done ⟨sops, .ok (s.numOps + 1)⟩
      | some remaining => .next ⟨s.numOps + 1, remaining, sops⟩

def parseOps (arg : List UInt8) (sops : ℕ → Sembuf) : Option Parsed :=
  exec parseOpsBody (fun s => s.remaining.length) ⟨0, arg, sops⟩

/-! ## 2. The grammar -/

/-- The parts of an operation as it is written. -/
structure Operation where
  num : List UInt8
  sign : UInt8
  val : List UInt8
  flags : List UInt8
deriving Repr, DecidableEq

namespace Operation

def text (o : Operation) : List UInt8 := o.num ++ o.sign :: (o.val ++ o.flags)

/-- Digits, a sign, digits, and any number of flags. -/
structure Shape (o : Operation) : Prop where
  num_ne_nil : o.num ≠ []
  num : ∀ c ∈ o.num, isdigit c = true
  sign : o.sign ∈ [plus, minus, equals]
  val_ne_nil : o.val ≠ []
  val : ∀ c ∈ o.val, isdigit c = true
  flags : ∀ c ∈ o.flags, c = charN ∨ c = charU

end Operation

/-- The number that digits denote. -/
def numeral (digits : List UInt8) : ℕ := digitsValue 10 (digits.map fun c => c.toNat - 48)

/-- What `strtol()` makes of it. -/
def saturated (digits : List UInt8) : ℤ := min (numeral digits : ℤ) LLONG_MAX

/-- What a field of 16 bits gets of that. -/
def field (digits : List UInt8) : BitVec 16 := BitVec.ofInt 16 (saturated digits)

namespace Operation

/-- What is accepted: behind `=` the low 16 bits must be zero. -/
structure Accepted (o : Operation) : Prop extends o.Shape where
  zero : o.sign = equals → field o.val = 0

/-- **The grammar**: `<sem#>{+|-}<value>[n][u]`, the flags in any order, or `<sem#>=0[n]`, with
numbers that the fields of `struct sembuf` can hold. -/
structure Strict (o : Operation) : Prop extends o.Shape where
  sem_num : numeral o.num < 2 ^ 16
  plus : o.sign = plus → numeral o.val < 2 ^ 15
  minus : o.sign = minus → numeral o.val ≤ 2 ^ 15
  /-- A single digit. -/
  zero : o.sign = equals → o.val = [48]
  once : o.flags.Nodup
  undo : o.sign = equals → charU ∉ o.flags

/-- What an operation that is accepted can be that the grammar has not. -/
inductive Defective (o : Operation) : Prop where
  | sem_num (h : 2 ^ 16 ≤ numeral o.num)
  | plus (hsign : o.sign = plus) (h : 2 ^ 15 ≤ numeral o.val)
  | minus (hsign : o.sign = minus) (h : 2 ^ 15 < numeral o.val)
  | zero (hsign : o.sign = equals) (h : o.val ≠ [48])
  | twice (h : ¬ o.flags.Nodup)
  | undo (hsign : o.sign = equals) (h : charU ∈ o.flags)

/-- The value that is written. -/
def value (o : Operation) : ℤ := if o.sign = SvsemOp.minus then -(numeral o.val : ℤ) else numeral o.val

/-- The array element that holds an operation. -/
structure Holds (o : Operation) (sop : Sembuf) : Prop where
  sem_num : sop.sem_num.toNat = numeral o.num
  sem_op : sop.sem_op.toInt = o.value
  sem_flg : sop.sem_flg = (if charN ∈ o.flags then IPC_NOWAIT else 0) |||
    (if charU ∈ o.flags then SEM_UNDO else 0)

end Operation

/-- The argument is a list of operations, between 1 and `MAX_SEMOPS` of them, each of which is as
`P` says. -/
structure Spells (P : Operation → Prop) (ops : List Operation) (arg : List UInt8) : Prop where
  ne_nil : ops ≠ []
  length_le : ops.length ≤ MAX_SEMOPS
  each : ∀ o ∈ ops, P o
  text : arg = [comma].intercalate (ops.map Operation.text)

def Grammatical (arg : List UInt8) : Prop := ∃ ops, Spells Operation.Strict ops arg

/-- The scan goes through. -/
def Scanned (arg : List UInt8) : Prop := ∃ ops, Spells Operation.Accepted ops arg

/-- What is asked of a call of `parseOps()`. -/
structure Right (arg : List UInt8) (sops : ℕ → Sembuf) (r : Parsed) : Prop where
  /-- What is in the grammar is accepted. -/
  accepts : Grammatical arg → ∃ n, r.ret = .ok n
  /-- What is accepted is in the grammar, and the array holds it. -/
  holds : ∀ n, r.ret = .ok n → ∃ ops, Spells Operation.Strict ops arg ∧ n = ops.length ∧
    ∀ i (o : Operation), ops[i]? = some o → o.Holds (r.sops i)
  /-- Nothing is written behind the array. -/
  within : ∀ i, MAX_SEMOPS ≤ i → r.sops i = sops i

/-! ## 3. Numbers -/

theorem isdigit_iff {c : UInt8} : isdigit c = true ↔ 48 ≤ c.toNat ∧ c.toNat ≤ 57 := by
  rw [isdigit, Bool.and_eq_true, decide_eq_true_eq, decide_eq_true_eq, UInt8.le_iff_toNat_le,
    UInt8.le_iff_toNat_le]
  rfl

theorem digitIn_of_isdigit {c : UInt8} (h : isdigit c = true) :
    digitIn 10 c = some (c.toNat - 48) := by
  have hc := isdigit_iff.mp h
  have hval : digitVal c = some (c.toNat - 48) := if_pos h
  rw [digitIn, hval, Option.filter_some, if_pos (by rw [decide_eq_true_eq]; omega)]

theorem digitIn_of_not_isdigit {c : UInt8} (h : isdigit c = false) : digitIn 10 c = none := by
  cases hd : digitIn 10 c with
  | none => rfl
  | some d =>
    have hc := isdigit_iff.mpr (digitIn_ten_isSome (by rw [hd]; rfl))
    exact nomatch h.symm.trans hc

theorem map_digitIn {digits : List UInt8} (h : ∀ c ∈ digits, isdigit c = true) :
    digits.map (digitIn 10) = (digits.map fun c => c.toNat - 48).map some := by
  rw [List.map_map]
  exact List.map_congr_left fun c hc => digitIn_of_isdigit (h c hc)

/-- **What `strtol()` makes of digits**: their number, saturated, and it stops behind them. -/
theorem strtoll_digits {digits rest : List UInt8} (hne : digits ≠ [])
    (h : ∀ c ∈ digits, isdigit c = true) (hrest : ∀ c, rest.head? = some c → isdigit c = false) :
    (strtoll 10 (digits ++ rest)).value = saturated digits ∧
      (strtoll 10 (digits ++ rest)).rest = rest := by
  have hnum : IsNumeral ⟨false, 10, digits.map fun c => c.toNat - 48, rest⟩ [] [] digits :=
    ⟨rfl, nofun, .none, map_digitIn h, fun hnil => hne (List.map_eq_nil_iff.mp hnil)⟩
  have hscan := scan_ten_of hnum fun c hc => digitIn_of_not_isdigit (hrest c hc)
  rw [List.nil_append, List.nil_append] at hscan
  have hint : (⟨false, 10, digits.map fun c => c.toNat - 48, rest⟩ : Numeral).int = numeral digits := rfl
  simp only [strtoll, hscan, hint, saturated]
  split
  · rename_i hgt
    exact ⟨(min_eq_right (le_of_lt hgt)).symm, rfl⟩
  · rename_i hle
    rw [if_neg (by simp only [LLONG_MIN]; omega)]
    exact ⟨(min_eq_left (not_lt.mp hle)).symm, rfl⟩

theorem saturated_of_lt {digits : List UInt8} (h : numeral digits < 2 ^ 63) :
    saturated digits = numeral digits := by
  rw [saturated]
  simp only [LLONG_MAX]
  omega

theorem toNat_field {digits : List UInt8} (h : numeral digits < 2 ^ 16) :
    (field digits).toNat = numeral digits := by
  rw [field, saturated_of_lt (by omega), BitVec.toNat_ofInt]
  omega

theorem toInt_field {digits : List UInt8} (h : numeral digits < 2 ^ 15) :
    (field digits).toInt = numeral digits := by
  rw [field, saturated_of_lt (by omega), BitVec.toInt_ofInt]
  apply Int.bmod_eq_of_le <;> omega

/-- Also the least number of all comes out right: in 16 bits, it is its own negative. -/
theorem toInt_neg_field {digits : List UInt8} (h : numeral digits ≤ 2 ^ 15) :
    (-field digits).toInt = -(numeral digits : ℤ) := by
  rw [field, saturated_of_lt (by omega), ← BitVec.ofInt_neg, BitVec.toInt_ofInt]
  apply Int.bmod_eq_of_le <;> omega

/-! ## 4. One operation -/

/-- A text that goes on with a comma, or ends. -/
def Broken (rest : List UInt8) : Prop := rest = [] ∨ ∃ t, rest = comma :: t

theorem Broken.head {rest : List UInt8} (h : Broken rest) {c : UInt8} (hc : rest.head? = some c) :
    c = comma := by
  rcases h with rfl | ⟨t, rfl⟩
  · exact nomatch hc
  · exact (Option.some.inj hc).symm

/-- The flags that are set. -/
def setFlags (sem_flg : BitVec 16) (flags : List UInt8) : BitVec 16 :=
  flags.foldl (fun sem_flg c => sem_flg ||| if c = charN then IPC_NOWAIT else SEM_UNDO) sem_flg

theorem flagsLoop_append {flags : List UInt8} (h : ∀ c ∈ flags, c = charN ∨ c = charU)
    {rest : List UInt8} (hrest : ∀ c, rest.head? = some c → ¬(c = charN ∨ c = charU))
    (sem_flg : BitVec 16) :
    flagsLoop sem_flg (flags ++ rest) = (setFlags sem_flg flags, rest) := by
  induction flags generalizing sem_flg with
  | nil =>
    cases rest with
    | nil => rfl
    | cons c rest =>
      have hc := hrest c rfl
      rw [not_or] at hc
      rw [List.nil_append, flagsLoop, if_neg hc.1, if_neg hc.2]
      rfl
  | cons c flags ih =>
    have hflags := ih fun d hd => h d (List.mem_cons_of_mem _ hd)
    rw [List.cons_append, flagsLoop, setFlags, List.foldl_cons]
    rcases h c List.mem_cons_self with rfl | rfl
    · exact hflags _
    · exact hflags _

/-- Each flag is set that is written, once or more. -/
theorem setFlags_eq {flags : List UInt8} (h : ∀ c ∈ flags, c = charN ∨ c = charU)
    (sem_flg : BitVec 16) :
    setFlags sem_flg flags = sem_flg ||| ((if charN ∈ flags then IPC_NOWAIT else 0) |||
      (if charU ∈ flags then SEM_UNDO else 0)) := by
  induction flags generalizing sem_flg with
  | nil => simp [setFlags]
  | cons c flags ih =>
    have hflags := ih fun d hd => h d (List.mem_cons_of_mem _ hd)
    have hne : charU ≠ charN := by decide
    rw [setFlags, List.foldl_cons, ← setFlags, hflags]
    rcases h c List.mem_cons_self with rfl | rfl <;>
      by_cases hn : charN ∈ flags <;> by_cases hu : charU ∈ flags <;>
        simp [hn, hu, hne, hne.symm, BitVec.or_assoc]

/-- What the array element holds. -/
def Operation.sembuf (o : Operation) : Sembuf where
  sem_num := field o.num
  sem_op := if o.sign = minus then -field o.val else field o.val
  sem_flg := setFlags 0 o.flags

theorem parseFlags_append {flags : List UInt8} (h : ∀ c ∈ flags, c = charN ∨ c = charU)
    {rest : List UInt8} (hrest : Broken rest) (sop : Sembuf) :
    parseFlags sop (flags ++ rest) = ({ sop with sem_flg := setFlags 0 flags }, none) := by
  have hstop : ∀ c, rest.head? = some c → ¬(c = charN ∨ c = charU) := by
    intro c hc
    rw [hrest.head hc]
    decide
  rw [parseFlags, flagsLoop_append h hstop]
  rcases hrest with rfl | ⟨t, rfl⟩
  · rfl
  · rfl

/-- It stops at a comma, or at the end. -/
theorem broken_of_parseFlags {flags : List UInt8} (h : ∀ c ∈ flags, c = charN ∨ c = charU)
    {rest : List UInt8} (hstop : ∀ c, rest.head? = some c → ¬(c = charN ∨ c = charU)) {sop : Sembuf}
    (hnone : (parseFlags sop (flags ++ rest)).2 = none) : Broken rest := by
  rw [parseFlags, flagsLoop_append h hstop] at hnone
  cases rest with
  | nil => exact .inl rfl
  | cons c rest =>
    by_cases hc : c = comma
    · exact .inr ⟨rest, by rw [hc]⟩
    · simp only [hc, ne_eq, not_false_eq_true, if_true] at hnone
      exact nomatch hnone

theorem parseFlags_of_parseValue {sop : Sembuf} {sign : UInt8} {behind : List UInt8}
    (h : (parseValue sop sign behind).2 = none) :
    ∃ sop', (parseFlags sop' (strtoll 10 behind).rest).2 = none := by
  rw [parseValue] at h
  dsimp only at h
  split at h
  · exact ⟨_, h⟩
  · split at h
    · exact nomatch h
    · exact ⟨_, h⟩

section

variable {o : Operation} {rest : List UInt8}

theorem Operation.Shape.not_isdigit (h : o.Shape) (hrest : Broken rest) {c : UInt8}
    (hc : (o.flags ++ rest).head? = some c) : isdigit c = false := by
  cases hflags : o.flags with
  | nil =>
    rw [hflags, List.nil_append] at hc
    rw [hrest.head hc]
    rfl
  | cons d flags =>
    rw [hflags, List.cons_append, List.head?_cons, Option.some.injEq] at hc
    rcases h.flags d (hflags ▸ List.mem_cons_self) with rfl | rfl <;> exact hc ▸ rfl

theorem Operation.Shape.sign_not_isdigit (h : o.Shape) : isdigit o.sign = false := by
  have hall : ∀ c ∈ [plus, minus, equals], isdigit c = false := by decide +kernel
  exact hall o.sign h.sign

theorem parseValue_text (h : o.Shape) (hrest : Broken rest) {sop : Sembuf}
    (hnum : sop.sem_num = field o.num) :
    ((parseValue sop o.sign (o.val ++ (o.flags ++ rest))).2 = none ↔ o.Accepted) ∧
      (o.Accepted → (parseValue sop o.sign (o.val ++ (o.flags ++ rest))).1 = o.sembuf) := by
  obtain ⟨hvalue, hbehind⟩ := strtoll_digits h.val_ne_nil h.val fun c hc => h.not_isdigit hrest hc
  have hflags := parseFlags_append h.flags hrest
  have hfield : BitVec.ofInt 16 (saturated o.val) = field o.val := rfl
  simp only [parseValue, hvalue, hbehind, hflags, hfield]
  by_cases hminus : o.sign = minus
  · have haccepted : o.Accepted := ⟨h, fun hequals => absurd (hminus.symm.trans hequals) (by decide)⟩
    rw [if_pos hminus]
    refine ⟨iff_of_true rfl haccepted, fun _ => ?_⟩
    rw [Operation.sembuf, if_pos hminus, hnum]
  · rw [if_neg hminus]
    by_cases hbad : o.sign = equals ∧ field o.val ≠ 0
    · have hnot : ¬o.Accepted := fun haccepted => hbad.2 (haccepted.zero hbad.1)
      rw [if_pos hbad]
      exact ⟨iff_of_false nofun hnot, fun haccepted => absurd haccepted hnot⟩
    · have haccepted : o.Accepted :=
        ⟨h, fun hequals => not_not.mp fun hne => hbad ⟨hequals, hne⟩⟩
      rw [if_neg hbad]
      refine ⟨iff_of_true rfl haccepted, fun _ => ?_⟩
      rw [Operation.sembuf, if_neg hminus, hnum]

/-- **What the scan makes of an operation**: it goes through exactly if the operation is accepted. -/
theorem parseOp_text (h : o.Shape) (hrest : Broken rest) (sop : Sembuf) :
    ((parseOp sop (o.text ++ rest)).2 = none ↔ o.Accepted) ∧
      (o.Accepted → (parseOp sop (o.text ++ rest)).1 = o.sembuf) := by
  have htext : o.text ++ rest = o.num ++ o.sign :: (o.val ++ (o.flags ++ rest)) := by
    simp only [Operation.text, List.append_assoc, List.cons_append]
  obtain ⟨hvalue, hbehind⟩ := strtoll_digits h.num_ne_nil h.num
    fun c (hc : (o.sign :: (o.val ++ (o.flags ++ rest))).head? = some c) =>
      Option.some.inj hc ▸ h.sign_not_isdigit
  have hdigit : (o.val ++ (o.flags ++ rest)).head?.any isdigit = true := by
    obtain ⟨c, val, hval⟩ := List.exists_cons_of_ne_nil h.val_ne_nil
    rw [hval]
    exact h.val c (hval ▸ List.mem_cons_self)
  simp only [htext, parseOp, hvalue, hbehind, hdigit, h.sign, not_true_eq_false, if_false,
    Bool.not_true, Bool.false_eq_true]
  exact parseValue_text h hrest rfl

/-- A text in two where the characters stop for which a test holds. -/
theorem exists_split (p : UInt8 → Bool) (s : List UInt8) :
    ∃ a b, s = a ++ b ∧ (∀ c ∈ a, p c = true) ∧ ∀ c, b.head? = some c → p c = false := by
  refine ⟨s.takeWhile p, s.dropWhile p, List.takeWhile_append_dropWhile.symm,
    fun c hc => List.mem_takeWhile_imp hc, fun c hc => ?_⟩
  have hhead := List.head?_dropWhile_not p s
  rw [hc] at hhead
  exact hhead

theorem ne_nil_of_head? {a b : List UInt8} {p : UInt8 → Bool} (h : (a ++ b).head?.any p = true)
    (hb : ∀ c, b.head? = some c → p c = false) : a ≠ [] := by
  rintro rfl
  rw [List.nil_append] at h
  cases hhead : b.head? with
  | none => rw [hhead] at h; exact nomatch h
  | some c =>
    rw [hhead, Option.any_some] at h
    exact nomatch (hb c hhead).symm.trans h

/-- **It goes through for nothing else.** -/
theorem exists_operation {sop : Sembuf} {remaining : List UInt8}
    (hdigit : remaining.head?.any isdigit = true) (h : (parseOp sop remaining).2 = none) :
    ∃ (o : Operation) (rest : List UInt8), remaining = o.text ++ rest ∧ o.Accepted ∧ Broken rest := by
  obtain ⟨num, behindNum, rfl, hnum, hbehindNum⟩ := exists_split isdigit remaining
  have hnumne := ne_nil_of_head? hdigit hbehindNum
  obtain ⟨-, hrestNum⟩ := strtoll_digits hnumne hnum hbehindNum
  have hparse := h
  simp only [parseOp, hrestNum] at hparse
  cases behindNum with
  | nil => cases hparse
  | cons sign behind =>
    by_cases hsign : sign ∈ [plus, minus, equals]
    · by_cases hbehind : behind.head?.any isdigit = true
      · obtain ⟨val, behindVal, rfl, hval, hbehindVal⟩ := exists_split isdigit behind
        have hvalne := ne_nil_of_head? hbehind hbehindVal
        obtain ⟨-, hrestVal⟩ := strtoll_digits hvalne hval hbehindVal
        obtain ⟨flags, rest, rfl, hflags, hrest⟩ :=
          exists_split (fun c => decide (c = charN ∨ c = charU)) behindVal
        simp only [decide_eq_true_eq, decide_eq_false_iff_not] at hflags hrest
        simp only [hsign, not_true_eq_false, if_false, hbehind, Bool.not_true,
          Bool.false_eq_true] at hparse
        obtain ⟨sop', hsop'⟩ := parseFlags_of_parseValue hparse
        rw [hrestVal] at hsop'
        have hbroken := broken_of_parseFlags hflags hrest hsop'
        have hshape : Operation.Shape ⟨num, sign, val, flags⟩ :=
          ⟨hnumne, hnum, hsign, hvalne, hval, hflags⟩
        have htext : num ++ sign :: (val ++ (flags ++ rest)) =
            Operation.text ⟨num, sign, val, flags⟩ ++ rest := by
          simp only [Operation.text, List.append_assoc, List.cons_append]
        rw [htext] at h
        exact ⟨_, rest, htext, (parseOp_text hshape hbroken sop).1.mp h, hbroken⟩
      · rw [Bool.not_eq_true] at hbehind
        simp only [hsign, not_true_eq_false, if_false, hbehind, Bool.not_false, if_true] at hparse
        cases hparse
    · simp only [hsign, not_false_eq_true, if_true] at hparse
      cases hparse

theorem Operation.Shape.comma_notMem (h : o.Shape) : comma ∉ o.text := by
  have hdigit : isdigit comma = false := rfl
  rw [Operation.text, List.mem_append, List.mem_cons, List.mem_append]
  rintro (hmem | hmem | hmem | hmem)
  · exact nomatch hdigit.symm.trans (h.num comma hmem)
  · exact absurd (hmem ▸ h.sign) (by decide)
  · exact nomatch hdigit.symm.trans (h.val comma hmem)
  · exact absurd (h.flags comma hmem) (by decide)

theorem Operation.Shape.head_text (h : o.Shape) (rest : List UInt8) :
    o.text ++ rest ≠ [] ∧ (o.text ++ rest).head?.any isdigit = true := by
  obtain ⟨c, num, hnum⟩ := List.exists_cons_of_ne_nil h.num_ne_nil
  rw [Operation.text, hnum]
  exact ⟨List.cons_ne_nil _ _, h.num c (hnum ▸ List.mem_cons_self)⟩

/-! ## 5. The loop -/

theorem parseOpsBody_text {n : ℕ} (hn : n < MAX_SEMOPS) (h : o.Accepted) (hrest : Broken rest)
    (sops : ℕ → Sembuf) :
    parseOpsBody ⟨n, o.text ++ rest, sops⟩ =
      match (cut comma (o.text ++ rest)).2 with
      | none => .done ⟨Function.update sops n o.sembuf, .ok (n + 1)⟩
      | some remaining => .next ⟨n + 1, remaining, Function.update sops n o.sembuf⟩ := by
  obtain ⟨hne, hdigit⟩ := h.toShape.head_text rest
  obtain ⟨hiff, hsembuf⟩ := parseOp_text h.toShape hrest (sops n)
  have hstart : ¬(!(o.text ++ rest).head?.any isdigit) = true := by
    rw [hdigit]
    exact Bool.false_ne_true
  rw [parseOpsBody, if_neg (Nat.not_le.mpr hn), if_neg hne, if_neg hstart]
  simp only [hiff.mpr h, hsembuf h]

theorem parseOpsBody_last {n : ℕ} (hn : n < MAX_SEMOPS) (h : o.Accepted) (sops : ℕ → Sembuf) :
    parseOpsBody ⟨n, o.text, sops⟩ = .done ⟨Function.update sops n o.sembuf, .ok (n + 1)⟩ := by
  have hbody := parseOpsBody_text hn h (.inl rfl) sops
  rwa [List.append_nil, cut_of_notMem h.toShape.comma_notMem] at hbody

theorem parseOpsBody_next {n : ℕ} (hn : n < MAX_SEMOPS) (h : o.Accepted) (sops : ℕ → Sembuf)
    (t : List UInt8) :
    parseOpsBody ⟨n, o.text ++ comma :: t, sops⟩ =
      .next ⟨n + 1, t, Function.update sops n o.sembuf⟩ := by
  have hbody := parseOpsBody_text hn h (.inr ⟨t, rfl⟩) sops
  rwa [cut_append_cons h.toShape.comma_notMem] at hbody

/-- **What a turn of the loop does**: it reads an operation, and goes on behind the comma, or it is
the last one; no turn writes behind the array. -/
theorem parseOpsBody_cases (s : Locals) :
    (∃ r message, parseOpsBody s = .done r ∧ r.ret = .error message ∧
      ∀ i, MAX_SEMOPS ≤ i → r.sops i = s.sops i) ∨
    ∃ o : Operation, o.Accepted ∧ s.numOps < MAX_SEMOPS ∧
      (s.remaining = o.text ∨ ∃ t, s.remaining = o.text ++ comma :: t) := by
  obtain ⟨n, remaining, sops⟩ := s
  by_cases hmax : n ≥ MAX_SEMOPS
  · exact .inl ⟨_, _, by rw [parseOpsBody, if_pos hmax], rfl, fun _ _ => rfl⟩
  by_cases hnil : remaining = []
  · exact .inl ⟨_, _, by rw [parseOpsBody, if_neg hmax, if_pos hnil], rfl, fun _ _ => rfl⟩
  by_cases hdigit : remaining.head?.any isdigit = true
  · cases hmessage : (parseOp (sops n) remaining).2 with
    | some message =>
      refine .inl ⟨⟨Function.update sops n (parseOp (sops n) remaining).1, .error message⟩, message,
        ?_, rfl, fun i hi => Function.update_of_ne (by omega) _ _⟩
      have hstart : ¬(!remaining.head?.any isdigit) = true := by
        rw [hdigit]
        exact Bool.false_ne_true
      rw [parseOpsBody, if_neg hmax, if_neg hnil, if_neg hstart]
      simp only [hmessage]
    | none =>
      obtain ⟨o, rest, rfl, ho, hrest⟩ := exists_operation hdigit hmessage
      refine .inr ⟨o, ho, Nat.not_le.mp hmax, ?_⟩
      rcases hrest with rfl | ⟨t, rfl⟩
      · exact .inl (List.append_nil _)
      · exact .inr ⟨t, rfl⟩
  · have hstart : (!remaining.head?.any isdigit) = true := by
      rw [Bool.not_eq_true] at hdigit
      rw [hdigit]
      rfl
    exact .inl ⟨_, _, by rw [parseOpsBody, if_neg hmax, if_neg hnil, if_pos hstart], rfl,
      fun _ _ => rfl⟩

theorem parseOpsBody_decreases (s s' : Locals) (h : parseOpsBody s = .next s') :
    s'.remaining.length < s.remaining.length := by
  obtain ⟨n, remaining, sops⟩ := s
  rcases parseOpsBody_cases ⟨n, remaining, sops⟩ with ⟨r, message, hbody, -⟩ |
    ⟨o, ho, hn, htext | ⟨t, htext⟩⟩
  · exact nomatch hbody.symm.trans h
  · dsimp only at htext
    rw [htext, parseOpsBody_last hn ho] at h
    exact nomatch h
  · dsimp only at htext
    rw [htext, parseOpsBody_next hn ho] at h
    obtain rfl := Iter.next.inj h
    simp only [htext, List.length_append, List.length_cons]
    omega

/-- The loop from a given state on. -/
abbrev run (s : Locals) : Option Parsed := exec parseOpsBody (fun s => s.remaining.length) s

/-- The array with operations stored from an index on. -/
def stored : ℕ → List Operation → (ℕ → Sembuf) → ℕ → Sembuf
  | _, [], sops => sops
  | n, o :: ops, sops => stored (n + 1) ops (Function.update sops n o.sembuf)

theorem stored_of_lt (ops : List Operation) {n i : ℕ} (hi : i < n) (sops : ℕ → Sembuf) :
    stored n ops sops i = sops i := by
  induction ops generalizing n sops with
  | nil => rfl
  | cons o ops ih => rw [stored, ih (by omega), Function.update_of_ne (by omega)]

theorem stored_getElem? (ops : List Operation) {n i : ℕ} {o : Operation} (h : ops[i]? = some o)
    (sops : ℕ → Sembuf) : stored n ops sops (n + i) = o.sembuf := by
  induction ops generalizing n i sops with
  | nil => exact nomatch h
  | cons o' ops ih =>
    rw [stored]
    cases i with
    | zero =>
      obtain rfl := Option.some.inj h
      rw [stored_of_lt ops (by omega), Nat.add_zero, Function.update_self]
    | succ i =>
      have hstored := ih (n := n + 1) h (Function.update sops n o'.sembuf)
      rwa [Nat.add_assoc, Nat.add_comm 1] at hstored

/-- **A list of accepted operations** is stored, and counted. -/
theorem run_accepted {ops : List Operation} (hne : ops ≠ []) (h : ∀ o ∈ ops, o.Accepted) {n : ℕ}
    (hlen : n + ops.length ≤ MAX_SEMOPS) (sops : ℕ → Sembuf) :
    run ⟨n, [comma].intercalate (ops.map Operation.text), sops⟩ =
      some ⟨stored n ops sops, .ok (n + ops.length)⟩ := by
  induction ops generalizing n sops with
  | nil => exact absurd rfl hne
  | cons o ops ih =>
    have ho := h o List.mem_cons_self
    rw [List.length_cons] at hlen
    rw [run, exec_eq parseOpsBody_decreases]
    by_cases hnil : ops = []
    · rw [hnil, List.map_singleton, List.intercalate_singleton, parseOpsBody_last (by omega) ho]
      rfl
    · have hmap : ops.map Operation.text ≠ [] := fun hmap => hnil (List.map_eq_nil_iff.mp hmap)
      rw [List.map_cons, List.intercalate_cons_of_ne_nil hmap, List.append_assoc,
        List.singleton_append, parseOpsBody_next (by omega) ho]
      have hrest := ih hnil (fun o' ho' => h o' (List.mem_cons_of_mem _ ho')) (n := n + 1) (by omega)
        (Function.update sops n o.sembuf)
      rw [List.length_cons, ← Nat.add_assoc, Nat.add_right_comm]
      exact hrest

/-- **What any argument comes to**: the loop ends, it writes nothing behind the array, and if it
accepts the argument, this is a list of accepted operations. -/
theorem run_spec (s : Locals) :
    ∃ r, run s = some r ∧ (∀ i, MAX_SEMOPS ≤ i → r.sops i = s.sops i) ∧
      ∀ m, r.ret = .ok m → ∃ ops : List Operation, ops ≠ [] ∧ (∀ o ∈ ops, o.Accepted) ∧
        s.numOps + ops.length ≤ MAX_SEMOPS ∧
        s.remaining = [comma].intercalate (ops.map Operation.text) := by
  induction hlen : s.remaining.length using Nat.strongRecOn generalizing s with
  | _ len ih =>
    obtain ⟨n, remaining, sops⟩ := s
    rw [run, exec_eq parseOpsBody_decreases]
    rcases parseOpsBody_cases ⟨n, remaining, sops⟩ with ⟨r, message, hbody, hret, hsops⟩ |
      ⟨o, ho, hn, htext | ⟨t, htext⟩⟩
    · rw [hbody]
      exact ⟨r, rfl, hsops, fun m hm => nomatch hret.symm.trans hm⟩
    · dsimp only at hn htext
      rw [htext, parseOpsBody_last hn ho]
      refine ⟨_, rfl, fun i hi => Function.update_of_ne (by omega) _ _, fun m _ => ?_⟩
      refine ⟨[o], List.cons_ne_nil _ _, ?_, by rw [List.length_singleton]; exact hn, ?_⟩
      · exact fun o' ho' => List.mem_singleton.mp ho' ▸ ho
      · rw [List.map_singleton, List.intercalate_singleton]
    · dsimp only at hn htext hlen
      rw [htext, parseOpsBody_next hn ho]
      have hshort : t.length < len := by
        rw [← hlen, htext, List.length_append, List.length_cons]
        omega
      obtain ⟨r, hr, hsops, hok⟩ := ih t.length hshort ⟨n + 1, t, Function.update sops n o.sembuf⟩ rfl
      refine ⟨r, hr, fun i hi => ?_, fun m hm => ?_⟩
      · rw [hsops i hi]
        exact Function.update_of_ne (by omega) _ _
      · obtain ⟨ops, hne, hops, hle, hrest⟩ := hok m hm
        have hmap : ops.map Operation.text ≠ [] := fun hmap => hne (List.map_eq_nil_iff.mp hmap)
        refine ⟨o :: ops, List.cons_ne_nil _ _, ?_, ?_, ?_⟩
        · rintro o' (_ | ⟨_, ho'⟩)
          · exact ho
          · exact hops o' ho'
        · dsimp only at hle ⊢
          rw [List.length_cons]
          omega
        · rw [List.map_cons, List.intercalate_cons_of_ne_nil hmap, ← hrest, List.append_assoc,
            List.singleton_append]

end

/-! ## 6. The grammar -/

theorem Operation.Strict.accepted {o : Operation} (h : o.Strict) : o.Accepted := by
  refine ⟨h.toShape, fun hequals => ?_⟩
  rw [h.zero hequals]
  rfl

/-- **The numbers, the value and the flags that are written** are what the array holds. -/
theorem Operation.Strict.holds {o : Operation} (h : o.Strict) : o.Holds o.sembuf := by
  refine ⟨toNat_field h.sem_num, ?_, ?_⟩
  · rw [Operation.sembuf, Operation.value]
    by_cases hminus : o.sign = SvsemOp.minus
    · rw [if_pos hminus, if_pos hminus]
      exact toInt_neg_field (h.minus hminus)
    · rw [if_neg hminus, if_neg hminus]
      refine toInt_field ?_
      have hsign := h.sign
      simp only [List.mem_cons, List.not_mem_nil, or_false] at hsign
      rcases hsign with hplus | hminus' | hequals
      · exact h.plus hplus
      · exact absurd hminus' hminus
      · rw [h.zero hequals]
        decide
  · rw [Operation.sembuf, setFlags_eq h.flags]
    exact BitVec.zero_or

theorem scanned_of_grammatical {arg : List UInt8} (h : Grammatical arg) : Scanned arg := by
  obtain ⟨ops, hspells⟩ := h
  exact ⟨ops, hspells.ne_nil, hspells.length_le, fun o ho => (hspells.each o ho).accepted, hspells.text⟩

theorem parseOps_scanned {ops : List Operation} {arg : List UInt8}
    (h : Spells Operation.Accepted ops arg) (sops : ℕ → Sembuf) :
    parseOps arg sops = some ⟨stored 0 ops sops, .ok ops.length⟩ := by
  have hlen := h.length_le
  have hrun := run_accepted h.ne_nil h.each (n := 0) (by omega) sops
  rw [← h.text, Nat.zero_add] at hrun
  exact hrun

theorem Operation.Shape.takeWhile_text {o : Operation} (h : o.Shape) :
    o.text.takeWhile isdigit = o.num := by
  rw [Operation.text, List.takeWhile_append_of_pos h.num,
    List.takeWhile_cons_of_neg (by rw [h.sign_not_isdigit]; exact Bool.false_ne_true), List.append_nil]

theorem Operation.Shape.takeWhile_val {o : Operation} (h : o.Shape) :
    (o.val ++ o.flags).takeWhile isdigit = o.val := by
  have hflags : o.flags.takeWhile isdigit = [] := by
    cases hnil : o.flags with
    | nil => rfl
    | cons c flags =>
      have hc : isdigit c = false := by
        rcases h.flags c (hnil ▸ List.mem_cons_self) with rfl | rfl <;> rfl
      exact List.takeWhile_cons_of_neg (by rw [hc]; exact Bool.false_ne_true)
  rw [List.takeWhile_append_of_pos h.val, hflags, List.append_nil]

/-- The text says which operation it is. -/
theorem Operation.Shape.eq_of_text {o o' : Operation} (h : o.Shape) (h' : o'.Shape)
    (htext : o.text = o'.text) : o = o' := by
  have hnum : o.num = o'.num := by rw [← h.takeWhile_text, ← h'.takeWhile_text, htext]
  rw [Operation.text, Operation.text, hnum, List.append_cancel_left_eq, List.cons.injEq] at htext
  obtain ⟨hsign, hbehind⟩ := htext
  -- digits end where the flags begin
  have hval : o.val = o'.val := by rw [← h.takeWhile_val, ← h'.takeWhile_val, hbehind]
  rw [hval, List.append_cancel_left_eq] at hbehind
  cases o
  cases o'
  simp_all only

theorem eq_of_map_text {ops ops' : List Operation} (h : ∀ o ∈ ops, o.Shape) (h' : ∀ o ∈ ops', o.Shape)
    (htexts : ops.map Operation.text = ops'.map Operation.text) : ops = ops' := by
  induction ops generalizing ops' with
  | nil => exact (List.map_eq_nil_iff.mp htexts.symm).symm
  | cons o ops ih =>
    obtain ⟨o', ops', rfl, htext, hrest⟩ := List.map_eq_cons_iff.mp htexts.symm
    obtain ⟨ho, hops⟩ := List.forall_mem_cons.mp h
    obtain ⟨ho', hops'⟩ := List.forall_mem_cons.mp h'
    rw [ho.eq_of_text ho' htext.symm, ih hops hops' hrest.symm]

/-- The argument says which operations they are. -/
theorem Spells.unique {ops ops' : List Operation} {arg : List UInt8}
    (h : Spells Operation.Accepted ops arg) (h' : Spells Operation.Accepted ops' arg) : ops = ops' := by
  have hpieces : ∀ {ops : List Operation}, Spells Operation.Accepted ops arg →
      arg.splitOn comma = ops.map Operation.text := by
    intro ops h
    rw [h.text, List.splitOn_intercalate]
    · intro piece hpiece
      obtain ⟨o, ho, rfl⟩ := List.mem_map.mp hpiece
      exact (h.each o ho).toShape.comma_notMem
    · rw [ne_eq, List.map_eq_nil_iff]
      exact h.ne_nil
  exact eq_of_map_text (fun o ho => (h.each o ho).toShape) (fun o ho => (h'.each o ho).toShape)
    ((hpieces h).symm.trans (hpieces h'))

theorem Operation.Shape.strict_iff {o : Operation} (h : o.Shape) : o.Strict ↔ ¬ o.Defective := by
  constructor
  · rintro hstrict (hnum | ⟨hsign, hval⟩ | ⟨hsign, hval⟩ | ⟨hsign, hval⟩ | htwice | ⟨hsign, hmem⟩)
    · exact absurd hstrict.sem_num (by omega)
    · exact absurd (hstrict.plus hsign) (by omega)
    · exact absurd (hstrict.minus hsign) (by omega)
    · exact hval (hstrict.zero hsign)
    · exact htwice hstrict.once
    · exact hstrict.undo hsign hmem
  · intro hnot
    exact { h with
      sem_num := Nat.lt_of_not_le fun hnum => hnot (.sem_num hnum)
      plus := fun hsign => Nat.lt_of_not_le fun hval => hnot (.plus hsign hval)
      minus := fun hsign => Nat.le_of_not_lt fun hval => hnot (.minus hsign hval)
      zero := fun hsign => Decidable.not_not.mp fun hval => hnot (.zero hsign hval)
      once := Decidable.not_not.mp fun htwice => hnot (.twice htwice)
      undo := fun hsign hmem => hnot (.undo hsign hmem) }

theorem grammatical_iff {arg : List UInt8} : (Scanned arg → Grammatical arg) ↔
    ∀ ops, Spells Operation.Accepted ops arg → ∀ o ∈ ops, ¬ o.Defective := by
  constructor
  · intro h ops hspells o ho
    obtain ⟨ops', hstrict⟩ := h ⟨ops, hspells⟩
    obtain rfl := hspells.unique ⟨hstrict.ne_nil, hstrict.length_le,
      fun o ho => (hstrict.each o ho).accepted, hstrict.text⟩
    exact (hspells.each o ho).toShape.strict_iff.mp (hstrict.each o ho)
  · rintro h ⟨ops, hspells⟩
    exact ⟨ops, hspells.ne_nil, hspells.length_le,
      fun o ho => (hspells.each o ho).toShape.strict_iff.mpr (h ops hspells o ho), hspells.text⟩

/-- **When `parseOps()` does what its usage says**: it comes to its end for every argument, and all is
as it should be unless the argument is a list of operations of digits, sign, digits and flags, those
behind `=` with a number that is zero in its low 16 bits, and one of them has a number that is out of
range, a zero behind `=` that is not a single digit, the same flag twice, or `u` behind `=`. -/
theorem parseOps_right_iff (arg : List UInt8) (sops : ℕ → Sembuf) :
    ∃ r, parseOps arg sops = some r ∧ (Right arg sops r ↔
      ∀ ops, Spells Operation.Accepted ops arg → ∀ o ∈ ops, ¬ o.Defective) := by
  rw [← grammatical_iff]
  obtain ⟨r, hr, hwithin, hok⟩ := run_spec ⟨0, arg, sops⟩
  refine ⟨r, hr, ?_⟩
  constructor
  · rintro hright ⟨ops, hspells⟩
    obtain rfl := Option.some.inj (hr.symm.trans (parseOps_scanned hspells sops))
    obtain ⟨ops', hspells', -⟩ := hright.holds ops.length rfl
    exact ⟨ops', hspells'⟩
  · intro h
    refine ⟨?_, ?_, hwithin⟩
    · intro hgrammatical
      obtain ⟨ops, hspells⟩ := scanned_of_grammatical hgrammatical
      obtain rfl := Option.some.inj (hr.symm.trans (parseOps_scanned hspells sops))
      exact ⟨ops.length, rfl⟩
    · intro n hn
      obtain ⟨ops, hne, hops, hlen, htext⟩ := hok n hn
      dsimp only at hlen htext
      obtain ⟨ops', hstrict⟩ := h ⟨ops, hne, by omega, hops, htext⟩
      have haccepted : Spells Operation.Accepted ops' arg := ⟨hstrict.ne_nil, hstrict.length_le,
        fun o ho => (hstrict.each o ho).accepted, hstrict.text⟩
      -- there is one run only
      obtain rfl := Option.some.inj (hr.symm.trans (parseOps_scanned haccepted sops))
      refine ⟨ops', hstrict, (Except.ok.inj hn).symm, fun i o hget => ?_⟩
      have hstored := stored_getElem? ops' (n := 0) hget sops
      rw [Nat.zero_add] at hstored
      dsimp only
      rw [hstored]
      exact (hstrict.each o (List.mem_of_getElem? hget)).holds

/-- "65536+1" is taken for an operation on semaphore 0. -/
theorem parseOps_truncates :
    ∃ r, parseOps [54, 53, 53, 51, 54, 43, 49] (fun _ => ⟨0, 0, 0⟩) = some r ∧
      r.ret = .ok 1 ∧ r.sops 0 = ⟨0, 1, 0⟩ ∧
      ¬Right [54, 53, 53, 51, 54, 43, 49] (fun _ => ⟨0, 0, 0⟩) r := by
  have hshape : Operation.Shape ⟨[54, 53, 53, 51, 54], 43, [49], []⟩ :=
    ⟨by decide, by decide +kernel, by decide, by decide, by decide +kernel, nofun⟩
  have hspells : Spells Operation.Accepted [⟨[54, 53, 53, 51, 54], 43, [49], []⟩]
      [54, 53, 53, 51, 54, 43, 49] := by
    refine ⟨by decide, by decide, fun o ho => ?_, rfl⟩
    rw [List.mem_singleton.mp ho]
    exact ⟨hshape, fun hequals => absurd hequals (by decide)⟩
  refine ⟨_, parseOps_scanned hspells _, rfl, by decide, fun hright => ?_⟩
  obtain ⟨ops, hstrict, hlen, -⟩ := hright.holds 1 rfl
  obtain ⟨o, rfl⟩ := List.length_eq_one_iff.mp hlen.symm
  have ho := hstrict.each o (List.mem_singleton_self o)
  have htext := hstrict.text
  rw [List.map_singleton, List.intercalate_singleton] at htext
  have hnum := ho.toShape.takeWhile_text
  rw [← htext] at hnum
  exact absurd (hnum ▸ ho.sem_num) (by decide)

end Tlpi.SvsemOp
