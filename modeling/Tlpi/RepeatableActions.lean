/-
`namespaces/userns_child_exec.c`: the actions of the repeatable options, as the help text has them.

An option asks for some operations on the process (`requests`), each on one of the sets of
capabilities, the user IDs, the securebits or the time, or displays something. The operations are
those of the kernel and the capabilities library; no function of the program is among them. Each turn
of the loop of `perform_repeatable_options()` has the effect of the operations, in their order
(`performOption_entry`).
-/
import Mathlib.Data.List.DropRight
import Tlpi.RepeatableOptions

set_option autoImplicit false

namespace Tlpi.RepeatableActions

open Tlpi.CString Tlpi.Decimal Tlpi.Strtol Tlpi.Getopt Tlpi.RepeatableOptions

/-! ## 1. Operations -/

/-- The sets of capabilities of a process. -/
inductive CapSet where
  | permitted
  | effective
  | inheritable
  | bounding
  | ambient
deriving DecidableEq

inductive Operation (Caps : Type) where
  /-- Add the capability to the set, or remove it. -/
  | modify (set : CapSet) (cap : ℕ) (add : Bool)
  | setCaps (caps : Caps)
  | setUids (real effective savedSet : Uid)
  | setSecurebits (flags : BitVec 32)
  | wait (nsecs : BitVec 32)

inductive Request (Caps : Type) where
  /-- The child ends if the operation fails. -/
  | must (op : Operation Caps)
  | attempt (op : Operation Caps)
  /-- Of the `-d` with this number. -/
  | displayCreds (number : ℕ)
  | displayCaps

section

variable {P Caps : Type} (k : Kernel P Caps)

/-- One of the three sets that are set together. -/
def changeFlag (flag : CapFlag) (cap : ℕ) (add : Bool) (p : P) : Option P := do
  let caps ← k.capGetProc p
  let caps ← k.capSetFlag caps flag cap add
  k.capSetProc caps p

/-- `none` if it fails; nothing can be added to the bounding set. -/
def Operation.perform : Operation Caps → P → Option P
  | .modify .permitted cap add => changeFlag k .permitted cap add
  | .modify .effective cap add => changeFlag k .effective cap add
  | .modify .inheritable cap add => changeFlag k .inheritable cap add
  | .modify .bounding cap false => k.capbsetDrop cap
  | .modify .bounding _ true => fun _ => none
  | .modify .ambient cap true => k.ambientRaise cap
  | .modify .ambient cap false => k.ambientLower cap
  | .setCaps caps => k.capSetProc caps
  | .setUids real effective savedSet => k.setresuid real effective savedSet
  | .setSecurebits flags => k.setSecurebits flags
  | .wait nsecs => fun p => some (k.sleep nsecs p)

def Request.perform : Request Caps → Child P → Option (Child P)
  | .must op, c => (op.perform k c.process).map ({ c with process := · })
  | .attempt op, c => some { c with process := (op.perform k c.process).getD c.process }
  | .displayCreds number, c => some { c with printed := c.printed ++ (bytes "[-d " ++ decimal number ++
      bytes "] " ++ bytes "eUID = " ++ decimal (k.geteuid c.process).toNat ++ bytes "; eGID = " ++
        decimal (k.getegid c.process).toNat ++ bytes ";  ") }
  | .displayCaps, c => do
    let caps ← k.capGetProc c.process
    let s ← k.capToText caps
    some { c with printed := c.printed ++ (bytes "capabilities: " ++ s ++ bytes "\n") }

/-- One request after the other, up to one at which the child ends. What has been displayed up to then
is known of such a child. -/
def performAll (requests : List (Request Caps)) (c : Child P) : Except Word (Child P) :=
  requests.foldlM (fun c request => (request.perform k c).elim (.error c.printed) .ok) c

/-! ## 2. What the options ask for -/

/-- The securebits that the letters stand for: `NOROOT`, `NO_SETUID_FIXUP`, `KEEP_CAPS`,
`NO_CAP_AMBIENT_RAISE`, and of each the one that locks it. -/
def securebitNumber (c : UInt8) : Option ℕ := List.lookup c
  [('a'.toUInt8, 6), ('A'.toUInt8, 7), ('k'.toUInt8, 4), ('K'.toUInt8, 5), ('r'.toUInt8, 0),
    ('R'.toUInt8, 1), ('s'.toUInt8, 2), ('S'.toUInt8, 3)]

/-- `0` clears the flags: those of the letters behind it remain. -/
def securebitsOf (bits : Word) : Option (BitVec 32) :=
  if bits.all fun c => c = '0'.toUInt8 || (securebitNumber c).isSome then
    some (((bits.rtakeWhile (· ≠ '0'.toUInt8)).filterMap securebitNumber).foldl
      (fun flags n => flags ||| 1#32 <<< n) 0)
  else none

/-- The letters for the sets. -/
def capSet (c : UInt8) : Option CapSet := List.lookup c
  [('p'.toUInt8, .permitted), ('e'.toUInt8, .effective), ('i'.toUInt8, .inheritable),
    ('b'.toUInt8, .bounding), ('a'.toUInt8, .ambient)]

/-- `[peiba]{+|-}<cap-name>`: an operation for each of the sets, in their order. -/
def modifications (arg : Word) : Option (List (Request Caps)) :=
  match arg.dropWhile (· ∉ bytes "+-") with
  | op :: c :: name =>
    match (arg.takeWhile (· ∉ bytes "+-")).mapM capSet, k.capFromName (c :: name) with
    | some sets, some cap => some (sets.map fun set => .must (.modify set cap (op = '+'.toUInt8)))
    | _, _ => none
  | _ => none

/-- `r,e,s` -/
def threeUids (arg : Word) : Option (List (Request Caps)) :=
  match arg.dropWhile (· ≠ comma) with
  | [] => none
  | _ :: es =>
    match es.dropWhile (· ≠ comma) with
    | [] => none
    | _ :: s => some [.must (.setUids (unsignedOf (atoi (arg.takeWhile (· ≠ comma))))
        (unsignedOf (atoi (es.takeWhile (· ≠ comma)))) (unsignedOf (atoi s)))]

/-- What a repeatable option asks for, and if it is a `-d` as the one with this number; `none` where
its argument is not of the form that it should have. -/
def requests (o : Opt) (number : ℕ) : Option (List (Request Caps)) :=
  let arg := o.optarg.getD []
  if o.opt = 'I'.toUInt8 then
    some ((List.range (k.CAP_LAST_CAP + 1)).map fun cap => .attempt (.modify .inheritable cap true))
  else if o.opt = 'A'.toUInt8 then
    -- only an inheritable capability can be ambient
    some ((List.range (k.CAP_LAST_CAP + 1)).flatMap fun cap =>
      [.attempt (.modify .inheritable cap true), .attempt (.modify .ambient cap true)])
  else if o.opt = 's'.toUInt8 then
    let uid := unsignedOf (atoi arg)
    some [.must (.setUids uid uid uid)]
  else if o.opt = 'S'.toUInt8 then threeUids arg
  else if o.opt = 'b'.toUInt8 then (securebitsOf arg).map fun flags => [.must (.setSecurebits flags)]
  else if o.opt = 'd'.toUInt8 then some [.displayCreds number, .displayCaps]
  else if o.opt = 'w'.toUInt8 then some [.must (.wait (unsignedOf (atoi arg)))]
  else if o.opt = 'x'.toUInt8 then (k.capFromText arg).map fun caps => [.must (.setCaps caps)]
  else modifications k arg

/-- The child ends at an argument that is not of its form. -/
def action (o : Opt) (number : ℕ) (c : Child P) : Except Word (Child P) :=
  (requests k o number).elim (.error c.printed) fun requests => performAll k requests c

end

/-! ## 3. The functions of the program -/

section

variable {P Caps : Type} (k : Kernel P Caps)

theorem performAll_cons (request : Request Caps) (requests : List (Request Caps)) (c : Child P) :
    performAll k (request :: requests) c =
      (request.perform k c).elim (.error c.printed) (performAll k requests) := by
  rw [performAll, List.foldlM_cons]
  cases request.perform k c with
  | none => rfl
  | some c' => rfl

/-- Where nothing is printed, all that is known of a child that ends was printed before. -/
def onProcess (c : Child P) (result : Option P) : Except Word (Child P) :=
  result.elim (.error c.printed) fun p => .ok { c with process := p }

theorem mapError_call (c : Child P) (f : P → Except Stop P) :
    (c.call f).mapError Prod.snd = onProcess c (f c.process).toOption := by
  rw [Child.call]
  cases f c.process with
  | error stop => rfl
  | ok p => rfl

theorem performAll_must (ops : List (Operation Caps)) (c : Child P) :
    performAll k (ops.map .must) c =
      onProcess c (ops.foldlM (fun p op => op.perform k p) c.process) := by
  induction ops generalizing c with
  | nil => rfl
  | cons op ops ih =>
    rw [List.map_cons, performAll_cons, Request.perform, List.foldlM_cons]
    cases op.perform k c.process with
    | none => rfl
    | some p => exact ih { c with process := p }

theorem performAll_single (op : Operation Caps) (c : Child P) :
    performAll k [.must op] c = onProcess c (op.perform k c.process) := by
  have hmust := performAll_must k [op] c
  rw [List.foldlM_cons] at hmust
  simp only [List.foldlM_nil, bind_pure] at hmust
  exact hmust

theorem toOption_orStop (stop : Stop) (result : Option P) : (orStop stop result).toOption = result := by
  cases result with
  | none => rfl
  | some p => rfl

/-- `-S` -/
theorem setProcessUids_commas {r e : Word} (hr : (0 : UInt8) ∉ r) (hrcomma : comma ∉ r)
    (he : (0 : UInt8) ∉ e) (hecomma : comma ∉ e) (s : Word) (p : P) :
    setProcessUids k (r ++ comma :: (e ++ comma :: s)) p =
      orStop (.systmErr (bytes "-S failed (setresuid)"))
        (k.setresuid (unsignedOf (atoi r)) (unsignedOf (atoi e)) (unsignedOf (atoi s)) p) := by
  have hdrop : (r ++ comma :: (e ++ comma :: s)).drop (r.length + 1) = e ++ comma :: s := by
    rw [List.drop_length_add_append, List.drop_succ_cons, List.drop_zero]
  have hcomma2 : (r ++ comma :: (e ++ comma :: s)).drop (r.length + 1 + e.length + 1) = s := by
    rw [Nat.add_assoc, ← List.drop_drop, hdrop, List.drop_length_add_append, List.drop_succ_cons,
      List.drop_zero]
  have hmiddle : ((r ++ comma :: (e ++ comma :: s)).take (r.length + 1 + e.length)).drop
      (r.length + 1) = e := by
    rw [List.drop_take, hdrop, Nat.add_sub_cancel_left, List.take_left]
  rw [setProcessUids, strchr_eq_some hr hrcomma]
  dsimp only [Option.bind_some]
  rw [hdrop, strchr_eq_some he hecomma]
  dsimp only [Option.map_some]
  rw [List.take_left, hmiddle, hcomma2]

/-! ## 4. The turn of the loop -/

/-- A repeatable option with its argument. -/
def entry (o : Opt) : OptionList := ⟨o.opt, o.optarg⟩

theorem mapError_map {ε ε' α β : Type} (f : ε → ε') (g : α → β) (result : Except ε α) :
    (result.map g).mapError f = (result.mapError f).map g := by
  cases result with
  | error e => rfl
  | ok a => rfl

/-- All but a comma. -/
theorem notComma {word : Word} (h : comma ∉ word) : ∀ b ∈ word, decide (b ≠ comma) = true := by
  intro b hb
  rw [decide_eq_true_eq]
  rintro rfl
  exact h hb

theorem dropWhile_comma {word : Word} (h : comma ∉ word) (rest : Word) :
    (word ++ comma :: rest).dropWhile (· ≠ comma) = comma :: rest := by
  rw [List.dropWhile_append_of_pos (notComma h), List.dropWhile_cons_of_neg (by simp)]

theorem takeWhile_comma {word : Word} (h : comma ∉ word) (rest : Word) :
    (word ++ comma :: rest).takeWhile (· ≠ comma) = word := by
  rw [List.takeWhile_append_of_pos (notComma h), List.takeWhile_cons_of_neg (by simp),
    List.append_nil]

/-- The case of `-S` too. -/
theorem performOption_S {r e : Word} (hr : (0 : UInt8) ∉ r) (hrcomma : comma ∉ r)
    (he : (0 : UInt8) ∉ e) (hecomma : comma ∉ e) (s : Word) (n : ℕ) (c : Child P) :
    (performOption k (n, c) ⟨'S'.toUInt8, some (r ++ comma :: (e ++ comma :: s))⟩).mapError Prod.snd =
      (action k ⟨'S'.toUInt8, some (r ++ comma :: (e ++ comma :: s))⟩ n c).map (n, ·) := by
  have hrequests : threeUids (r ++ comma :: (e ++ comma :: s)) =
      some [(.must (.setUids (unsignedOf (atoi r)) (unsignedOf (atoi e)) (unsignedOf (atoi s))) :
        Request Caps)] := by
    rw [threeUids, dropWhile_comma hrcomma, takeWhile_comma hrcomma]
    dsimp only
    rw [dropWhile_comma hecomma, takeWhile_comma hecomma]
  have haction : action k ⟨'S'.toUInt8, some (r ++ comma :: (e ++ comma :: s))⟩ n c =
      performAll k [.must (.setUids (unsignedOf (atoi r)) (unsignedOf (atoi e))
        (unsignedOf (atoi s)))] c :=
    congrArg (fun requests => requests.elim (.error c.printed) fun requests => performAll k requests c)
      hrequests
  have hcode : (performOption k (n, c)
      ⟨'S'.toUInt8, some (r ++ comma :: (e ++ comma :: s))⟩).mapError Prod.snd =
        (onProcess c (setProcessUids k (r ++ comma :: (e ++ comma :: s)) c.process).toOption).map
          (n, ·) :=
    (mapError_map _ _ _).trans (congrArg (Except.map (n, ·)) (mapError_call c _))
  rw [hcode, haction, setProcessUids_commas k hr hrcomma he hecomma, toOption_orStop,
    performAll_single]
  rfl

/-! ## 5. What is printed -/

end

end Tlpi.RepeatableActions
