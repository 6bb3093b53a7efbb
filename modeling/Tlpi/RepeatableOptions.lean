/-
`namespaces/userns_child_exec.c`, the child: what its repeatable options do.

The system calls and the functions of the capabilities library are those of a `Kernel`; each of them
can fail, and then leaves the process as it is. The loop over the options goes on from one to the next
until a function ends the process (`Stop`). What `printf()` is given goes into the buffer of `stdout`,
and how much of it has been written at some time is up to what `stdout` refers to (`Stdout.written`);
nothing in the program flushes it but the end of the process, and `execvp()` is not one.
-/
import Tlpi.Decimal
import Tlpi.Getopt

set_option autoImplicit false

namespace Tlpi.RepeatableOptions

open Tlpi.CString Tlpi.Decimal Tlpi.Strtol Tlpi.Getopt

/-! ## 1. The process and its capabilities -/

abbrev Uid := BitVec 32

/-- `CAP_PERMITTED`, `CAP_EFFECTIVE` and `CAP_INHERITABLE`. -/
inductive CapFlag where
  | permitted
  | effective
  | inheritable
deriving DecidableEq

/-- What a process of the type `P` can do with capability states of the type `Caps`, and else. -/
structure Kernel (P Caps : Type) where
  CAP_LAST_CAP : ℕ
  capGetProc : P → Option Caps
  capSetFlag : Caps → CapFlag → ℕ → Bool → Option Caps
  capSetProc : Caps → P → Option P
  capFromText : Word → Option Caps
  capToText : Caps → Option Word
  capFromName : Word → Option ℕ
  ambientRaise : ℕ → P → Option P
  ambientLower : ℕ → P → Option P
  capbsetDrop : ℕ → P → Option P
  setSecurebits : BitVec 32 → P → Option P
  setresuid : Uid → Uid → Uid → P → Option P
  geteuid : P → Uid
  getegid : P → Uid
  sleep : BitVec 32 → P → P
  stderr : Word → P → P

/-- How the child ends before its time. -/
inductive Stop where
  /-- `systmErr()`; the text of `errno` stands behind the message. -/
  | systmErr (msg : Word)
  | failure (text : Word)
  /-- A null pointer is read. -/
  | undefined
deriving DecidableEq

abbrev newline : UInt8 := 0x0a

/-- What `stdout` refers to; it is fully buffered if that is no terminal. -/
inductive Stdout where
  | terminal
  | other (bufSize : ℕ)
deriving DecidableEq

/-- What has been written of the text that was printed: the complete lines, or the full buffers (a full
buffer is written when the next byte comes). -/
def Stdout.written : Stdout → Word → Word
  | .terminal, printed => printed.rdropWhile (· ≠ newline)
  | .other bufSize, printed => printed.take ((printed.length - 1) / bufSize * bufSize)

/-- The child, and all that it has printed. -/
structure Child (P : Type) where
  process : P
  printed : Word

variable {P Caps : Type} (k : Kernel P Caps)

/-- A function of the program that prints nothing. -/
def Child.call (c : Child P) (f : P → Except Stop P) : Except (Stop × Word) (Child P) :=
  match f c.process with
  | .error stop => .error (stop, c.printed)
  | .ok p => .ok { c with process := p }

/-- A call that ends the process where it fails. -/
def orStop (stop : Stop) (result : Option P) : Except Stop P := result.elim (.error stop) .ok

/-- `modifyCapSetting()` of `cap/cap_functions.c`; `none` is -1. -/
def modifyCapSetting (flag : CapFlag) (capability : ℕ) (setting : Bool) (p : P) : Option P :=
  match k.capGetProc p with
  | none => none
  | some caps =>
    match k.capSetFlag caps flag capability setting with
    | none => none
    | some caps => k.capSetProc caps p

/-- The value of an argument of the type `uid_t` or `unsigned int`. -/
def unsignedOf (i : ℤ) : BitVec 32 := BitVec.ofInt 32 i

/-! ## 2. The functions -/

/-- Errors are ignored. -/
def raiseInheritableAndAmbientCaps (doAmbient : Bool) (p : P) : P :=
  (List.range (k.CAP_LAST_CAP + 1)).foldl (fun p cap =>
    let p := (modifyCapSetting k .inheritable cap true p).getD p
    if doAmbient then (k.ambientRaise cap p).getD p else p) p

/-- `display_creds_and_caps()` of `namespaces/userns_functions.c` -/
def displayCredsAndCaps (str : Word) (c : Child P) : Except (Stop × Word) (Child P) :=
  let printed := c.printed ++ (str ++ bytes "eUID = " ++ decimal (k.geteuid c.process).toNat ++
    bytes "; eGID = " ++ decimal (k.getegid c.process).toNat ++ bytes ";  ")
  match k.capGetProc c.process with
  | none => .error (.systmErr (bytes "cap_get_proc"), printed)
  | some caps =>
    match k.capToText caps with
    | none => .error (.systmErr (bytes "cap_to_text"), printed)
    | some s => .ok { c with printed := printed ++ (bytes "capabilities: " ++ s ++ bytes "\n") }

/-- The turn of the loop of `modify_individual_capability()` for one of the letters. -/
def modifyOneSet (op : UInt8) (name : Word) (cap : ℕ) (p : P) (set : UInt8) : Except Stop P :=
  let raising := op = '+'.toUInt8
  if set ∈ bytes "pie" then
    let flag : CapFlag := if set = 'p'.toUInt8 then .permitted
      else if set = 'e'.toUInt8 then .effective else .inheritable
    orStop (.failure (bytes "-X: modifyCapSetting() failed while " ++
      (if raising then bytes "raising" else bytes "lowering") ++ bytes " '" ++ name ++
        bytes "' in '" ++ [set] ++ bytes "'\n")) (modifyCapSetting k flag cap raising p)
  else if set = 'b'.toUInt8 then
    if raising then .error (.failure (bytes "Can't add capabilities to the bounding set\n"))
    else orStop (.systmErr (bytes "-X: PR_CAPBSET_DROP")) (k.capbsetDrop cap p)
  else if set = 'a'.toUInt8 then
    orStop (.systmErr (bytes "-X: PR_CAP_AMBIENT"))
      (if raising then k.ambientRaise cap p else k.ambientLower cap p)
  else .error (.failure (bytes "Bad switch case ('-X'): " ++ [set] ++ bytes "\n"))

/-- Neither `+` nor `-`. -/
def isNotOp (c : UInt8) : Bool := c ≠ '+'.toUInt8 ∧ c ≠ '-'.toUInt8

def modifyIndividualCapability (optval : Word) (p : P) : Except Stop P :=
  let sets := optval.takeWhile isNotOp
  match optval.dropWhile isNotOp with
  | op :: c :: name =>
    if sets.any (· ∉ bytes "peiba") then .error (.failure (bytes "Badly formed -X option\n"))
    else
      match k.capFromName (c :: name) with
      | none => .error (.failure (bytes "-X: bad capability name\n"))
      | some cap => sets.foldlM (modifyOneSet k op (c :: name) cap) p
  | _ => .error (.failure (bytes "Badly formed -X option\n"))

/-- The `SECBIT_` flag of a letter. -/
def securebit (c : UInt8) : Option (BitVec 32) := List.lookup c
  [('a'.toUInt8, 0x40), ('A'.toUInt8, 0x80), ('k'.toUInt8, 0x10), ('K'.toUInt8, 0x20),
    ('r'.toUInt8, 0x01), ('R'.toUInt8, 0x02), ('s'.toUInt8, 0x04), ('S'.toUInt8, 0x08)]

/-- The turn of the loop of `set_securebits()`. -/
def addSecurebit (secbits : BitVec 32) (c : UInt8) : Except Stop (BitVec 32) :=
  if c = '0'.toUInt8 then .ok 0
  else
    match securebit c with
    | some bit => .ok (secbits ||| bit)
    | none => .error (.failure (bytes "Unexpected value for '-b' (securebits flag): " ++ [c] ++
        bytes "\n"))

def setSecurebits (optval : Word) (p : P) : Except Stop P :=
  match optval.foldlM addSecurebit 0 with
  | .error stop => .error stop
  | .ok secbits => orStop (.systmErr (bytes "prctl-PR_SET_SECUREBITS")) (k.setSecurebits secbits p)

/-- `,` -/
abbrev comma : UInt8 := ','.toUInt8

def setProcessUids (optval : Word) (p : P) : Except Stop P :=
  let comma1 := strchr optval comma
  let comma2 := comma1.bind fun c => (strchr (optval.drop (c + 1)) comma).map (c + 1 + ·)
  match comma1, comma2 with
  | some comma1, some comma2 =>
    orStop (.systmErr (bytes "-S failed (setresuid)"))
      (k.setresuid (unsignedOf (atoi (optval.take comma1)))
        (unsignedOf (atoi ((optval.take comma2).drop (comma1 + 1))))
        (unsignedOf (atoi (optval.drop (comma2 + 1)))) p)
  | _, _ => .error (.failure (bytes "Expected three comma-separated UIDs: -S " ++ optval ++ bytes "\n"))

/-! ## 3. The loop over the options -/

/-- `struct option_list` -/
structure OptionList where
  opt : UInt8
  val : Option Word
deriving DecidableEq

/-- A function that reads the value of an option. -/
def OptionList.withVal (o : OptionList) (f : Word → Except Stop P) : Except Stop P :=
  match o.val with
  | none => .error .undefined
  | some val => f val

/-- The turn of the loop, with `display_cnt`. -/
def performOption (s : ℕ × Child P) (o : OptionList) : Except (Stop × Word) (ℕ × Child P) :=
  let (displayCnt, c) := s
  if o.opt = 'A'.toUInt8 then
    .ok (displayCnt, { c with process := raiseInheritableAndAmbientCaps k true c.process })
  else if o.opt = 'b'.toUInt8 then
    (c.call fun p => o.withVal fun val => setSecurebits k val p).map (displayCnt, ·)
  else if o.opt = 'd'.toUInt8 then
    (displayCredsAndCaps k (bytes "[-d " ++ decimal (displayCnt + 1) ++ bytes "] ") c).map
      (displayCnt + 1, ·)
  else if o.opt = 'I'.toUInt8 then
    .ok (displayCnt, { c with process := raiseInheritableAndAmbientCaps k false c.process })
  else if o.opt = 's'.toUInt8 then
    (c.call fun p => o.withVal fun val =>
      let newuid := unsignedOf (atoi val)
      orStop (.systmErr (bytes "setresuid")) (k.setresuid newuid newuid newuid p)).map (displayCnt, ·)
  else if o.opt = 'S'.toUInt8 then
    (c.call fun p => o.withVal fun val => setProcessUids k val p).map (displayCnt, ·)
  else if o.opt = 'w'.toUInt8 then
    (c.call fun p => o.withVal fun val => .ok (k.sleep (unsignedOf (atoi val)) p)).map (displayCnt, ·)
  else if o.opt = 'x'.toUInt8 then
    (c.call fun p => o.withVal fun val =>
      match k.capFromText val with
      | none => .error (.systmErr (bytes "-x: cap_from_text"))
      | some caps => orStop (.systmErr (bytes "-x: cap_set_proc()")) (k.capSetProc caps p)).map
        (displayCnt, ·)
  else if o.opt = 'X'.toUInt8 then
    (c.call fun p => o.withVal fun val => modifyIndividualCapability k val p).map (displayCnt, ·)
  else
    .ok (displayCnt, { c with process := k.stderr (bytes "Unexpected option (-" ++ [o.opt] ++
      bytes ") in perform_repeatable_options()\n") c.process })

end Tlpi.RepeatableOptions
