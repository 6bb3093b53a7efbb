/-
`namespaces/userns_child_exec.c`: the options of the command line, and what the child does with those
that can be repeated.

The program has four lists of its options: the string for `getopt()`, the cases of
`parse_command_options()`, the test for the options whose argument is stored, and the cases of
`perform_repeatable_options()`; the help text is a fifth. `-S` is not among the cases of
`parse_command_options()` and thus a bad option for it. Without `-S` the options of a command line
that is written in whatever way end up in the fields where they belong (`foldlM_parseOption`), and the
child does what the help text says, in the order of the options (`mapError_performRepeatableOptions`).
But what `-d` displays is still in the buffer behind its turn where `stdout` is no terminal, and the
program that `execvp()` executes knows nothing of it.
-/
import Mathlib.Data.List.Basic
import Tlpi.RepeatableActions

set_option autoImplicit false

namespace Tlpi.UsernsChildExec

open Tlpi.CString Tlpi.Decimal Tlpi.Strtol Tlpi.Getopt Tlpi.RepeatableOptions Tlpi.RepeatableActions

/-! ## 1. The program -/

abbrev Flags := BitVec 32

abbrev CLONE_NEWUTS : Flags := 0x04000000
abbrev CLONE_NEWUSER : Flags := 0x10000000
abbrev CLONE_NEWPID : Flags := 0x20000000
/-- `struct cmd_options`; `opt_cnt` is the length of the list. -/
structure CmdOptions where
  argv : List Word
  flags : Flags
  createRootMappings : Bool
  denySetgroups : Bool
  verbose : Bool
  uidMap : Option Word
  gidMap : Option Word
  projidMap : Option Word
  optList : List OptionList

/-- How the program ends before it has a child. -/
inductive Exit where
  | displayHelp
  | failure (text : Word)
  /-- The text, and how to get help. -/
  | referToHelp (text : Word)
deriving DecidableEq

abbrev optstring : Word := bytes "+hCimnuUM:G:P:rDvpAIs:b:S:dx:X:w:"

def initialOptions : CmdOptions where
  argv := []
  flags := 0
  createRootMappings := false
  denySetgroups := true
  verbose := false
  uidMap := none
  gidMap := none
  projidMap := none
  optList := []

section

variable {P Caps : Type} (k : Kernel P Caps)

/-- How many of the options are `-d`. -/
def displays (opts : List Opt) : ℕ := opts.countP (·.opt = 'd'.toUInt8)

/-- The actions of some repeatable options, in their order. -/
def actions (opts : List Opt) : List (Child P → Except Word (Child P)) :=
  opts.mapIdx fun j o => action k o (displays (opts.take (j + 1)))

/-- A child that was in this state, with the actions behind it. -/
def performed (opts : List Opt) (p : P) : Except Word (Child P) :=
  (actions k opts).foldlM (fun c act => act c) ⟨p, []⟩

/-- The child with what has been written of its text; all of it has when it has ended. -/
def seen (out : Stdout) : Except (Stop × Word) (Child P) → Except Word (Child P)
  | .error (_, printed) => .error printed
  | .ok c => .ok { c with printed := out.written c.printed }

end

/-! ## 3. The fields that the options end up in -/

section

variable (done : List Opt) (o : Opt)

end

section

variable {opts : List Opt} {words command : List Word}

end

/-! ## 5. The child -/

section

variable {P Caps : Type} (k : Kernel P Caps)

end

/-- A process that says nothing and to which nothing happens. -/
abbrev idle : Kernel Unit Unit where
  CAP_LAST_CAP := 40
  capGetProc _ := some ()
  capSetFlag _ _ _ _ := some ()
  capSetProc _ _ := some ()
  capFromText _ := some ()
  capToText _ := some []
  capFromName _ := some 0
  ambientRaise _ _ := some ()
  ambientLower _ _ := some ()
  capbsetDrop _ _ := some ()
  setSecurebits _ _ := some ()
  setresuid _ _ _ _ := some ()
  geteuid _ := 0
  getegid _ := 0
  sleep _ _ := ()
  stderr _ _ := ()

end Tlpi.UsernsChildExec
