/-
The **filter machine layer**: classic BPF, the machine that a socket or seccomp filter runs on.
Nothing here is about this repository.

An instruction is the four fields of `struct sock_filter`, and its operation code is put
together from the constants of `<linux/bpf_common.h>`; `opcode` reads it. Every
jump goes forward: a jump is a number of instructions to be left out (`skip`), and a run is a
recursion on the instructions that are left. So a run always ends, and what is to be shown of a
program is how: with a RET (`Outcome.ret`), or with a load outside of the data, an operation that
there is not, or behind the last instruction.

The scratch memory, the index register in loads, the shifts and the division are left out.
-/
import Mathlib.Tactic.Common

set_option autoImplicit false

namespace Tlpi.Bpf

/-- `struct sock_filter` -/
structure SockFilter where
  code : BitVec 16
  jt : BitVec 8
  jf : BitVec 8
  k : BitVec 32
deriving Repr, DecidableEq

abbrev BPF_LD : BitVec 16 := 0x00#16
abbrev BPF_LDX : BitVec 16 := 0x01#16
abbrev BPF_ALU : BitVec 16 := 0x04#16
abbrev BPF_JMP : BitVec 16 := 0x05#16
abbrev BPF_RET : BitVec 16 := 0x06#16
abbrev BPF_MISC : BitVec 16 := 0x07#16

abbrev BPF_W : BitVec 16 := 0x00#16
abbrev BPF_IMM : BitVec 16 := 0x00#16
abbrev BPF_ABS : BitVec 16 := 0x20#16

abbrev BPF_ADD : BitVec 16 := 0x00#16
abbrev BPF_SUB : BitVec 16 := 0x10#16
abbrev BPF_MUL : BitVec 16 := 0x20#16
abbrev BPF_OR : BitVec 16 := 0x40#16
abbrev BPF_AND : BitVec 16 := 0x50#16
abbrev BPF_XOR : BitVec 16 := 0xa0#16

abbrev BPF_JA : BitVec 16 := 0x00#16
abbrev BPF_JEQ : BitVec 16 := 0x10#16
abbrev BPF_JGT : BitVec 16 := 0x20#16
abbrev BPF_JGE : BitVec 16 := 0x30#16
abbrev BPF_JSET : BitVec 16 := 0x40#16

abbrev BPF_K : BitVec 16 := 0x00#16
abbrev BPF_X : BitVec 16 := 0x08#16
abbrev BPF_A : BitVec 16 := 0x10#16

abbrev BPF_TAX : BitVec 16 := 0x00#16
abbrev BPF_TXA : BitVec 16 := 0x80#16

/-- `BPF_STMT(code, k)` -/
def BPF_STMT (code : BitVec 16) (k : BitVec 32) : SockFilter := ⟨code, 0, 0, k⟩

/-- `BPF_JUMP(code, k, jt, jf)` -/
def BPF_JUMP (code : BitVec 16) (k : BitVec 32) (jt jf : BitVec 8) : SockFilter := ⟨code, jt, jf, k⟩

/-! ## 1. The machine -/

/-- The second operand of a jump or of the arithmetic, and what a RET returns. -/
inductive Src where
  | k
  | x
  | a
deriving Repr, DecidableEq

/-- The test of a conditional jump. -/
inductive Test where
  | jeq
  | jgt
  | jge
  | jset
deriving Repr, DecidableEq

inductive Alu where
  | add
  | sub
  | mul
  | or
  | and
  | xor
deriving Repr, DecidableEq

/-- The operations. -/
inductive Op where
  | ldAbs
  | ldImm
  | ldxImm
  | tax
  | txa
  | ret (src : Src)
  | ja
  | jump (test : Test) (src : Src)
  | alu (op : Alu) (src : Src)
deriving Repr, DecidableEq

/-- The operation codes. -/
def opcodes : List (BitVec 16 × Op) :=
  [(BPF_LD ||| BPF_W ||| BPF_ABS, .ldAbs), (BPF_LD ||| BPF_IMM, .ldImm), (BPF_LDX ||| BPF_IMM, .ldxImm),
    (BPF_MISC ||| BPF_TAX, .tax), (BPF_MISC ||| BPF_TXA, .txa),
    (BPF_RET ||| BPF_K, .ret .k), (BPF_RET ||| BPF_A, .ret .a), (BPF_JMP ||| BPF_JA, .ja),
    (BPF_JMP ||| BPF_JEQ ||| BPF_K, .jump .jeq .k), (BPF_JMP ||| BPF_JEQ ||| BPF_X, .jump .jeq .x),
    (BPF_JMP ||| BPF_JGT ||| BPF_K, .jump .jgt .k), (BPF_JMP ||| BPF_JGT ||| BPF_X, .jump .jgt .x),
    (BPF_JMP ||| BPF_JGE ||| BPF_K, .jump .jge .k), (BPF_JMP ||| BPF_JGE ||| BPF_X, .jump .jge .x),
    (BPF_JMP ||| BPF_JSET ||| BPF_K, .jump .jset .k), (BPF_JMP ||| BPF_JSET ||| BPF_X, .jump .jset .x),
    (BPF_ALU ||| BPF_ADD ||| BPF_K, .alu .add .k), (BPF_ALU ||| BPF_ADD ||| BPF_X, .alu .add .x),
    (BPF_ALU ||| BPF_SUB ||| BPF_K, .alu .sub .k), (BPF_ALU ||| BPF_SUB ||| BPF_X, .alu .sub .x),
    (BPF_ALU ||| BPF_MUL ||| BPF_K, .alu .mul .k), (BPF_ALU ||| BPF_MUL ||| BPF_X, .alu .mul .x),
    (BPF_ALU ||| BPF_OR ||| BPF_K, .alu .or .k), (BPF_ALU ||| BPF_OR ||| BPF_X, .alu .or .x),
    (BPF_ALU ||| BPF_AND ||| BPF_K, .alu .and .k), (BPF_ALU ||| BPF_AND ||| BPF_X, .alu .and .x),
    (BPF_ALU ||| BPF_XOR ||| BPF_K, .alu .xor .k), (BPF_ALU ||| BPF_XOR ||| BPF_X, .alu .xor .x)]

/-- The operation of a code, if there is one. -/
def opcode (code : BitVec 16) : Option Op := opcodes.lookup code

/-- The accumulator and the index register. -/
structure Regs where
  A : BitVec 32 := 0
  X : BitVec 32 := 0
deriving Repr, DecidableEq

/-- How a run ends. -/
inductive Outcome where
  | ret (v : BitVec 32)
  /-- A load outside of the data. -/
  | fault
  /-- An operation that there is not. -/
  | illegal
  /-- The run has left the program. -/
  | outside
deriving Repr, DecidableEq

/-- What one instruction does: go on, with a number of instructions left out, or end the run. -/
inductive Effect where
  | go (r : Regs) (skip : ℕ)
  | stop (o : Outcome)
deriving Repr, DecidableEq

def Src.value (src : Src) (f : SockFilter) (r : Regs) : BitVec 32 :=
  match src with
  | .k => f.k
  | .x => r.X
  | .a => r.A

def Test.passes (test : Test) (a b : BitVec 32) : Bool :=
  match test with
  | .jeq => a = b
  | .jgt => b < a
  | .jge => b ≤ a
  | .jset => a &&& b ≠ 0

def Alu.apply (op : Alu) (a b : BitVec 32) : BitVec 32 :=
  match op with
  | .add => a + b
  | .sub => a - b
  | .mul => a * b
  | .or => a ||| b
  | .and => a &&& b
  | .xor => a ^^^ b

/-- `load` is the 32-bit word at an offset of the data. -/
def step (load : BitVec 32 → Option (BitVec 32)) (f : SockFilter) (r : Regs) : Effect :=
  match opcode f.code with
  | none => .stop .illegal
  | some .ldAbs =>
    match load f.k with
    | some w => .go { r with A := w } 0
    | none => .stop .fault
  | some .ldImm => .go { r with A := f.k } 0
  | some .ldxImm => .go { r with X := f.k } 0
  | some .tax => .go { r with X := r.A } 0
  | some .txa => .go { r with A := r.X } 0
  | some (.ret src) => .stop (.ret (src.value f r))
  | some .ja => .go r f.k.toNat
  | some (.jump test src) =>
    .go r (if test.passes r.A (src.value f r) then f.jt.toNat else f.jf.toNat)
  | some (.alu op src) => .go { r with A := op.apply r.A (src.value f r) } 0

/-- A run from `skip` instructions on. -/
def exec (load : BitVec 32 → Option (BitVec 32)) : List SockFilter → ℕ → Regs → Outcome
  | [], _, _ => .outside
  | _ :: rest, skip + 1, r => exec load rest skip r
  | f :: rest, 0, r =>
    match step load f r with
    | .go r skip => exec load rest skip r
    | .stop o => o

/-! ## 2. What each instruction does -/

section Rules

variable {load : BitVec 32 → Option (BitVec 32)} {rest : List SockFilter} {r : Regs}

theorem exec_skip (f : SockFilter) (skip : ℕ) :
    exec load (f :: rest) (skip + 1) r = exec load rest skip r := rfl

theorem exec_ld {k w : BitVec 32} (h : load k = some w) :
    exec load (BPF_STMT (BPF_LD ||| BPF_W ||| BPF_ABS) k :: rest) 0 r =
      exec load rest 0 { r with A := w } := by
  have hop : opcode (BPF_LD ||| BPF_W ||| BPF_ABS) = some .ldAbs := by decide
  have hstep : step load (BPF_STMT (BPF_LD ||| BPF_W ||| BPF_ABS) k) r = .go { r with A := w } 0 := by
    simp only [step, BPF_STMT, hop, h]
  rw [exec, hstep]

theorem exec_ret (k : BitVec 32) :
    exec load (BPF_STMT (BPF_RET ||| BPF_K) k :: rest) 0 r = .ret k := by
  have hop : opcode (BPF_RET ||| BPF_K) = some (.ret .k) := by decide
  have hstep : step load (BPF_STMT (BPF_RET ||| BPF_K) k) r = .stop (.ret k) := by
    simp only [step, BPF_STMT, hop, Src.value]
  rw [exec, hstep]

theorem exec_ja (k : BitVec 32) (jt jf : BitVec 8) :
    exec load (BPF_JUMP (BPF_JMP ||| BPF_JA) k jt jf :: rest) 0 r = exec load rest k.toNat r := by
  have hop : opcode (BPF_JMP ||| BPF_JA) = some .ja := by decide
  have hstep : step load (BPF_JUMP (BPF_JMP ||| BPF_JA) k jt jf) r = .go r k.toNat := by
    simp only [step, BPF_JUMP, hop]
  rw [exec, hstep]

/-- A conditional jump goes on behind `jt` or `jf` instructions. -/
theorem exec_jump {code : BitVec 16} {test : Test} (h : opcode code = some (.jump test .k))
    (k : BitVec 32) (jt jf : BitVec 8) :
    exec load (BPF_JUMP code k jt jf :: rest) 0 r =
      if test.passes r.A k then exec load rest jt.toNat r else exec load rest jf.toNat r := by
  have hstep : step load (BPF_JUMP code k jt jf) r =
      .go r (if test.passes r.A k then jt.toNat else jf.toNat) := by
    simp only [step, BPF_JUMP, h, Src.value]
    rfl
  rw [exec, hstep]
  dsimp only
  split
  · rfl
  · rfl

theorem exec_jeq (k : BitVec 32) (jt jf : BitVec 8) :
    exec load (BPF_JUMP (BPF_JMP ||| BPF_JEQ ||| BPF_K) k jt jf :: rest) 0 r =
      if r.A = k then exec load rest jt.toNat r else exec load rest jf.toNat r := by
  rw [exec_jump (by decide : opcode _ = some (.jump .jeq .k))]
  simp only [Test.passes, decide_eq_true_eq]

theorem exec_jgt (k : BitVec 32) (jt jf : BitVec 8) :
    exec load (BPF_JUMP (BPF_JMP ||| BPF_JGT ||| BPF_K) k jt jf :: rest) 0 r =
      if k < r.A then exec load rest jt.toNat r else exec load rest jf.toNat r := by
  rw [exec_jump (by decide : opcode _ = some (.jump .jgt .k))]
  simp only [Test.passes, decide_eq_true_eq]

theorem exec_jge (k : BitVec 32) (jt jf : BitVec 8) :
    exec load (BPF_JUMP (BPF_JMP ||| BPF_JGE ||| BPF_K) k jt jf :: rest) 0 r =
      if k ≤ r.A then exec load rest jt.toNat r else exec load rest jf.toNat r := by
  rw [exec_jump (by decide : opcode _ = some (.jump .jge .k))]
  simp only [Test.passes, decide_eq_true_eq]

theorem exec_jset (k : BitVec 32) (jt jf : BitVec 8) :
    exec load (BPF_JUMP (BPF_JMP ||| BPF_JSET ||| BPF_K) k jt jf :: rest) 0 r =
      if r.A &&& k ≠ 0 then exec load rest jt.toNat r else exec load rest jf.toNat r := by
  rw [exec_jump (by decide : opcode _ = some (.jump .jset .k))]
  simp only [Test.passes, decide_eq_true_eq]

end Rules

end Tlpi.Bpf
