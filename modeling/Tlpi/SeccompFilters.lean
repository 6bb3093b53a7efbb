/-
`seccomp/seccomp_control_open.c`, `seccomp/seccomp_multiarch.c` and `seccomp/seccomp_arg64.c`:
what the filters that these programs install decide.

A filter is an array of instructions with hand-counted jumps, run by the kernel on a
`struct seccomp_data` (`Tlpi.Bpf`). The data is 64 bytes in memory, and the filters load 32-bit
words of it: a call's 64-bit argument is two words, the low one first on the machines that the
programs are for. Each filter is written here as the source has it, with the lines that the
preprocessor chooses for a machine, and beside it stands its policy, which says of the call
itself what is to become of it.
-/
import Mathlib.Data.Fin.VecNotation
import Mathlib.Data.List.OfFn
import Tlpi.Bpf
import Tlpi.LittleEndian

set_option autoImplicit false

namespace Tlpi.SeccompFilters

open Tlpi.Bpf Tlpi.LittleEndian

/-! ## 1. The data of a filter -/

/-- `struct seccomp_data` -/
structure SeccompData where
  nr : BitVec 32
  arch : BitVec 32
  instructionPointer : BitVec 64
  args : Fin 6 → BitVec 64

namespace SeccompData

/-- The bytes of the structure, on a little-endian machine. -/
def bytes (d : SeccompData) : List UInt8 :=
  toBytes 4 d.nr.toNat ++ (toBytes 4 d.arch.toNat ++ (toBytes 8 d.instructionPointer.toNat ++
    (List.ofFn fun i => toBytes 8 (d.args i).toNat).flatten))

/-- The kernel lets a filter load only aligned words of the structure. -/
def load (d : SeccompData) (k : BitVec 32) : Option (BitVec 32) :=
  if k.toNat % 4 = 0 ∧ k.toNat < 64 then
    some (BitVec.ofNat 32 (ofBytes ((d.bytes.drop k.toNat).take 4)))
  else none

end SeccompData

/-- `offsetof(struct seccomp_data, nr)` -/
abbrev offsetof_nr : BitVec 32 := 0

/-- `offsetof(struct seccomp_data, arch)` -/
abbrev offsetof_arch : BitVec 32 := 4

/-- `offsetof(struct seccomp_data, args[i])` -/
abbrev offsetof_args (i : Fin 6) : BitVec 32 := BitVec.ofNat 32 (16 + 8 * i)

/-- The low and the high half of an argument. -/
def low (v : BitVec 64) : BitVec 32 := v.setWidth 32

def high (v : BitVec 64) : BitVec 32 := (v >>> 32).setWidth 32

/-- What the filter says of a call. -/
def run (filter : List SockFilter) (d : SeccompData) : Outcome := exec d.load filter 0 {}

section Load

variable {d : SeccompData}

/-- The word at the offset where a number was laid out. -/
theorem load_of_bytes {front back : List UInt8} {n : ℕ} {k : BitVec 32}
    (hbytes : d.bytes = front ++ (toBytes 4 n ++ back)) (hk : front.length = k.toNat)
    (hin : k.toNat % 4 = 0 ∧ k.toNat < 64) : d.load k = some (BitVec.ofNat 32 n) := by
  rw [SeccompData.load, if_pos hin, hbytes, ← hk, List.drop_left,
    List.take_left' (length_toBytes 4 n), ofBytes_toBytes]
  congr 1
  apply BitVec.eq_of_toNat_eq
  simp

theorem load_nr : d.load offsetof_nr = some d.nr := by
  have hbytes : d.bytes = [] ++ (toBytes 4 d.nr.toNat ++ _) := rfl
  rw [load_of_bytes hbytes rfl (by decide), BitVec.ofNat_toNat, BitVec.setWidth_eq]

theorem load_arch : d.load offsetof_arch = some d.arch := by
  have hbytes : d.bytes = toBytes 4 d.nr.toNat ++ (toBytes 4 d.arch.toNat ++ _) := rfl
  rw [load_of_bytes hbytes (length_toBytes 4 _) (by decide), BitVec.ofNat_toNat, BitVec.setWidth_eq]

/-- Where the two words of an argument are. -/
theorem bytes_args (i : Fin 6) : ∃ front back : List UInt8, front.length = 16 + 8 * i ∧
    d.bytes = front ++ (toBytes 4 (d.args i).toNat ++
      (toBytes 4 ((d.args i).toNat / 2 ^ 32) ++ back)) := by
  let args : List (List UInt8) := List.ofFn fun i => toBytes 8 (d.args i).toNat
  have hi : (i : ℕ) < args.length := by
    rw [List.length_ofFn]
    exact i.isLt
  have hargs : args.flatten =
      (args.take i).flatten ++ (toBytes 8 (d.args i).toNat ++ (args.drop (i + 1)).flatten) := by
    have hget : args[(i : ℕ)] = toBytes 8 (d.args i).toNat := List.getElem_ofFn _
    rw [← hget, ← List.flatten_cons, ← List.drop_eq_getElem_cons hi, ← List.flatten_append,
      List.take_append_drop]
  have hlen : (args.take i).flatten.length = 8 * i := by
    have hall : (args.take i).map List.length = List.replicate i 8 := by
      rw [List.eq_replicate_iff]
      constructor
      · rw [List.length_map, List.length_take, Nat.min_eq_left hi.le]
      · intro n hn
        obtain ⟨arg, harg, rfl⟩ := List.mem_map.mp hn
        obtain ⟨j, rfl⟩ := List.mem_ofFn.mp (List.mem_of_mem_take harg)
        exact length_toBytes 8 _
    rw [List.length_flatten, hall, List.sum_replicate_nat, Nat.mul_comm]
  refine ⟨toBytes 4 d.nr.toNat ++ (toBytes 4 d.arch.toNat ++
    (toBytes 8 d.instructionPointer.toNat ++ (args.take i).flatten)), (args.drop (i + 1)).flatten,
    ?_, ?_⟩
  · simp only [List.length_append, length_toBytes, hlen]
    omega
  · have hsplit : ∀ v : ℕ, toBytes 8 v = toBytes 4 v ++ toBytes 4 (v / 2 ^ 32) := toBytes_add 4 4
    rw [SeccompData.bytes, show (List.ofFn fun i => toBytes 8 (d.args i).toNat).flatten = _ from hargs,
      hsplit (d.args i).toNat]
    simp only [List.append_assoc]

theorem load_low (i : Fin 6) : d.load (offsetof_args i) = some (low (d.args i)) := by
  obtain ⟨front, back, hlen, hbytes⟩ := @bytes_args d i
  have hk : (offsetof_args i).toNat = 16 + 8 * i := by
    rw [BitVec.toNat_ofNat]
    omega
  rw [load_of_bytes hbytes (hlen.trans hk.symm) (by omega), BitVec.ofNat_toNat, low]

theorem load_high (i : Fin 6) : d.load (offsetof_args i + 4) = some (high (d.args i)) := by
  obtain ⟨front, back, hlen, hbytes⟩ := @bytes_args d i
  have hk : (offsetof_args i + 4).toNat = 16 + 8 * i + 4 := by
    have hfour : (4 : BitVec 32).toNat = 4 := rfl
    rw [BitVec.toNat_add, BitVec.toNat_ofNat, hfour]
    omega
  rw [← List.append_assoc] at hbytes
  rw [load_of_bytes hbytes (by rw [List.length_append, hlen, length_toBytes, hk]) (by omega), high]
  congr 1
  apply BitVec.eq_of_toNat_eq
  rw [BitVec.toNat_ofNat, BitVec.toNat_setWidth, BitVec.toNat_ushiftRight, Nat.shiftRight_eq_div_pow]

end Load

/-! ## 2. The constants -/

abbrev SECCOMP_RET_KILL_PROCESS : BitVec 32 := 0x80000000
abbrev SECCOMP_RET_ERRNO : BitVec 32 := 0x00050000
abbrev SECCOMP_RET_ALLOW : BitVec 32 := 0x7fff0000

abbrev AUDIT_ARCH_X86_64 : BitVec 32 := 0xc000003e
abbrev AUDIT_ARCH_I386 : BitVec 32 := 0x40000003
abbrev AUDIT_ARCH_AARCH64 : BitVec 32 := 0xc00000b7

/-- All numbers of x32 calls have this bit, and no x86-64 call has a number from it on. -/
abbrev X32_SYSCALL_BIT : BitVec 32 := 0x40000000

abbrev O_WRONLY : BitVec 32 := 1
abbrev O_RDWR : BitVec 32 := 2
abbrev O_CREAT : BitVec 32 := 0x40
abbrev ENOTSUP : BitVec 32 := 95

/-! ## 3. `seccomp_control_open.c` -/

/-- The machines that the program is for. -/
inductive Machine where
  | x86_64
  | aarch64
deriving Repr, DecidableEq

/-- `__NR_open`, which some machines do not have. -/
def NR_open : Machine → Option (BitVec 32)
  | .x86_64 => some 2
  | .aarch64 => none

/-- `__NR_openat` -/
def NR_openat : Machine → BitVec 32
  | .x86_64 => 257
  | .aarch64 => 56

def auditArch : Machine → BitVec 32
  | .x86_64 => AUDIT_ARCH_X86_64
  | .aarch64 => AUDIT_ARCH_AARCH64

/-- The architecture check, which ends with the call's number in the accumulator. -/
def archCheck : Machine → List SockFilter
  | .x86_64 =>
    [BPF_STMT (BPF_LD ||| BPF_W ||| BPF_ABS) offsetof_arch,
      BPF_JUMP (BPF_JMP ||| BPF_JEQ ||| BPF_K) AUDIT_ARCH_X86_64 0 2,
      BPF_STMT (BPF_LD ||| BPF_W ||| BPF_ABS) offsetof_nr,
      BPF_JUMP (BPF_JMP ||| BPF_JGE ||| BPF_K) X32_SYSCALL_BIT 0 1,
      BPF_STMT (BPF_RET ||| BPF_K) SECCOMP_RET_KILL_PROCESS]
  | .aarch64 =>
    [BPF_STMT (BPF_LD ||| BPF_W ||| BPF_ABS) offsetof_arch,
      BPF_JUMP (BPF_JMP ||| BPF_JEQ ||| BPF_K) AUDIT_ARCH_AARCH64 1 0,
      BPF_STMT (BPF_RET ||| BPF_K) SECCOMP_RET_KILL_PROCESS,
      BPF_STMT (BPF_LD ||| BPF_W ||| BPF_ABS) offsetof_nr]

/-- `#ifdef __NR_open` -/
def openCheck (m : Machine) : List SockFilter :=
  match NR_open m with
  | some nr =>
    [BPF_JUMP (BPF_JMP ||| BPF_JEQ ||| BPF_K) nr 0 2,
      BPF_STMT (BPF_LD ||| BPF_W ||| BPF_ABS) (offsetof_args 1),
      BPF_JUMP (BPF_JMP ||| BPF_JA) 3 0 0]
  | none => []

def openatCheck (m : Machine) : List SockFilter :=
  [BPF_JUMP (BPF_JMP ||| BPF_JEQ ||| BPF_K) (NR_openat m) 1 0,
    BPF_STMT (BPF_RET ||| BPF_K) SECCOMP_RET_ALLOW,
    BPF_STMT (BPF_LD ||| BPF_W ||| BPF_ABS) (offsetof_args 2)]

/-- The flags are in the accumulator. -/
def flagsCheck : List SockFilter :=
  [BPF_JUMP (BPF_JMP ||| BPF_JSET ||| BPF_K) O_CREAT 0 1,
    BPF_STMT (BPF_RET ||| BPF_K) SECCOMP_RET_KILL_PROCESS,
    BPF_JUMP (BPF_JMP ||| BPF_JSET ||| BPF_K) (O_WRONLY ||| O_RDWR) 0 1,
    BPF_STMT (BPF_RET ||| BPF_K) (SECCOMP_RET_ERRNO ||| ENOTSUP),
    BPF_STMT (BPF_RET ||| BPF_K) SECCOMP_RET_ALLOW]

/-- The `filter` of `install_filter()`. -/
def controlOpen (m : Machine) : List SockFilter :=
  archCheck m ++ (openCheck m ++ (openatCheck m ++ flagsCheck))

/-- What is to become of a call that opens a file with these flags. -/
def flagsPolicy (flags : BitVec 32) : BitVec 32 :=
  if flags &&& O_CREAT ≠ 0 then SECCOMP_RET_KILL_PROCESS
  else if flags &&& O_WRONLY ≠ 0 ∨ flags &&& O_RDWR ≠ 0 then SECCOMP_RET_ERRNO ||| ENOTSUP
  else SECCOMP_RET_ALLOW

/-- What is to become of a call. -/
def controlOpenPolicy (m : Machine) (d : SeccompData) : BitVec 32 :=
  if d.arch ≠ auditArch m ∨ (m = .x86_64 ∧ X32_SYSCALL_BIT ≤ d.nr) then SECCOMP_RET_KILL_PROCESS
  else if NR_open m = some d.nr then flagsPolicy (low (d.args 1))
  else if d.nr = NR_openat m then flagsPolicy (low (d.args 2))
  else SECCOMP_RET_ALLOW

theorem ite_ite_ret (c c' : Prop) [Decidable c] [Decidable c'] (u v w : BitVec 32) :
    Outcome.ret (if c then u else if c' then v else w) =
      if c then .ret u else if c' then .ret v else .ret w := by
  rw [apply_ite Outcome.ret, apply_ite Outcome.ret]

theorem exec_flagsCheck (load : BitVec 32 → Option (BitVec 32)) (r : Regs) :
    exec load flagsCheck 0 r = .ret (flagsPolicy r.A) := by
  have hor : r.A &&& (O_WRONLY ||| O_RDWR) ≠ 0 ↔ r.A &&& O_WRONLY ≠ 0 ∨ r.A &&& O_RDWR ≠ 0 := by
    rw [BitVec.and_or_distrib_left]
    exact (not_congr BitVec.or_eq_zero_iff).trans not_and_or
  simp only [flagsCheck, flagsPolicy, exec_jset, exec_ret, exec_skip, BitVec.reduceToNat, hor]
  split
  · rfl
  · split
    · rfl
    · rfl

/-- The filter, run through on a call. -/
theorem run_controlOpen (m : Machine) (d : SeccompData) :
    run (controlOpen m) d = .ret (controlOpenPolicy m d) := by
  cases m with
  | x86_64 =>
    simp only [run, controlOpen, archCheck, openCheck, openatCheck, NR_open, NR_openat,
      List.cons_append, List.nil_append, exec_ld load_arch, exec_ld load_nr, exec_ld (load_low _),
      exec_jeq, exec_jge, exec_ja, exec_ret, exec_skip, exec_flagsCheck, BitVec.reduceToNat]
    by_cases harch : d.arch = AUDIT_ARCH_X86_64
    · by_cases hx32 : X32_SYSCALL_BIT ≤ d.nr
      · rw [if_pos harch, if_pos hx32, controlOpenPolicy, if_pos (.inr ⟨rfl, hx32⟩)]
      · have hours : ¬(d.arch ≠ auditArch .x86_64 ∨
            (Machine.x86_64 = .x86_64 ∧ X32_SYSCALL_BIT ≤ d.nr)) :=
          not_or.mpr ⟨not_not.mpr harch, fun h => hx32 h.2⟩
        have hopen : NR_open .x86_64 = some d.nr ↔ d.nr = 2 := Option.some_inj.trans eq_comm
        rw [if_pos harch, if_neg hx32, controlOpenPolicy, if_neg hours, if_congr hopen rfl rfl]
        exact (ite_ite_ret _ _ _ _ _).symm
    · rw [if_neg harch, controlOpenPolicy, if_pos (.inl harch)]
  | aarch64 =>
    simp only [run, controlOpen, archCheck, openCheck, openatCheck, NR_open, NR_openat,
      List.cons_append, List.nil_append, exec_ld load_arch, exec_ld load_nr, exec_ld (load_low _),
      exec_jeq, exec_ret, exec_skip, exec_flagsCheck, BitVec.reduceToNat]
    by_cases harch : d.arch = AUDIT_ARCH_AARCH64
    · have hours : ¬(d.arch ≠ auditArch .aarch64 ∨
          (Machine.aarch64 = .x86_64 ∧ X32_SYSCALL_BIT ≤ d.nr)) :=
        not_or.mpr ⟨not_not.mpr harch, fun h => nomatch h.1⟩
      -- there is no `open()` here
      have hopen : NR_open .aarch64 ≠ some d.nr := Option.some_ne_none _ |>.symm
      rw [if_pos harch, controlOpenPolicy, if_neg hours, if_neg hopen]
      exact (apply_ite Outcome.ret _ _ _).symm
    · rw [if_neg harch, controlOpenPolicy, if_pos (.inl harch)]

/-! ## 4. `seccomp_multiarch.c` -/

abbrev NR_mq_notify_x86_64 : BitVec 32 := 244
abbrev NR_mq_notify_i386 : BitVec 32 := 281

/-- The call's number has `X32_SYSCALL_BIT` as well. -/
abbrev NR_mq_notify_x32 : BitVec 32 := 527

/-- The `filter` of `install_filter()`. -/
def multiarch : List SockFilter :=
  [BPF_STMT (BPF_LD ||| BPF_W ||| BPF_ABS) offsetof_arch,
    BPF_JUMP (BPF_JMP ||| BPF_JEQ ||| BPF_K) AUDIT_ARCH_X86_64 0 5,
    BPF_STMT (BPF_LD ||| BPF_W ||| BPF_ABS) offsetof_nr,
    BPF_JUMP (BPF_JMP ||| BPF_JEQ ||| BPF_K) NR_mq_notify_x86_64 0 1,
    BPF_STMT (BPF_RET ||| BPF_K) (SECCOMP_RET_ERRNO ||| NR_mq_notify_x86_64),
    BPF_JUMP (BPF_JMP ||| BPF_JEQ ||| BPF_K) (NR_mq_notify_x32 + X32_SYSCALL_BIT) 0 5,
    BPF_STMT (BPF_RET ||| BPF_K) (SECCOMP_RET_ERRNO ||| NR_mq_notify_x32),
    BPF_JUMP (BPF_JMP ||| BPF_JEQ ||| BPF_K) AUDIT_ARCH_I386 0 4,
    BPF_STMT (BPF_LD ||| BPF_W ||| BPF_ABS) offsetof_nr,
    BPF_JUMP (BPF_JMP ||| BPF_JEQ ||| BPF_K) NR_mq_notify_i386 0 1,
    BPF_STMT (BPF_RET ||| BPF_K) (SECCOMP_RET_ERRNO ||| NR_mq_notify_i386),
    BPF_STMT (BPF_RET ||| BPF_K) SECCOMP_RET_ALLOW,
    BPF_STMT (BPF_RET ||| BPF_K) SECCOMP_RET_KILL_PROCESS]

/-- The ABIs of an x86-64 system. -/
inductive Abi where
  | x86_64
  | x32
  | i386
deriving Repr, DecidableEq

/-- The call `mq_notify()`, made through an ABI. -/
def IsMqNotify (d : SeccompData) : Abi → Prop
  | .x86_64 => d.arch = AUDIT_ARCH_X86_64 ∧ d.nr = 244
  | .x32 => d.arch = AUDIT_ARCH_X86_64 ∧ d.nr = 527 + X32_SYSCALL_BIT
  | .i386 => d.arch = AUDIT_ARCH_I386 ∧ d.nr = 281

instance (d : SeccompData) : ∀ abi, Decidable (IsMqNotify d abi)
  | .x86_64 => inferInstanceAs (Decidable (_ ∧ _))
  | .x32 => inferInstanceAs (Decidable (_ ∧ _))
  | .i386 => inferInstanceAs (Decidable (_ ∧ _))

/-- What is to become of a call. -/
def multiarchPolicy (d : SeccompData) : BitVec 32 :=
  if IsMqNotify d .x86_64 then SECCOMP_RET_ERRNO ||| 244
  else if IsMqNotify d .x32 then SECCOMP_RET_ERRNO ||| 527
  else if IsMqNotify d .i386 then SECCOMP_RET_ERRNO ||| 281
  else if d.arch = AUDIT_ARCH_X86_64 ∨ d.arch = AUDIT_ARCH_I386 then SECCOMP_RET_ALLOW
  else SECCOMP_RET_KILL_PROCESS

theorem run_multiarch (d : SeccompData) : run multiarch d = .ret (multiarchPolicy d) := by
  simp only [run, multiarch, exec_ld load_arch, exec_ld load_nr, exec_jeq, exec_ret, exec_skip,
    BitVec.reduceToNat]
  by_cases harch : d.arch = AUDIT_ARCH_X86_64
  · have hi386 : ¬IsMqNotify d .i386 := fun h => absurd (harch.symm.trans h.1) (by decide)
    have hx86 : IsMqNotify d .x86_64 ↔ d.nr = NR_mq_notify_x86_64 := and_iff_right harch
    have hx32 : IsMqNotify d .x32 ↔ d.nr = NR_mq_notify_x32 + X32_SYSCALL_BIT := and_iff_right harch
    have hours : d.arch = AUDIT_ARCH_X86_64 ∨ d.arch = AUDIT_ARCH_I386 := .inl harch
    rw [if_pos harch, multiarchPolicy, if_neg hi386, if_pos hours, if_congr hx86 rfl rfl,
      if_congr hx32 rfl rfl]
    exact (ite_ite_ret _ _ _ _ _).symm
  · have hx86 : ¬IsMqNotify d .x86_64 := fun h => harch h.1
    have hx32 : ¬IsMqNotify d .x32 := fun h => harch h.1
    rw [if_neg harch, multiarchPolicy, if_neg hx86, if_neg hx32]
    by_cases hi : d.arch = AUDIT_ARCH_I386
    · have hi386 : IsMqNotify d .i386 ↔ d.nr = NR_mq_notify_i386 := and_iff_right hi
      have hours : d.arch = AUDIT_ARCH_X86_64 ∨ d.arch = AUDIT_ARCH_I386 := .inr hi
      rw [if_pos hi, if_congr hi386 rfl rfl, if_pos hours]
      exact (apply_ite Outcome.ret _ _ _).symm
    · rw [if_neg hi, if_neg (fun h => hi h.1), if_neg (not_or.mpr ⟨harch, hi⟩)]

/-- **The two programs' filters decide their policies**, on each machine and for every call: the
run stays inside the program and ends in a RET of what the policy says. -/
theorem filters_decide_policies :
    (∀ (m : Machine) (d : SeccompData), run (controlOpen m) d = .ret (controlOpenPolicy m d)) ∧
      ∀ d : SeccompData, run multiarch d = .ret (multiarchPolicy d) :=
  ⟨run_controlOpen, run_multiarch⟩

/-! ## 5. `seccomp_arg64.c` -/

/-- `__NR_lseek` -/
abbrev NR_lseek : BitVec 32 := 8

/-- The `filter` of `install_filter()`. -/
def arg64 : List SockFilter :=
  [BPF_STMT (BPF_LD ||| BPF_W ||| BPF_ABS) offsetof_arch,
    BPF_JUMP (BPF_JMP ||| BPF_JEQ ||| BPF_K) AUDIT_ARCH_X86_64 0 2,
    BPF_STMT (BPF_LD ||| BPF_W ||| BPF_ABS) offsetof_nr,
    BPF_JUMP (BPF_JMP ||| BPF_JGE ||| BPF_K) X32_SYSCALL_BIT 0 1,
    BPF_STMT (BPF_RET ||| BPF_K) SECCOMP_RET_KILL_PROCESS,
    BPF_JUMP (BPF_JMP ||| BPF_JEQ ||| BPF_K) NR_lseek 1 0,
    BPF_STMT (BPF_RET ||| BPF_K) SECCOMP_RET_ALLOW,
    -- the top 4 bytes of `offset`
    BPF_STMT (BPF_LD ||| BPF_W ||| BPF_ABS) (offsetof_args 1 + 4),
    BPF_JUMP (BPF_JMP ||| BPF_JEQ ||| BPF_K) 0 1 0,
    BPF_STMT (BPF_RET ||| BPF_K) (SECCOMP_RET_ERRNO ||| 2),
    -- and the bottom 4 bytes
    BPF_STMT (BPF_LD ||| BPF_W ||| BPF_ABS) (offsetof_args 1),
    BPF_JUMP (BPF_JMP ||| BPF_JGT ||| BPF_K) 1000 0 1,
    BPF_STMT (BPF_RET ||| BPF_K) (SECCOMP_RET_ERRNO ||| 1),
    BPF_STMT (BPF_RET ||| BPF_K) SECCOMP_RET_ALLOW]

/-- The `offset` argument of `lseek()`, an `off_t`. -/
def offset (d : SeccompData) : ℤ := (d.args 1).toInt

/-- What is to become of a call: an `lseek()` beyond byte 1000 fails, with an error that tells
whether the offset is bigger than 32 bits. -/
def arg64Policy (d : SeccompData) : BitVec 32 :=
  if d.arch ≠ AUDIT_ARCH_X86_64 ∨ X32_SYSCALL_BIT ≤ d.nr then SECCOMP_RET_KILL_PROCESS
  else if d.nr ≠ NR_lseek then SECCOMP_RET_ALLOW
  else if offset d ≤ 1000 then SECCOMP_RET_ALLOW
  else if offset d < 2 ^ 32 then SECCOMP_RET_ERRNO ||| 1
  else SECCOMP_RET_ERRNO ||| 2

/-- What becomes of an `lseek()`, by the two halves of the offset. -/
def seekVerdict (v : BitVec 64) : BitVec 32 :=
  if high v = 0 then
    if 1000 < low v then SECCOMP_RET_ERRNO ||| 1 else SECCOMP_RET_ALLOW
  else SECCOMP_RET_ERRNO ||| 2

theorem run_arg64 (d : SeccompData) : run arg64 d = .ret
    (if d.arch ≠ AUDIT_ARCH_X86_64 ∨ X32_SYSCALL_BIT ≤ d.nr then SECCOMP_RET_KILL_PROCESS
      else if d.nr ≠ NR_lseek then SECCOMP_RET_ALLOW else seekVerdict (d.args 1)) := by
  simp only [run, arg64, exec_ld load_arch, exec_ld load_nr, exec_ld (load_high _),
    exec_ld (load_low _), exec_jeq, exec_jge, exec_jgt, exec_ret, exec_skip, BitVec.reduceToNat]
  by_cases harch : d.arch = AUDIT_ARCH_X86_64
  · by_cases hx32 : X32_SYSCALL_BIT ≤ d.nr
    · rw [if_pos harch, if_pos hx32, if_pos (.inr hx32)]
    · rw [if_pos harch, if_neg hx32, if_neg (not_or.mpr ⟨not_not.mpr harch, hx32⟩)]
      by_cases hseek : d.nr = NR_lseek
      · rw [if_pos hseek, if_neg (not_not.mpr hseek), seekVerdict]
        rw [apply_ite Outcome.ret, apply_ite Outcome.ret]
      · rw [if_neg hseek, if_pos hseek]
  · rw [if_neg harch, if_pos (.inl harch)]

/-- The halves of an offset that is not negative. -/
theorem halves (v : BitVec 64) :
    (high v = 0 ↔ v.toNat < 2 ^ 32) ∧ (low v).toNat = v.toNat % 2 ^ 32 := by
  constructor
  · have hlt := v.isLt
    have hhigh : (high v).toNat = v.toNat / 2 ^ 32 := by
      rw [high, BitVec.toNat_setWidth, BitVec.toNat_ushiftRight, Nat.shiftRight_eq_div_pow]
      omega
    rw [← BitVec.toNat_inj, hhigh]
    have hzero : (0 : BitVec 32).toNat = 0 := rfl
    rw [hzero]
    omega
  · rw [low, BitVec.toNat_setWidth]

theorem seekVerdict_of_nonneg {v : BitVec 64} (h : 0 ≤ v.toInt) : seekVerdict v =
    if v.toInt ≤ 1000 then SECCOMP_RET_ALLOW
    else if v.toInt < 2 ^ 32 then SECCOMP_RET_ERRNO ||| 1 else SECCOMP_RET_ERRNO ||| 2 := by
  obtain ⟨hhigh, hlow⟩ := halves v
  have hlt := v.isLt
  have hint : v.toInt = v.toNat := by
    rw [BitVec.toInt_eq_toNat_cond] at h ⊢
    split at h
    · rename_i hpos
      rw [if_pos hpos]
    · omega
  have hthousand : (1000 : BitVec 32) < low v ↔ 1000 < v.toNat % 2 ^ 32 := by
    rw [BitVec.lt_def, hlow]
    rfl
  rw [seekVerdict, hint, if_congr hhigh rfl rfl, if_congr hthousand rfl rfl]
  by_cases hfits : v.toNat < 2 ^ 32
  · rw [if_pos hfits, Nat.mod_eq_of_lt hfits]
    by_cases hle : v.toNat ≤ 1000
    · rw [if_neg (by omega), if_pos (by omega)]
    · rw [if_pos (by omega), if_neg (by omega), if_pos (by omega)]
  · rw [if_neg hfits, if_neg (by omega), if_neg (by omega)]

/-- The top half of a negative offset is not zero. -/
theorem seekVerdict_of_neg {v : BitVec 64} (h : v.toInt < 0) :
    seekVerdict v = SECCOMP_RET_ERRNO ||| 2 := by
  have hlt := v.isLt
  have hbig : ¬v.toNat < 2 ^ 32 := by
    rw [BitVec.toInt_eq_toNat_cond] at h
    split at h
    · omega
    · omega
  rw [seekVerdict, if_neg fun hzero => hbig ((halves v).1.mp hzero)]

/-- **The filter decides its policy of every call but an `lseek()` with a negative offset.** -/
theorem arg64_decides_iff (d : SeccompData) : run arg64 d = .ret (arg64Policy d) ↔
    ¬(d.arch = AUDIT_ARCH_X86_64 ∧ d.nr = NR_lseek ∧ offset d < 0) := by
  rw [run_arg64, arg64Policy, offset, Outcome.ret.injEq]
  by_cases hours : d.arch ≠ AUDIT_ARCH_X86_64 ∨ X32_SYSCALL_BIT ≤ d.nr
  · rw [if_pos hours, if_pos hours]
    refine iff_of_true rfl ?_
    rintro ⟨harch, hseek, -⟩
    rcases hours with hother | hx32
    · exact hother harch
    · rw [hseek] at hx32
      exact absurd hx32 (by decide)
  · rw [if_neg hours, if_neg hours]
    by_cases hseek : d.nr = NR_lseek
    · rw [if_neg (not_not.mpr hseek), if_neg (not_not.mpr hseek)]
      by_cases hneg : (d.args 1).toInt < 0
      · rw [seekVerdict_of_neg hneg, if_pos (by omega)]
        refine iff_of_false (by decide) fun h => h ⟨?_, hseek, hneg⟩
        exact not_not.mp (not_or.mp hours).1
      · rw [seekVerdict_of_nonneg (not_lt.mp hneg)]
        exact iff_of_true rfl fun h => hneg h.2.2
    · rw [if_pos hseek, if_pos hseek]
      exact iff_of_true rfl fun h => hseek h.2.1

/-- `lseek(0, -1, SEEK_CUR)`, one byte back: it fails with error 2. -/
theorem arg64_fails_backward :
    ¬ run arg64 ⟨NR_lseek, AUDIT_ARCH_X86_64, 0, ![0, -1, 1, 0, 0, 0]⟩ =
        .ret (arg64Policy ⟨NR_lseek, AUDIT_ARCH_X86_64, 0, ![0, -1, 1, 0, 0, 0]⟩) := by
  rw [run_arg64]
  decide

end Tlpi.SeccompFilters
