/-
`seccomp/dump_seccomp_filter.c` and `seccomp/seccomp_launch.c`: a filter is written to a file by
`dumpFilter()`, and read from a file and installed by `loadFilter()`.

What the system calls return is given: a `write()` or a `read()` may fail or stop early, and the
size that `fstat()` reports is kept apart from what is then read. In `loadFilter()` the size goes
from an `off_t` to an `int`, to a `size_t` and to the `unsigned short` of `struct sock_fprog`; each
step is as C has it on a 64-bit machine. A failure is what the program exits with.
-/
import Mathlib.Data.List.Basic
import Mathlib.Tactic.Common
import Tlpi.Bpf
import Tlpi.LittleEndian

set_option autoImplicit false

namespace Tlpi.FilterDump

open Tlpi.Bpf Tlpi.LittleEndian

/-! ## 1. Instructions in memory -/

/-- `sizeof(struct sock_filter)` -/
abbrev SIZE : ℕ := 8

def encode (f : SockFilter) : List UInt8 :=
  toBytes 2 f.code.toNat ++ (toBytes 1 f.jt.toNat ++ (toBytes 1 f.jf.toNat ++ toBytes 4 f.k.toNat))

/-- The `struct sock_filter` that lies at the beginning of the bytes. -/
def decode (bs : List UInt8) : SockFilter where
  code := BitVec.ofNat 16 (ofBytes (bs.take 2))
  jt := BitVec.ofNat 8 (ofBytes ((bs.drop 2).take 1))
  jf := BitVec.ofNat 8 (ofBytes ((bs.drop 3).take 1))
  k := BitVec.ofNat 32 (ofBytes ((bs.drop 4).take 4))

/-- An array of instructions. -/
def encodeAll (prog : List SockFilter) : List UInt8 := (prog.map encode).flatten

/-- The first `n` instructions of an array. -/
def decodeAll (bs : List UInt8) (n : ℕ) : List SockFilter :=
  (List.range n).map fun i => decode (bs.drop (SIZE * i))

/-- The instructions that a file holds. -/
def stored (file : List UInt8) : List SockFilter := decodeAll file (file.length / SIZE)

/-! ## 2. The two functions -/

/-- What a program exits with. -/
inductive Failure where
  | prctl
  | opening
  | fstat
  | oddSize
  | malloc
  | reading
  | write
  | close
  | seccomp
deriving Repr, DecidableEq

/-- What the calls of `dumpFilter()` return: `write()` the number of bytes, or `none` for -1. -/
structure DumpCalls where
  openOk : Bool
  write : Option ℕ
  closeOk : Bool
deriving Repr, DecidableEq

/-- The file that is left when the function returns. -/
def dumpFilter (c : DumpCalls) (filterProg : List SockFilter) : Except Failure (List UInt8) :=
  if !c.openOk then .error .opening
  else
    match c.write with
    | none => .error .write
    | some n =>
      if !c.closeOk then .error .close
      else .ok ((encodeAll filterProg).take n)

/-- The file that `loadFilter()` is given, and what its calls return. -/
structure LoadCalls where
  /-- What there is to be read, up to the end of the file. -/
  file : List UInt8
  stSize : ℕ
  prctlOk : Bool
  openOk : Bool
  fstatOk : Bool
  mallocOk : Bool
  read : Option ℕ
  closeOk : Bool
  seccompOk : Bool
  read_le : ∀ n, read = some n → n ≤ file.length

abbrev BPF_MAXINSNS : ℕ := 4096

/-- `int filterSize = sb.st_size` -/
def LoadCalls.filterSize (c : LoadCalls) : ℤ := (BitVec.ofNat 32 c.stSize).toInt

/-- An `int` as a `size_t`. -/
def toSize (n : ℤ) : ℕ := (BitVec.ofInt 64 n).toNat

/-- `fprog.len`, an `unsigned short`. -/
def LoadCalls.len (c : LoadCalls) : ℕ := toSize c.filterSize / SIZE % 2 ^ 16

/-- The program that the kernel has been given when the function returns. -/
def loadFilter (c : LoadCalls) : Except Failure (List SockFilter) :=
  if !c.prctlOk then .error .prctl
  else if !c.openOk then .error .opening
  else if !c.fstatOk then .error .fstat
  else if toSize c.filterSize % SIZE ≠ 0 then .error .oddSize
  else if !c.mallocOk then .error .malloc
  else
    let (numRead, filter) := match c.read with
      | none => ((-1 : ℤ), [])
      | some n => ((n : ℤ), c.file.take n)
    if numRead ≠ c.filterSize then .error .reading
    else if !c.closeOk then .error .close
    -- the kernel takes no empty program, and none that is too long
    else if !c.seccompOk || c.len == 0 || decide (BPF_MAXINSNS < c.len) then .error .seccomp
    else .ok (decodeAll filter c.len)

/-! ## 3. The round trip of the instructions -/

theorem length_encode (f : SockFilter) : (encode f).length = SIZE := by
  simp only [encode, List.length_append, length_toBytes]

theorem length_encodeAll (prog : List SockFilter) : (encodeAll prog).length = SIZE * prog.length := by
  induction prog with
  | nil => rfl
  | cons f prog ih =>
    rw [encodeAll, List.map_cons, List.flatten_cons, List.length_append, length_encode,
      show ((prog.map encode).flatten).length = _ from ih, List.length_cons, Nat.mul_succ, Nat.add_comm]

/-- Of an instruction only its own bytes count. -/
theorem decode_take (bs : List UInt8) : decode (bs.take SIZE) = decode bs := by
  simp only [decode, List.take_take, List.drop_take]
  rfl

theorem decode_encode (f : SockFilter) (rest : List UInt8) : decode (encode f ++ rest) = f := by
  have hfront : ∀ (a b : List UInt8) (n : ℕ), a.length = n → (a ++ b).take n = a := by
    intro a b n hn
    rw [← hn, List.take_left]
  have hdrop : ∀ (a b : List UInt8) (n m : ℕ), a.length = n → (a ++ b).drop (n + m) = b.drop m := by
    intro a b n m hn
    rw [← hn, ← List.drop_drop, List.drop_left]
  have hcode : (BitVec.ofNat 16 (ofBytes (toBytes 2 f.code.toNat))) = f.code :=
    ofNat_ofBytes_toBytes (by decide) _
  have hjt : (BitVec.ofNat 8 (ofBytes (toBytes 1 f.jt.toNat))) = f.jt :=
    ofNat_ofBytes_toBytes (by decide) _
  have hjf : (BitVec.ofNat 8 (ofBytes (toBytes 1 f.jf.toNat))) = f.jf :=
    ofNat_ofBytes_toBytes (by decide) _
  have hk : (BitVec.ofNat 32 (ofBytes (toBytes 4 f.k.toNat))) = f.k :=
    ofNat_ofBytes_toBytes (by decide) _
  have h2 := length_toBytes 2 f.code.toNat
  have h1 := length_toBytes 1 f.jt.toNat
  have h1' := length_toBytes 1 f.jf.toNat
  have h4 := length_toBytes 4 f.k.toNat
  rw [decode, encode]
  simp only [List.append_assoc]
  rw [hfront _ _ 2 h2, hdrop _ _ 2 0 h2, hdrop _ _ 2 1 h2, hdrop _ _ 2 2 h2, hdrop _ _ 1 0 h1,
    hdrop _ _ 1 1 h1, List.drop_zero, hfront _ _ 1 h1, hdrop _ _ 1 0 h1', List.drop_zero, List.drop_zero,
    hfront _ _ 1 h1', hfront _ _ 4 h4, hcode, hjt, hjf, hk]

theorem length_decodeAll (bs : List UInt8) (n : ℕ) : (decodeAll bs n).length = n := by
  rw [decodeAll, List.length_map, List.length_range]

/-- **What was laid out is read back.** -/
theorem decodeAll_encodeAll (prog : List SockFilter) :
    decodeAll (encodeAll prog) prog.length = prog := by
  induction prog with
  | nil => rfl
  | cons f prog ih =>
    have hbytes : encodeAll (f :: prog) = encode f ++ encodeAll prog := rfl
    have hrest : ∀ i, (encodeAll (f :: prog)).drop (SIZE * (i + 1)) = (encodeAll prog).drop (SIZE * i) := by
      intro i
      rw [hbytes, Nat.mul_succ, Nat.add_comm, ← List.drop_drop, ← length_encode f, List.drop_left]
    rw [decodeAll, List.length_cons, List.range_succ_eq_map, List.map_cons, List.map_map]
    simp only [Function.comp_def, Nat.succ_eq_add_one, hrest]
    rw [Nat.mul_zero, List.drop_zero, hbytes, decode_encode, ← decodeAll, ih]

theorem stored_encodeAll (prog : List SockFilter) : stored (encodeAll prog) = prog := by
  rw [stored, length_encodeAll, Nat.mul_div_cancel_left _ (by decide), decodeAll_encodeAll]

/-- The instructions that were read lie at the beginning of the file. -/
theorem decodeAll_take {bs : List UInt8} {m n : ℕ} (h : SIZE * n ≤ m) :
    decodeAll (bs.take m) n = decodeAll bs n := by
  refine List.map_congr_left fun i hi => ?_
  have hi := List.mem_range.mp hi
  rw [← decode_take, ← decode_take (bs.drop _), List.drop_take, List.take_take, Nat.min_eq_left]
  rw [SIZE] at *
  omega

theorem decodeAll_eq_iff {bs : List UInt8} {m n : ℕ} : decodeAll bs m = decodeAll bs n ↔ m = n := by
  constructor
  · intro h
    rw [← length_decodeAll bs m, h, length_decodeAll]
  · rintro rfl
    rfl

/-! ## 4. When a filter is dumped and loaded whole -/

/-- If `dumpFilter()` reports success, the file holds the instructions it was given. -/
def DumpsWhole (c : DumpCalls) (filterProg : List SockFilter) : Prop :=
  ∀ file, dumpFilter c filterProg = .ok file → file = encodeAll filterProg

/-- If `loadFilter()` returns, the kernel was given what the file holds. -/
def LoadsWhole (c : LoadCalls) : Prop := ∀ prog, loadFilter c = .ok prog → prog = stored c.file

/-- The bytes are written, but not all of them. -/
def DumpCalls.StopsEarly (c : DumpCalls) (filterProg : List SockFilter) : Prop :=
  c.openOk = true ∧ c.closeOk = true ∧ ∃ n, c.write = some n ∧ n < SIZE * filterProg.length

/-- No call fails. The size is taken as an `int`, and the length as an `unsigned short`. -/
structure LoadCalls.NoFailure (c : LoadCalls) : Prop where
  prctl : c.prctlOk = true
  opening : c.openOk = true
  fstat : c.fstatOk = true
  even : c.stSize % SIZE = 0
  malloc : c.mallocOk = true
  nonneg : c.stSize % 2 ^ 32 < 2 ^ 31
  reading : c.read = some (c.stSize % 2 ^ 32)
  close : c.closeOk = true
  seccomp : c.seccompOk = true
  len_pos : 0 < c.stSize / SIZE % 2 ^ 16
  len_le : c.stSize / SIZE % 2 ^ 16 ≤ BPF_MAXINSNS

/-- The file is as long as it was said to be, and its length fits. -/
def LoadCalls.SizeKept (c : LoadCalls) : Prop :=
  c.stSize % 2 ^ 32 / SIZE = c.file.length / SIZE ∧ c.file.length / SIZE < 2 ^ 16

/-- A check that was passed. -/
theorem ite_error_eq_ok {α : Type} {e : Failure} {p : Prop} [Decidable p] {x : Except Failure α}
    {a : α} : (if p then .error e else x) = .ok a ↔ ¬p ∧ x = .ok a := by
  by_cases hp : p
  · rw [if_pos hp]
    exact iff_of_false (fun h => nomatch h) fun h => h.1 hp
  · rw [if_neg hp]
    exact (and_iff_right hp).symm

theorem dumpFilter_ok_iff (c : DumpCalls) (filterProg : List SockFilter) (file : List UInt8) :
    dumpFilter c filterProg = .ok file ↔ c.openOk = true ∧ c.closeOk = true ∧
      ∃ n, c.write = some n ∧ file = (encodeAll filterProg).take n := by
  rw [dumpFilter, ite_error_eq_ok]
  cases c.write with
  | none =>
    refine iff_of_false (fun h => nomatch h.2) ?_
    rintro ⟨-, -, n, hn, -⟩
    exact nomatch hn
  | some n =>
    simp only [ite_error_eq_ok, Bool.not_eq_true', Bool.not_eq_false, Except.ok.injEq,
      Option.some.injEq, exists_eq_left', eq_comm (a := file)]

theorem dumpsWhole_iff (c : DumpCalls) (filterProg : List SockFilter) :
    DumpsWhole c filterProg ↔ ¬c.StopsEarly filterProg := by
  constructor
  · rintro h ⟨hopen, hclose, n, hwrite, hn⟩
    have hlen := congrArg List.length
      (h _ ((dumpFilter_ok_iff c filterProg _).mpr ⟨hopen, hclose, n, hwrite, rfl⟩))
    rw [List.length_take, length_encodeAll] at hlen
    omega
  · intro h file hok
    obtain ⟨hopen, hclose, n, hwrite, rfl⟩ := (dumpFilter_ok_iff c filterProg file).mp hok
    refine List.take_of_length_le ?_
    rw [length_encodeAll]
    by_contra hn
    exact h ⟨hopen, hclose, n, hwrite, not_le.mp hn⟩

/-- The size as an `int`. -/
theorem filterSize_eq (c : LoadCalls) : c.filterSize =
    if c.stSize % 2 ^ 32 < 2 ^ 31 then (c.stSize % 2 ^ 32 : ℤ) else c.stSize % 2 ^ 32 - 2 ^ 32 := by
  rw [LoadCalls.filterSize, BitVec.toInt_eq_toNat_cond, BitVec.toNat_ofNat]
  split
  · rw [if_pos (by omega)]
    push_cast
    rfl
  · rw [if_neg (by omega)]
    push_cast
    rfl

/-- And as a `size_t`. -/
theorem toSize_filterSize (c : LoadCalls) : toSize c.filterSize % SIZE = c.stSize % SIZE ∧
    (c.stSize % 2 ^ 32 < 2 ^ 31 → toSize c.filterSize = c.stSize % 2 ^ 32) := by
  rw [toSize, BitVec.toNat_ofInt, filterSize_eq, SIZE]
  constructor
  · split
    · omega
    · omega
  · intro h
    rw [if_pos h]
    omega

theorem len_eq {c : LoadCalls} (h : c.stSize % 2 ^ 32 < 2 ^ 31) :
    c.len = c.stSize / SIZE % 2 ^ 16 := by
  rw [LoadCalls.len, (toSize_filterSize c).2 h, SIZE]
  omega

/-- The function returns when no call fails, and with what. -/
theorem loadFilter_ok_iff (c : LoadCalls) (prog : List SockFilter) :
    loadFilter c = .ok prog ↔
      c.NoFailure ∧ prog = decodeAll c.file (c.stSize / SIZE % 2 ^ 16) := by
  rw [loadFilter]
  simp only [ite_error_eq_ok, (toSize_filterSize c).1, Bool.not_eq_true', Bool.not_eq_false,
    Bool.or_eq_true, not_or, ne_eq, not_not, beq_iff_eq, decide_eq_true_eq, not_lt,
    Except.ok.injEq]
  constructor
  · rintro ⟨hprctl, hopen, hfstat, heven, hmalloc, hread, hclose, ⟨⟨hseccomp, hpos⟩, hle⟩, hprog⟩
    cases hr : c.read with
    | none =>
      -- -1 is no size that is a multiple of the size of an instruction
      rw [hr, filterSize_eq] at hread
      rw [SIZE] at heven
      dsimp only at hread
      split at hread
      · omega
      · omega
    | some n =>
      rw [hr] at hread hprog
      dsimp only at hread hprog
      rw [filterSize_eq] at hread
      have hnonneg : c.stSize % 2 ^ 32 < 2 ^ 31 := by
        by_contra hneg
        rw [if_neg hneg] at hread
        omega
      rw [if_pos hnonneg] at hread
      have hn : n = c.stSize % 2 ^ 32 := by omega
      rw [len_eq hnonneg] at hpos hle hprog
      refine ⟨⟨hprctl, hopen, hfstat, heven, hmalloc, hnonneg, hr.trans (by rw [hn]), hclose,
        hseccomp, Nat.pos_of_ne_zero hpos, hle⟩, ?_⟩
      rw [← hprog, decodeAll_take]
      rw [SIZE, hn]
      omega
  · rintro ⟨h, rfl⟩
    have hsize := filterSize_eq c
    rw [if_pos h.nonneg] at hsize
    refine ⟨h.prctl, h.opening, h.fstat, h.even, h.malloc, ?_, h.close, ⟨⟨h.seccomp, ?_⟩, ?_⟩, ?_⟩
    · rw [h.reading, hsize]
      push_cast
      rfl
    · rw [len_eq h.nonneg]
      exact h.len_pos.ne'
    · rw [len_eq h.nonneg]
      exact h.len_le
    · rw [h.reading, len_eq h.nonneg]
      exact decodeAll_take (by rw [SIZE]; omega)

theorem loadsWhole_iff (c : LoadCalls) : LoadsWhole c ↔ (c.NoFailure → c.SizeKept) := by
  have hkept : c.NoFailure →
      (c.SizeKept ↔ decodeAll c.file (c.stSize / SIZE % 2 ^ 16) = stored c.file) := by
    intro h
    have hread := c.read_le _ h.reading
    have hpos := h.len_pos
    have hle := h.len_le
    rw [stored, decodeAll_eq_iff, LoadCalls.SizeKept]
    rw [SIZE] at *
    omega
  constructor
  · intro hload h
    exact (hkept h).mpr (hload _ ((loadFilter_ok_iff c _).mpr ⟨h, rfl⟩))
  · intro h prog hprog
    obtain ⟨hno, rfl⟩ := (loadFilter_ok_iff c prog).mp hprog
    exact (hkept hno).mp (h hno)

/-- **A filter is dumped whole unless the write stops early, and loaded whole when its size is kept**;
and then to load what was dumped gives the filter back. -/
theorem dump_load_whole_iff (filterProg : List SockFilter) (d : DumpCalls) (c : LoadCalls) :
    (DumpsWhole d filterProg ∧ LoadsWhole c ↔
      ¬d.StopsEarly filterProg ∧ (c.NoFailure → c.SizeKept)) ∧
      (¬d.StopsEarly filterProg → (c.NoFailure → c.SizeKept) →
        ∀ prog, dumpFilter d filterProg = .ok c.file → loadFilter c = .ok prog → prog = filterProg) := by
  refine ⟨and_congr (dumpsWhole_iff d filterProg) (loadsWhole_iff c), ?_⟩
  intro hd hc prog hdump hload
  rw [(loadsWhole_iff c).mpr hc prog hload, (dumpsWhole_iff d filterProg).mpr hd _ hdump,
    stored_encodeAll]

/-- A file of which all is read, and no call fails. -/
def wholeFile (prog : List SockFilter) : LoadCalls where
  file := encodeAll prog
  stSize := SIZE * prog.length
  prctlOk := true
  openOk := true
  fstatOk := true
  mallocOk := true
  read := some (SIZE * prog.length)
  closeOk := true
  seccompOk := true
  read_le n hn := by
    rw [← Option.some.inj hn, length_encodeAll]

/-- Of 65537 instructions the kernel is given one. -/
theorem not_loadsWhole_wholeFile {prog : List SockFilter} (hlen : prog.length = 65537) :
    ¬LoadsWhole (wholeFile prog) := by
  rw [loadsWhole_iff]
  intro h
  have hsize : (wholeFile prog).stSize = 524296 := congrArg (SIZE * ·) hlen
  have hread : (wholeFile prog).read = some 524296 := congrArg (fun n => some (SIZE * n)) hlen
  have hfile : (wholeFile prog).file.length = 524296 :=
    (length_encodeAll prog).trans (congrArg (SIZE * ·) hlen)
  have hno : (wholeFile prog).NoFailure := by
    refine ⟨rfl, rfl, rfl, ?_, rfl, ?_, ?_, rfl, rfl, ?_, ?_⟩
    · rw [hsize]
      decide
    · rw [hsize]
      decide
    · rw [hsize, hread]
      decide
    · rw [hsize]
      decide
    · rw [hsize]
      decide
  have hlt := (h hno).2
  rw [hfile] at hlt
  exact absurd hlt (by decide)

/-- Two instructions of which eight bytes are written, and a file that is too long. -/
theorem filter_cut_short :
    ¬DumpsWhole ⟨true, some 8, true⟩ [BPF_STMT (BPF_RET ||| BPF_K) 0, BPF_STMT (BPF_RET ||| BPF_K) 0] ∧
      ¬LoadsWhole (wholeFile (List.replicate 65537 (BPF_STMT (BPF_RET ||| BPF_K) 0x7fff0000))) := by
  constructor
  · rw [dumpsWhole_iff]
    exact fun h => h ⟨rfl, rfl, 8, rfl, by decide⟩
  · exact not_loadsWhole_wholeFile List.length_replicate

end Tlpi.FilterDump
