/-
The **descriptor layer**: what `read()` can return, and the buffers it fills.

## What a descriptor is

A descriptor carries the *marks* that successive `read()` calls will meet, in order:
a byte, a failure with its `errno` (`EINTR` for a call interrupted by a handler), or
an end-of-file result. When the marks run out nothing more is ever delivered and the
next `read()` blocks for good, which is `none`. A persistent end of file is as many
`eof` marks as the reader will ask for.

How many bytes one `read()` returns is the kernel's choice, between one and the
number requested, and never across a failure or an end of file. `chunks` is that
choice, one number per successful call, so a statement over every `Fd` is a
statement over every way of cutting the stream into `read()` results.

## Buffers

A caller's buffer is an address-indexed store `Mem` that goes on past the `n` bytes
the caller owns. A write past the end is therefore visible, rather than silently
dropped, and "never writes past index `n - 1`" can be stated.
-/
import Mathlib.Data.List.GetD
import Mathlib.Logic.Function.Basic
import Mathlib.Tactic.Common

set_option autoImplicit false

namespace Tlpi.Descriptor

/-! ## Marks and descriptors -/

/-- The `errno` values the readers tell apart. -/
inductive Errno where
  | EINTR
  | EINVAL
  | other (code : ℕ)
deriving Repr, DecidableEq

/-- What the next `read()` meets. -/
inductive Mark where
  | byte (b : UInt8)
  | fail (e : Errno)
  | eof
deriving Repr, DecidableEq

/-- An open descriptor: the marks still to be delivered, and the kernel's choice of
how many bytes each coming `read()` returns. -/
structure Fd where
  marks : List Mark
  chunks : List ℕ
deriving Repr, DecidableEq

/-- The result of one `read()`: bytes, a failure with its `errno`, or zero bytes. -/
inductive ReadRes where
  | data (bs : List UInt8)
  | fail (e : Errno)
  | eof
deriving Repr, DecidableEq

/-- The bytes in front of the first failure or end of file. -/
def leadingBytes : List Mark → List UInt8
  | .byte b :: ms => b :: leadingBytes ms
  | _ => []

/-- How many bytes a `read()` of `count` bytes returns when at least one is there. -/
def Fd.readSize (fd : Fd) (count : ℕ) : ℕ :=
  min (max 1 (fd.chunks.headD count)) (min count (leadingBytes fd.marks).length)

/-- `read(fd, buf, count)`. -/
def Fd.read (fd : Fd) (count : ℕ) : Option (ReadRes × Fd) :=
  match fd.marks with
  | [] => none
  | .fail e :: ms => some (.fail e, { fd with marks := ms })
  | .eof :: ms => some (.eof, { fd with marks := ms })
  | .byte _ :: _ =>
    let k := fd.readSize count
    some (.data ((leadingBytes fd.marks).take k),
      { marks := fd.marks.drop k, chunks := fd.chunks.tail })

theorem leadingBytes_append_drop (ms : List Mark) :
    ms = (leadingBytes ms).map .byte ++ ms.drop (leadingBytes ms).length := by
  induction ms with
  | nil => rfl
  | cons m ms ih =>
    cases m with
    | byte b =>
      simp only [leadingBytes, List.map_cons, List.length_cons, List.drop_succ_cons,
        List.cons_append]
      rw [← ih]
    | fail e => rfl
    | eof => rfl

/-- The first `k` marks of a run of bytes, as bytes. -/
theorem take_drop_leadingBytes (ms : List Mark) {k : ℕ} (hk : k ≤ (leadingBytes ms).length) :
    ms = ((leadingBytes ms).take k).map .byte ++ ms.drop k := by
  have hpre : ms.take k = ((leadingBytes ms).take k).map .byte := by
    conv_lhs => rw [leadingBytes_append_drop ms]
    rw [List.take_append_of_le_length (by simpa using hk), List.map_take]
  rw [← hpre, List.take_append_drop]

theorem read_nil {fd : Fd} (count : ℕ) (hm : fd.marks = []) : fd.read count = none := by
  simp only [Fd.read, hm]

theorem read_fail {fd : Fd} {e : Errno} {ms : List Mark} (count : ℕ)
    (hm : fd.marks = .fail e :: ms) :
    fd.read count = some (.fail e, { fd with marks := ms }) := by
  simp only [Fd.read, hm]

theorem read_eof {fd : Fd} {ms : List Mark} (count : ℕ) (hm : fd.marks = .eof :: ms) :
    fd.read count = some (.eof, { fd with marks := ms }) := by
  simp only [Fd.read, hm]

/-- **What `read()` does on a byte**: it returns a non-empty run of at most `count`
bytes and leaves exactly what follows them. -/
theorem read_byte {fd : Fd} (count : ℕ) {b : UInt8} {ms : List Mark}
    (hm : fd.marks = .byte b :: ms) (hc : 0 < count) :
    ∃ bs fd', fd.read count = some (.data bs, fd') ∧ bs ≠ [] ∧ bs.length ≤ count ∧
      fd.marks = bs.map .byte ++ fd'.marks := by
  have hlen : 0 < (leadingBytes fd.marks).length := by
    rw [hm, leadingBytes, List.length_cons]; omega
  have hk : fd.readSize count ≤ (leadingBytes fd.marks).length := by
    unfold Fd.readSize; omega
  have hk1 : 0 < fd.readSize count := by
    unfold Fd.readSize; omega
  refine ⟨(leadingBytes fd.marks).take (fd.readSize count),
    { marks := fd.marks.drop (fd.readSize count), chunks := fd.chunks.tail }, ?_, ?_, ?_,
    take_drop_leadingBytes fd.marks hk⟩
  · simp only [Fd.read, hm]
  · intro hnil
    have := congrArg List.length hnil
    rw [List.length_take, List.length_nil] at this
    omega
  · rw [List.length_take]
    unfold Fd.readSize
    omega

/-- A one-byte `read()` returns that byte, whatever the kernel would have chunked. -/
theorem read_one {fd : Fd} {b : UInt8} {ms : List Mark} (hm : fd.marks = .byte b :: ms) :
    ∃ fd', fd.read 1 = some (.data [b], fd') ∧ fd'.marks = ms := by
  obtain ⟨bs, fd', hr, hne, hlen, hsplit⟩ := read_byte 1 hm Nat.one_pos
  match bs, hne, hlen with
  | [c], _, _ =>
    rw [hm] at hsplit
    simp only [List.map_cons, List.map_nil, List.cons_append, List.nil_append,
      List.cons.injEq, Mark.byte.injEq] at hsplit
    exact ⟨fd', by rw [hr, hsplit.1], hsplit.2.symm⟩

/-- Every `read()` that returns, returns after consuming at least one mark, unless it
was asked for nothing. -/
theorem read_marks_lt {fd fd' : Fd} {count : ℕ} {r : ReadRes} (hc : 0 < count)
    (h : fd.read count = some (r, fd')) : fd'.marks.length < fd.marks.length := by
  cases hm : fd.marks with
  | nil =>
    rw [read_nil count hm] at h
    exact nomatch h
  | cons m ms =>
    cases m with
    | fail e =>
      rw [read_fail count hm, Option.some.injEq, Prod.mk.injEq] at h
      rw [← h.2, List.length_cons]
      exact Nat.lt_succ_self _
    | eof =>
      rw [read_eof count hm, Option.some.injEq, Prod.mk.injEq] at h
      rw [← h.2, List.length_cons]
      exact Nat.lt_succ_self _
    | byte b =>
      obtain ⟨bs, fd₁, hr, hne, -, hsplit⟩ := read_byte count hm hc
      rw [hr, Option.some.injEq, Prod.mk.injEq] at h
      rw [← h.2, ← hm, hsplit, List.length_append, List.length_map]
      have := List.length_pos_iff.mpr hne
      omega

/-! ## Buffers and calls -/

/-- A buffer, addressed from its start; it does not end at the caller's `n` bytes. -/
abbrev Mem := ℕ → UInt8

/-- Store one byte. -/
def store (mem : Mem) (i : ℕ) (b : UInt8) : Mem := Function.update mem i b

@[simp] theorem store_same (mem : Mem) (i : ℕ) (b : UInt8) : store mem i b i = b := by
  rw [store, Function.update_self]

@[simp] theorem store_ne (mem : Mem) {i j : ℕ} (b : UInt8) (h : j ≠ i) :
    store mem i b j = mem j := by
  rw [store, Function.update_of_ne h]

/-- Store a run of bytes from offset `i` on, as `read()` and `memcpy()` do. -/
def storeAll (mem : Mem) (i : ℕ) (bs : List UInt8) : Mem :=
  fun j => if i ≤ j ∧ j < i + bs.length then bs.getD (j - i) 0 else mem j

/-- The `k` bytes from offset `i` on. -/
def slice (mem : Mem) (i k : ℕ) : List UInt8 := (List.range k).map fun j => mem (i + j)

@[simp] theorem slice_zero (mem : Mem) (i : ℕ) : slice mem i 0 = [] := rfl

theorem slice_succ (mem : Mem) (i k : ℕ) :
    slice mem i (k + 1) = mem i :: slice mem (i + 1) k := by
  rw [slice, List.range_succ_eq_map, List.map_cons, List.map_map]
  refine congrArg₂ _ (by rw [Nat.add_zero]) (List.map_congr_left fun j _ => ?_)
  simp only [Function.comp, Nat.add_assoc, Nat.add_comm 1]

theorem slice_add (mem : Mem) (i j k : ℕ) :
    slice mem i (j + k) = slice mem i j ++ slice mem (i + j) k := by
  simp only [slice, List.range_add, List.map_append, List.map_map, Function.comp_def, Nat.add_assoc]

@[simp] theorem length_slice (mem : Mem) (i k : ℕ) : (slice mem i k).length = k := by
  rw [slice, List.length_map, List.length_range]

/-- Two runs of bytes that lie one behind the other. -/
theorem slice_eq_append {mem : Mem} {i k : ℕ} {as bs : List UInt8}
    (h : slice mem i k = as ++ bs) :
    slice mem i as.length = as ∧ slice mem (i + as.length) (k - as.length) = bs := by
  have hlen := congrArg List.length h
  rw [length_slice, List.length_append] at hlen
  have hk : k = as.length + (k - as.length) := by omega
  rw [hk, slice_add] at h
  exact List.append_inj h (length_slice mem i as.length)

/-- What was just stored is what is read back. -/
theorem slice_storeAll (mem : Mem) (i : ℕ) (bs : List UInt8) :
    slice (storeAll mem i bs) i bs.length = bs := by
  refine List.ext_getElem (by rw [slice, List.length_map, List.length_range]) ?_
  intro j h₁ h₂
  simp only [slice, List.getElem_map, List.getElem_range, storeAll]
  rw [if_pos ⟨by omega, by omega⟩, Nat.add_sub_cancel_left, List.getD_eq_getElem _ _ h₂]

/-- A part of what was just stored. -/
theorem slice_storeAll_part (mem : Mem) {i j k : ℕ} {bs : List UInt8} (hi : i ≤ j)
    (hk : j - i + k ≤ bs.length) : slice (storeAll mem i bs) j k = (bs.drop (j - i)).take k := by
  refine List.ext_getElem ?_ ?_
  · rw [slice, List.length_map, List.length_range, List.length_take, List.length_drop]
    omega
  · intro l h₁ h₂
    rw [slice, List.length_map, List.length_range] at h₁
    simp only [slice, List.getElem_map, List.getElem_range, storeAll, List.getElem_take,
      List.getElem_drop]
    rw [if_pos ⟨by omega, by omega⟩, List.getD_eq_getElem _ _ (by omega)]
    congr 1
    omega

/-- What lies in front of the bytes stored is as it was. -/
theorem slice_storeAll_before (mem : Mem) {i j k : ℕ} (bs : List UInt8) (h : j + k ≤ i) :
    slice (storeAll mem i bs) j k = slice mem j k := by
  refine List.map_congr_left fun l hl => ?_
  rw [List.mem_range] at hl
  rw [storeAll, if_neg (by omega)]

/-- What lies behind the bytes stored is as it was. -/
theorem slice_storeAll_after (mem : Mem) {i j : ℕ} (k : ℕ) (bs : List UInt8)
    (h : i + bs.length ≤ j) : slice (storeAll mem i bs) j k = slice mem j k := by
  refine List.map_congr_left fun l _ => ?_
  rw [storeAll, if_neg (by omega)]

/-- One call of a line reader: the caller's buffer (`none` for `NULL`) and its size. -/
structure Call where
  buffer : Option Mem
  n : ℕ

/-- What a line reader leaves: its return value (`error e` is `-1` with `errno = e`)
and the caller's buffer. -/
structure Ret where
  ret : Except Errno ℕ
  buffer : Option Mem

end Tlpi.Descriptor
