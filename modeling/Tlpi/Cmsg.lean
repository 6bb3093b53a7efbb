/-
The **ancillary data layer**: control messages, and the macros of glibc that lay them out and walk
through them. Nothing here is about this repository.

A control buffer is memory with a length, and a pointer into it is an offset, `none` for `NULL`.
Blocks lie in it one behind the other: a `struct cmsghdr` of 16 bytes, the data, and padding up to a
multiple of 8. The length in the header, `CMSG_LEN()`, is without the padding, and the distance of
two headers, `CMSG_SPACE()`, is with it.

`CMSG_NXTHDR()` has two versions. Up to glibc 2.35 it also looks at the length in the *next* header,
which is why a sender has to fill its buffer with zeros first; since then it looks at the length of
the present block only. What is proved here holds of both.
-/
import Mathlib.Data.List.Basic
import Tlpi.Descriptor
import Tlpi.LittleEndian

set_option autoImplicit false

namespace Tlpi.Cmsg

open Tlpi.Descriptor Tlpi.LittleEndian

/-! ## 1. Integers in memory -/

/-- The `int` at an offset. -/
def intAt (mem : Mem) (p : ℕ) : BitVec 32 := BitVec.ofNat 32 (ofBytes (slice mem p 4))

/-- An array of `int`. -/
def ints (mem : Mem) (p k : ℕ) : List (BitVec 32) := (List.range k).map fun j => intAt mem (p + 4 * j)

def intBytes (l : List (BitVec 32)) : List UInt8 := l.flatMap fun x => toBytes 4 x.toNat

theorem length_intBytes (l : List (BitVec 32)) : (intBytes l).length = 4 * l.length := by
  induction l with
  | nil => rfl
  | cons x l ih =>
    rw [intBytes, List.flatMap_cons, List.length_append, length_toBytes, ← intBytes, ih,
      List.length_cons]
    omega

@[simp] theorem length_ints (mem : Mem) (p k : ℕ) : (ints mem p k).length = k := by
  rw [ints, List.length_map, List.length_range]

theorem ints_succ (mem : Mem) (p k : ℕ) :
    ints mem p (k + 1) = intAt mem p :: ints mem (p + 4) k := by
  rw [ints, List.range_succ_eq_map, List.map_cons, List.map_map]
  refine congrArg₂ _ rfl (List.map_congr_left fun j _ => ?_)
  rw [Function.comp, Nat.mul_succ, Nat.add_comm (4 * j), Nat.add_assoc]

/-- What is read from an array is what was stored. -/
theorem ints_of_slice {mem : Mem} {p : ℕ} {l : List (BitVec 32)}
    (h : slice mem p (4 * l.length) = intBytes l) : ints mem p l.length = l := by
  induction l generalizing p with
  | nil => rfl
  | cons x l ih =>
    rw [intBytes, List.flatMap_cons, ← intBytes] at h
    obtain ⟨hfirst, hrest⟩ := slice_eq_append h
    rw [length_toBytes] at hfirst hrest
    have hx : intAt mem p = x := by
      rw [intAt, hfirst]
      exact ofNat_ofBytes_toBytes (by decide) x
    have hlen : 4 * (x :: l).length - 4 = 4 * l.length := by
      rw [List.length_cons]
      omega
    rw [hlen] at hrest
    rw [List.length_cons, ints_succ, hx, ih hrest]

/-- The same bytes are the same array. -/
theorem ints_congr {mem mem' : Mem} {p k : ℕ}
    (h : slice mem p (4 * k) = slice mem' p (4 * k)) : ints mem p k = ints mem' p k := by
  induction k generalizing p with
  | zero => rfl
  | succ k ih =>
    rw [Nat.mul_succ, Nat.add_comm, slice_add, slice_add] at h
    obtain ⟨hfirst, hrest⟩ := List.append_inj h (by rw [length_slice, length_slice])
    rw [ints_succ, ints_succ, intAt, hfirst, ← intAt, ih hrest]

/-! ## 2. The macros -/

/-- `sizeof(struct cmsghdr)` -/
abbrev HDR : ℕ := 16

def CMSG_ALIGN (len : ℕ) : ℕ := (len + 7) / 8 * 8

def CMSG_SPACE (len : ℕ) : ℕ := CMSG_ALIGN len + CMSG_ALIGN HDR

def CMSG_LEN (len : ℕ) : ℕ := CMSG_ALIGN HDR + len

def CMSG_DATA (p : ℕ) : ℕ := p + HDR

/-- `msg_control` and `msg_controllen`. -/
structure Control where
  mem : Mem
  controllen : ℕ

/-- A `struct cmsghdr`. -/
structure Header where
  len : ℕ
  level : BitVec 32
  type : BitVec 32
deriving Repr, DecidableEq

def Header.bytes (h : Header) : List UInt8 := toBytes 8 h.len ++ intBytes [h.level, h.type]

def headerAt (mem : Mem) (p : ℕ) : Header where
  len := ofBytes (slice mem p 8)
  level := intAt mem (p + 8)
  type := intAt mem (p + 12)

def CMSG_FIRSTHDR (c : Control) : Option ℕ := if HDR ≤ c.controllen then some 0 else none

/-- The version of glibc: up to 2.35, and since then. -/
inductive Glibc where
  | old
  | new
deriving Repr, DecidableEq

/-- `__CMSG_PADDING(len)` -/
def padding (len : ℕ) : ℕ := (8 - len % 8) % 8

/-- There is no room for a next block, behind the one at `p`. -/
def NoMore (v : Glibc) (c : Control) (p : ℕ) : Prop :=
  let len := (headerAt c.mem p).len
  match v with
  | .old =>
    let next := p + CMSG_ALIGN len
    c.controllen < next + HDR ∨ c.controllen < next + CMSG_ALIGN (headerAt c.mem next).len
  | .new =>
    let needed := HDR + padding len
    c.controllen - p < needed ∨ c.controllen - p - needed < len

instance (v : Glibc) (c : Control) (p : ℕ) : Decidable (NoMore v c p) :=
  match v with
  | .old => inferInstanceAs (Decidable (_ ∨ _))
  | .new => inferInstanceAs (Decidable (_ ∨ _))

def CMSG_NXTHDR (v : Glibc) (c : Control) (p : ℕ) : Option ℕ :=
  if (headerAt c.mem p).len < HDR then none
  else if NoMore v c p then none
  else some (p + CMSG_ALIGN (headerAt c.mem p).len)

/-! ## 3. What the macros do -/

theorem le_CMSG_ALIGN (len : ℕ) : len ≤ CMSG_ALIGN len := by
  unfold CMSG_ALIGN
  omega

/-- The padding is what `CMSG_ALIGN()` adds. -/
theorem add_padding (len : ℕ) : len + padding len = CMSG_ALIGN len := by
  unfold padding CMSG_ALIGN
  omega

theorem CMSG_ALIGN_len (k : ℕ) : CMSG_ALIGN (CMSG_LEN k) = CMSG_SPACE k := by
  unfold CMSG_LEN CMSG_SPACE CMSG_ALIGN HDR
  omega

theorem CMSG_LEN_le (k : ℕ) : CMSG_LEN k ≤ CMSG_SPACE k := by
  unfold CMSG_LEN CMSG_SPACE CMSG_ALIGN
  omega

/-- The next header is behind the present block, and within the buffer. -/
theorem CMSG_NXTHDR_inside {v : Glibc} {c : Control} {p q : ℕ} (h : CMSG_NXTHDR v c p = some q) :
    p + HDR ≤ q ∧ q + HDR ≤ c.controllen := by
  unfold CMSG_NXTHDR at h
  split at h
  · exact nomatch h
  rename_i hlen
  split at h
  · exact nomatch h
  rename_i hroom
  rw [Option.some.injEq] at h
  have hle := le_CMSG_ALIGN (headerAt c.mem p).len
  refine ⟨by omega, ?_⟩
  cases v with
  | old =>
    simp only [NoMore, not_or] at hroom
    omega
  | new =>
    simp only [NoMore, not_or] at hroom
    have hpad := add_padding (headerAt c.mem p).len
    have hhdr : HDR = 16 := rfl
    omega

/-- There is a next header: as far behind as `CMSG_SPACE()` says. -/
theorem CMSG_NXTHDR_some (v : Glibc) {c : Control} {p k : ℕ}
    (hlen : (headerAt c.mem p).len = CMSG_LEN k) (hroom : p + CMSG_SPACE k + HDR ≤ c.controllen)
    (hnext : p + CMSG_SPACE k + CMSG_ALIGN (headerAt c.mem (p + CMSG_SPACE k)).len ≤ c.controllen) :
    CMSG_NXTHDR v c p = some (p + CMSG_SPACE k) := by
  have hhdr : ¬(headerAt c.mem p).len < HDR := by
    rw [hlen, CMSG_LEN, Nat.not_lt]
    exact Nat.le_add_right _ _
  have hmore : ¬NoMore v c p := by
    cases v with
    | old =>
      simp only [NoMore, hlen, CMSG_ALIGN_len]
      omega
    | new =>
      simp only [NoMore, hlen]
      have hpad := add_padding (CMSG_LEN k)
      rw [CMSG_ALIGN_len] at hpad
      omega
  rw [CMSG_NXTHDR, if_neg hhdr, if_neg hmore, hlen, CMSG_ALIGN_len]

/-- There is no next header where the buffer ends. -/
theorem CMSG_NXTHDR_none (v : Glibc) {c : Control} {p k : ℕ}
    (hlen : (headerAt c.mem p).len = CMSG_LEN k) (hend : c.controllen < p + CMSG_SPACE k + HDR) :
    CMSG_NXTHDR v c p = none := by
  have hmore : NoMore v c p := by
    cases v with
    | old =>
      simp only [NoMore, hlen, CMSG_ALIGN_len]
      exact .inl hend
    | new =>
      simp only [NoMore, hlen]
      have hpad := add_padding (CMSG_LEN k)
      rw [CMSG_ALIGN_len] at hpad
      have hhdr : HDR = 16 := rfl
      omega
  rw [CMSG_NXTHDR, if_pos hmore, ite_self]

theorem length_bytes (h : Header) : h.bytes.length = HDR := by
  rw [Header.bytes, List.length_append, length_toBytes, length_intBytes]
  rfl

/-- A header is read as it was stored. -/
theorem headerAt_of_slice {mem : Mem} {p : ℕ} {h : Header} (hlen : h.len < 2 ^ 64)
    (hmem : slice mem p HDR = h.bytes) : headerAt mem p = h := by
  obtain ⟨hfirst, hrest⟩ := slice_eq_append hmem
  rw [length_toBytes] at hfirst hrest
  have hints : ints mem (p + 8) 2 = [h.level, h.type] :=
    @ints_of_slice mem (p + 8) [h.level, h.type] hrest
  rw [ints_succ, ints_succ] at hints
  injection hints with hlevel htype
  injection htype with htype
  have hbytes : ofBytes (slice mem p 8) = h.len := by
    rw [hfirst, ofBytes_toBytes]
    exact Nat.mod_eq_of_lt hlen
  rw [headerAt, hbytes, hlevel]
  exact congrArg _ htype

/-- The same bytes are the same header. -/
theorem headerAt_congr {mem mem' : Mem} {p : ℕ} (h : slice mem p HDR = slice mem' p HDR) :
    headerAt mem p = headerAt mem' p := by
  -- the length is a `size_t`, and behind it are two integers
  have hsplit : ∀ mem : Mem, slice mem p HDR = slice mem p 8 ++ slice mem (p + 8) (4 * 2) := by
    intro mem
    exact slice_add mem p 8 8
  rw [hsplit, hsplit] at h
  obtain ⟨hfirst, hrest⟩ := List.append_inj h (by rw [length_slice, length_slice])
  have hints := ints_congr hrest
  rw [ints_succ, ints_succ, ints_succ, ints_succ] at hints
  injection hints with hlevel htype
  injection htype with htype
  rw [headerAt, headerAt, hfirst, hlevel]
  exact congrArg _ htype

end Tlpi.Cmsg
