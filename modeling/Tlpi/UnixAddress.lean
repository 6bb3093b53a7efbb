/-
`sockets/unix_sockets.c` and `lib/yunix_sockets.c`: addresses of UNIX domain sockets.

Three functions put a name into a `struct sockaddr_un`, and differ in where the name begins, one byte
further on for a name in the abstract namespace, and in the bound that `strncpy()` is given.
`strncpy()` stores as many bytes as its bound says, whatever the length of the name: the rest is
filled with null bytes. So the bound has to be what is left of `sun_path`, and in `yunixAaddress()`
it is one byte too large.

The memory goes on behind the structure, so that a store past its end can be seen.
-/
import Mathlib.Data.List.Basic
import Tlpi.CString
import Tlpi.Descriptor
import Tlpi.LittleEndian

set_option autoImplicit false

namespace Tlpi.UnixAddress

open Tlpi.CString Tlpi.Descriptor Tlpi.LittleEndian

/-! ## 1. Addresses -/

/-- `offsetof(struct sockaddr_un, sun_path)` -/
abbrev OFFSET : ℕ := 2

/-- `sizeof(addr->sun_path)` -/
abbrev SUN_PATH : ℕ := 108

abbrev AF_UNIX : ℕ := 1

inductive Error where
  | EINVAL
  | ENAMETOOLONG
deriving Repr, DecidableEq

/-- What the building of an address returns and leaves, with the indexes in `sun_path` of the bytes
that were stored while the name was copied. -/
structure Built where
  ret : Except Error Unit
  addr : Option Mem
  copied : List ℕ

/-- `strncpy(dst, src, n)`: `n` bytes are stored. -/
def strncpy (mem : Mem) (dst : ℕ) (src : List UInt8) (n : ℕ) : Mem :=
  storeAll mem dst (src.take n ++ List.replicate (n - src.length) 0)

/-- `memset()` and the family. -/
def cleared (mem : Mem) : Mem :=
  storeAll (storeAll mem 0 (List.replicate (OFFSET + SUN_PATH) 0)) 0 (toBytes 2 AF_UNIX)

/-- The name goes to `sun_path + first`, by `strncpy()` with the bound `n`. -/
def buildAddress (first n : ℕ) (path : Option CStr) (addr : Option Mem) : Built :=
  match path, addr with
  | some path, some mem =>
    if first + path.val.length < SUN_PATH then
      ⟨.ok (), some (strncpy (cleared mem) (OFFSET + first) path.val n), (List.range n).map (first + ·)⟩
    else ⟨.error .ENAMETOOLONG, some (cleared mem), []⟩
  | _, _ => ⟨.error .EINVAL, addr, []⟩

def unixBuildAddress : Option CStr → Option Mem → Built := buildAddress 0 (SUN_PATH - 1)

def yunixaddress : Option CStr → Option Mem → Built := buildAddress 0 SUN_PATH

def yunixAaddress : Option CStr → Option Mem → Built := buildAddress 1 SUN_PATH

/-- `SUN_LEN(addr)` -/
def SUN_LEN (mem : Mem) : ℕ := OFFSET + strlen (slice mem OFFSET SUN_PATH)

/-! ## 2. Sockets with such an address -/

/-- What `socket()` returns, and whether `connect()` or `bind()` succeeds. -/
structure Calls where
  socket : Option ℕ
  ok : Bool

/-- What a function returns, `none` for -1; the address and its length that it gave to `connect()`
or `bind()`; and the descriptors that it closed. -/
structure Ret where
  ret : Option ℕ
  passed : Option (List UInt8 × ℕ)
  closed : List ℕ
deriving Repr, DecidableEq

/-- A socket is made and `connect()` or `bind()` called, if the address could be built. -/
def useAddress (built : Built) (socklen : Mem → ℕ) (c : Calls) : Ret :=
  match built.ret, built.addr with
  | .ok (), some mem =>
    match c.socket with
    | none => ⟨none, none, []⟩
    | some sfd =>
      let passed := some (slice mem 0 (socklen mem), socklen mem)
      if c.ok then ⟨some sfd, passed, []⟩ else ⟨none, passed, [sfd]⟩
  | _, _ => ⟨none, none, []⟩

def yunixconnect (path : Option CStr) (addr : Option Mem) (c : Calls) : Ret :=
  useAddress (yunixaddress path addr) SUN_LEN c

/-- `removed` is that `remove()` succeeds or fails with `ENOENT`. -/
def yunixbind (path : CStr) (addr : Option Mem) (removed : Bool) (c : Calls) : Ret :=
  if path.val.length + 1 > SUN_PATH then ⟨none, none, []⟩
  else if !removed then ⟨none, none, []⟩
  else useAddress (yunixaddress (some path) addr) SUN_LEN c

/-- `offsetof(struct sockaddr_un, sun_path) + 1 + strlen(path)` -/
def abstractLen (path : Option CStr) : ℕ := OFFSET + 1 + (path.map fun s => s.val.length).getD 0

def yunixAconnect (path : Option CStr) (addr : Option Mem) (c : Calls) : Ret :=
  useAddress (yunixAaddress path addr) (fun _ => abstractLen path) c

def yunixAbind (path : Option CStr) (addr : Option Mem) (c : Calls) : Ret :=
  useAddress (yunixAaddress path addr) (fun _ => abstractLen path) c

/-! ## 3. What an address holds -/

/-- **What the building of an address does**: the name is copied, if there is one that fits, or
nothing is. -/
theorem buildAddress_cases (first n : ℕ) (path : Option CStr) (addr : Option Mem) :
    (∃ s mem, path = some s ∧ addr = some mem ∧ first + s.val.length < SUN_PATH ∧
      buildAddress first n path addr = ⟨.ok (),
        some (strncpy (cleared mem) (OFFSET + first) s.val n), (List.range n).map (first + ·)⟩) ∨
    ∃ e addr', buildAddress first n path addr = ⟨.error e, addr', []⟩ := by
  cases path with
  | none => exact .inr ⟨_, _, rfl⟩
  | some s =>
    cases addr with
    | none => exact .inr ⟨_, _, rfl⟩
    | some mem =>
      by_cases hfits : first + s.val.length < SUN_PATH
      · exact .inl ⟨s, mem, rfl, rfl, hfits, if_pos hfits⟩
      · exact .inr ⟨_, _, if_neg hfits⟩

/-- The name is not copied if it does not fit. -/
theorem copied_of_error {first n : ℕ} {path : Option CStr} {addr : Option Mem} {e : Error}
    (h : (buildAddress first n path addr).ret = .error e) :
    (buildAddress first n path addr).copied = [] := by
  rcases buildAddress_cases first n path addr with ⟨s, mem, -, -, -, heq⟩ | ⟨e', addr', heq⟩
  · rw [heq] at h
    exact nomatch h
  · rw [heq]

/-- The bytes of `sun_path` that are stored lie from the beginning of the name on, as many as the
bound says. -/
theorem mem_copied {first n : ℕ} {path : Option CStr} {addr : Option Mem} {i : ℕ}
    (h : i ∈ (buildAddress first n path addr).copied) :
    i < first + n ∧ ∃ s, path = some s ∧ first + s.val.length < SUN_PATH := by
  rcases buildAddress_cases first n path addr with ⟨s, mem, rfl, -, hfits, heq⟩ | ⟨e', addr', heq⟩
  · rw [heq] at h
    obtain ⟨j, hj, rfl⟩ := List.mem_map.mp h
    rw [List.mem_range] at hj
    exact ⟨by omega, s, rfl, hfits⟩
  · rw [heq] at h
    exact absurd h List.not_mem_nil

theorem slice_cleared (mem : Mem) {first : ℕ} (h : first ≤ SUN_PATH) :
    slice (cleared mem) 0 (OFFSET + first) = toBytes 2 AF_UNIX ++ List.replicate first 0 := by
  have hfamily : slice (cleared mem) 0 OFFSET = toBytes 2 AF_UNIX := slice_storeAll _ 0 (toBytes 2 AF_UNIX)
  rw [slice_add, hfamily, cleared, slice_storeAll_after _ _ _ (by rw [length_toBytes]),
    slice_storeAll_part _ (Nat.zero_le _) (by rw [List.length_replicate]; omega), List.drop_replicate,
    List.take_replicate]
  congr 2
  omega

/-- The family, what stands in front of the name, and the name. -/
theorem slice_strncpy (mem : Mem) {first n : ℕ} {s : List UInt8} (hfirst : first ≤ SUN_PATH)
    (hlen : s.length ≤ n) :
    slice (strncpy (cleared mem) (OFFSET + first) s n) 0 (OFFSET + first + s.length) =
      toBytes 2 AF_UNIX ++ List.replicate first 0 ++ s := by
  rw [slice_add, strncpy, slice_storeAll_before _ _ (Nat.le_of_eq (Nat.zero_add _)),
    slice_cleared mem hfirst, Nat.zero_add,
    slice_storeAll_part _ (Nat.le_refl _) (by rw [List.length_append, List.length_take]; omega),
    Nat.sub_self, List.drop_zero, List.take_of_length_le hlen, List.take_left]

/-- A name that fits is followed by a null byte. -/
theorem SUN_LEN_strncpy (mem : Mem) {path : CStr} (h : path.val.length < SUN_PATH) :
    SUN_LEN (strncpy (cleared mem) OFFSET path.val SUN_PATH) = OFFSET + path.val.length := by
  obtain ⟨k, hk⟩ : ∃ k, SUN_PATH - path.val.length = k + 1 :=
    ⟨SUN_PATH - path.val.length - 1, by omega⟩
  have hslice := slice_storeAll (cleared mem) OFFSET
    (path.val.take SUN_PATH ++ List.replicate (SUN_PATH - path.val.length) 0)
  have hsize : (path.val.take SUN_PATH ++
      List.replicate (SUN_PATH - path.val.length) (0 : UInt8)).length = SUN_PATH := by
    rw [List.length_append, List.length_take, List.length_replicate]
    omega
  rw [hsize, List.take_of_length_le h.le, hk, List.replicate_succ] at hslice
  rw [SUN_LEN, strncpy, List.take_of_length_le h.le, hk, List.replicate_succ, hslice,
    strlen_append path.property]

/-- What is given to `connect()` or `bind()` is the address that was built. -/
theorem passed_useAddress {first n : ℕ} {path : CStr} {addr : Option Mem} {socklen : Mem → ℕ}
    {c : Calls} {p : List UInt8 × ℕ}
    (h : (useAddress (buildAddress first n (some path) addr) socklen c).passed = some p) :
    first + path.val.length < SUN_PATH ∧ ∃ mem,
      p = (slice (strncpy (cleared mem) (OFFSET + first) path.val n) 0
          (socklen (strncpy (cleared mem) (OFFSET + first) path.val n)),
        socklen (strncpy (cleared mem) (OFFSET + first) path.val n)) := by
  rcases buildAddress_cases first n (some path) addr with ⟨s, mem, hs, -, hfits, heq⟩ | ⟨e, addr', heq⟩
  · obtain rfl := Option.some.inj hs
    rw [heq, useAddress] at h
    refine ⟨hfits, mem, ?_⟩
    cases hsocket : c.socket with
    | none =>
      simp only [hsocket, reduceCtorEq] at h
    | some sfd =>
      simp only [hsocket] at h
      split at h <;> exact (Option.some.inj h).symm
  · rw [heq, useAddress] at h
    exact nomatch h

/-- **What `connect()` or `bind()` is given** for a pathname. -/
theorem passed_yunixconnect {path : CStr} {addr : Option Mem} {c : Calls} {p : List UInt8 × ℕ}
    (h : (yunixconnect (some path) addr c).passed = some p) :
    p = (toBytes 2 AF_UNIX ++ path.val, OFFSET + path.val.length) := by
  obtain ⟨hfits, mem, rfl⟩ := passed_useAddress h
  rw [Nat.zero_add] at hfits
  rw [Nat.add_zero, SUN_LEN_strncpy mem hfits]
  have hslice := @slice_strncpy mem 0 SUN_PATH path.val (Nat.zero_le _) hfits.le
  rw [Nat.add_zero, List.replicate_zero, List.append_nil] at hslice
  rw [hslice]

/-- **What `connect()` or `bind()` is given** for a name in the abstract namespace. -/
theorem passed_yunixAconnect {path : CStr} {addr : Option Mem} {c : Calls} {p : List UInt8 × ℕ}
    (h : (yunixAconnect (some path) addr c).passed = some p) :
    p = (toBytes 2 AF_UNIX ++ 0 :: path.val, OFFSET + 1 + path.val.length) := by
  obtain ⟨hfits, mem, rfl⟩ := passed_useAddress h
  have hslice := @slice_strncpy mem 1 SUN_PATH path.val (by decide) (by omega)
  rw [List.append_assoc] at hslice
  exact congrArg (·, OFFSET + 1 + path.val.length) hslice

/-! ## 4. What the library promises -/

/-- The promise for one name, but for where the bytes are stored. -/
structure AddressesAgree (path : CStr) : Prop where
  failed : ∀ addr e, ((yunixaddress (some path) addr).ret = .error e →
      (yunixaddress (some path) addr).copied = []) ∧
    ((yunixAaddress (some path) addr).ret = .error e →
      (yunixAaddress (some path) addr).copied = [])
  /-- The server and the client mean one address. -/
  same : ∀ addr addr' c c' p p', (yunixAconnect (some path) addr c).passed = some p →
    (yunixAbind (some path) addr' c').passed = some p' → p = p'
  /-- Two names are two addresses, in the abstract namespace and as pathnames. -/
  distinct : ∀ path', path' ≠ path → ∀ addr addr' c c' p p',
    ((yunixAconnect (some path) addr c).passed = some p →
      (yunixAconnect (some path') addr' c').passed = some p' → p ≠ p') ∧
    ((yunixconnect (some path) addr c).passed = some p →
      (yunixconnect (some path') addr' c').passed = some p' → p ≠ p')

/-- What is promised of a name: besides, the copying keeps within `sun_path`. -/
structure AddressesRight (path : CStr) : Prop extends AddressesAgree path where
  bounds : ∀ addr, (∀ i ∈ (yunixaddress (some path) addr).copied, i < SUN_PATH) ∧
    ∀ i ∈ (yunixAaddress (some path) addr).copied, i < SUN_PATH

/-- The addresses are as they should be, whatever the name. -/
theorem addressesAgree (path : CStr) : AddressesAgree path := by
  refine ⟨fun addr e => ⟨copied_of_error, copied_of_error⟩, ?_, ?_⟩
  · intro addr addr' c c' p p' h h'
    rw [passed_yunixAconnect h]
    exact (passed_yunixAconnect h').symm
  · intro path' hne addr addr' c c' p p'
    refine ⟨fun h h' heq => hne ?_, fun h h' heq => hne ?_⟩
    · rw [passed_yunixAconnect h, passed_yunixAconnect h', Prod.mk.injEq] at heq
      exact Subtype.ext (List.cons.inj (List.append_cancel_left heq.1)).2.symm
    · rw [passed_yunixconnect h, passed_yunixconnect h', Prod.mk.injEq] at heq
      exact Subtype.ext (List.append_cancel_left heq.1).symm

/-- **The promise is kept for a name only if it is too long for the abstract namespace**: otherwise
`strncpy()` fills up to one byte behind `sun_path`; all but this is kept for every name. -/
theorem addressesRight_iff (path : CStr) :
    AddressesAgree path ∧ (AddressesRight path ↔ SUN_PATH ≤ 1 + path.val.length) := by
  refine ⟨addressesAgree path, ?_⟩
  constructor
  · intro h
    by_contra hfits
    -- the last byte that is stored is one past the end
    have hcopied : SUN_PATH ∈ (yunixAaddress (some path) (some fun _ => 0)).copied := by
      rcases buildAddress_cases 1 SUN_PATH (some path) (some fun _ => 0) with
        ⟨s, mem, -, -, -, heq⟩ | ⟨e, addr', heq⟩
      · rw [yunixAaddress, heq]
        exact List.mem_map.mpr ⟨SUN_PATH - 1, List.mem_range.mpr (by decide), rfl⟩
      · rw [buildAddress, if_pos (Nat.lt_of_not_le hfits)] at heq
        exact nomatch heq
    exact absurd ((h.bounds _).2 _ hcopied) (Nat.lt_irrefl _)
  · intro hlong
    -- a name in the abstract namespace would have to fit, and it does not
    refine ⟨addressesAgree path, fun addr => ⟨fun i hi => ?_, fun i hi => ?_⟩⟩
    · rw [← Nat.zero_add SUN_PATH]
      exact (mem_copied hi).1
    · obtain ⟨-, s, hs, hfits⟩ := mem_copied hi
      rw [← Option.some.inj hs] at hfits
      omega

/-- The name `a`: the bytes 1 to 108 of `sun_path` are stored, of 0 to 107, and what stands behind
the structure is overwritten. -/
theorem yunixAaddress_overruns : ¬AddressesRight ⟨[97], by decide⟩ ∧
    ((yunixAaddress (some ⟨[97], by decide⟩) (some fun _ => 7)).addr.map fun mem =>
      mem (OFFSET + SUN_PATH)) = some 0 := by
  refine ⟨?_, by decide⟩
  intro h
  have hcopied : SUN_PATH ∈ (yunixAaddress (some ⟨[97], by decide⟩) (some fun _ => 0)).copied :=
    List.mem_map.mpr ⟨SUN_PATH - 1, List.mem_range.mpr (by decide), rfl⟩
  exact absurd ((h.bounds _).2 _ hcopied) (Nat.lt_irrefl _)

end Tlpi.UnixAddress
