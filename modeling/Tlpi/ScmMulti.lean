/-
`sockets/scm_multi_send.c` and `sockets/scm_multi_recv.c`: a list of file descriptors and the
sender's credentials, sent as two blocks of ancillary data in one message.

The sender lays the blocks out byte by byte in a buffer that `malloc()` gave it, and the receiver
goes through what it was given header by header. What the kernel does between the two is `Delivered`:
the blocks arrive in their order and as they were sent, but each descriptor is a new number; the
padding of a block may be anything. What is left out: the opening and reading of the files, and the
real data of the message.
-/
import Mathlib.Data.List.Basic
import Tlpi.Cmsg
import Tlpi.Loop

set_option autoImplicit false

namespace Tlpi.ScmMulti

open Tlpi.Cmsg Tlpi.Descriptor Tlpi.LittleEndian Tlpi.Loop

/-! ## 1. The sender -/

abbrev SOL_SOCKET : BitVec 32 := 1

abbrev SCM_RIGHTS : BitVec 32 := 1

abbrev SCM_CREDENTIALS : BitVec 32 := 2

abbrev MAX_FDS : ℕ := 1024

/-- `sizeof(struct ucred)` -/
abbrev UCRED : ℕ := 12

structure Ucred where
  pid : BitVec 32
  uid : BitVec 32
  gid : BitVec 32
deriving Repr, DecidableEq

def Ucred.bytes (creds : Ucred) : List UInt8 := intBytes [creds.pid, creds.uid, creds.gid]

def ucredAt (mem : Mem) (p : ℕ) : Ucred where
  pid := intAt mem p
  uid := intAt mem (p + 4)
  gid := intAt mem (p + 8)

/-- The descriptors of the files that are named on the command line: there is one at least, and
their number is an `int`. -/
structure FdList where
  fds : List (BitVec 32)
  nonempty : fds ≠ []
  int : fds.length < 2 ^ 31

/-- `fdAllocSize` -/
def FdList.size (l : FdList) : ℕ := 4 * l.fds.length

/-- `controlMsgSize` of the sender. -/
def controlMsgSize (l : FdList) : ℕ := CMSG_SPACE l.size + CMSG_SPACE UCRED

/-- A block is filled in: its header and its data. -/
def fillBlock (mem : Mem) (p : ℕ) (type : BitVec 32) (data : List UInt8) : Mem :=
  storeAll (storeAll mem p (Header.bytes ⟨CMSG_LEN data.length, SOL_SOCKET, type⟩)) (CMSG_DATA p) data

/-- What the sender gives to `sendmsg()`, with the offsets of its two blocks. -/
structure Sent where
  control : Control
  first : ℕ
  second : ℕ

/-- The ancillary data is put into the memory that `malloc()` returned. `none` if a pointer to a
header is `NULL`, which the sender does not check. -/
def layOut (v : Glibc) (l : FdList) (creds : Ucred) (mem : Mem) : Option Sent := do
  let size := controlMsgSize l
  let mem := storeAll mem 0 (List.replicate size 0)
  let first ← CMSG_FIRSTHDR ⟨mem, size⟩
  let mem := fillBlock mem first SCM_RIGHTS (intBytes l.fds)
  let second ← CMSG_NXTHDR v ⟨mem, size⟩ first
  let mem := fillBlock mem second SCM_CREDENTIALS creds.bytes
  return ⟨⟨mem, size⟩, first, second⟩

/-! ## 2. The receiver -/

/-- `controlMsgSize` of the receiver. -/
def defaultSize : ℕ := CMSG_SPACE (4 * MAX_FDS) + CMSG_SPACE UCRED

/-- What the receiver finds in a block. -/
inductive Block where
  | rights (fdCnt : ℤ) (fdList : List (BitVec 32))
  | credentials (creds : Ucred)
deriving Repr, DecidableEq

/-- Why the receiver gives up. -/
inductive Exit where
  | level
  | size
  | type (type : BitVec 32)
  | malloc
deriving Repr, DecidableEq

/-- `(cmsgp->cmsg_len - CMSG_LEN(0)) / sizeof(int)`, a `size_t` that is stored in an `int`. -/
def fdCnt (len : ℕ) : ℤ :=
  (BitVec.ofNat 32 ((BitVec.ofNat 64 len - BitVec.ofNat 64 (CMSG_LEN 0)).toNat / 4)).toInt

/-- What is done with the block at `p`. -/
def visit (mem : Mem) (p : ℕ) : Except Exit Block :=
  let h := headerAt mem p
  if h.level ≠ SOL_SOCKET then .error .level
  else if h.type = SCM_RIGHTS then
    -- a negative number of descriptors is more than can be allocated
    if fdCnt h.len < 0 then .error .malloc
    else .ok (.rights (fdCnt h.len) (ints mem (CMSG_DATA p) (fdCnt h.len).toNat))
  else if h.type = SCM_CREDENTIALS then
    if h.len ≠ CMSG_LEN UCRED then .error .size
    else .ok (.credentials (ucredAt mem (CMSG_DATA p)))
  else .error (.type h.type)

/-- The walk through the headers: `cmsgp`, and what was found so far. -/
structure Walk where
  cmsgp : Option ℕ
  found : List Block

def walkBody (v : Glibc) (c : Control) (s : Walk) : Iter Walk (Except Exit (List Block)) :=
  match s.cmsgp with
  | none => .done (.ok s.found)
  | some p =>
    match visit c.mem p with
    | .error e => .done (.error e)
    | .ok block => .next ⟨CMSG_NXTHDR v c p, s.found ++ [block]⟩

/-- How much is left of the buffer. -/
def Walk.rest (c : Control) (s : Walk) : ℕ :=
  match s.cmsgp with
  | none => 0
  | some p => c.controllen - p + 1

def walk (v : Glibc) (c : Control) : Option (Except Exit (List Block)) :=
  exec (walkBody v c) (Walk.rest c) ⟨CMSG_FIRSTHDR c, []⟩

/-! ## 3. What holds between them -/

/-- What the receiver is given of what was sent, where the descriptors are numbered anew: `renumber`
may give two numbers to a descriptor that is in the list twice. -/
structure Delivered (renumber : ℕ → BitVec 32 → BitVec 32) (s : Sent) (c : Control) : Prop where
  controllen : c.controllen = s.control.controllen
  header : slice c.mem s.first HDR = slice s.control.mem s.first HDR
  rights : ∀ k, (headerAt s.control.mem s.first).len = CMSG_LEN (4 * k) →
    ints c.mem (CMSG_DATA s.first) k =
      (ints s.control.mem (CMSG_DATA s.first) k).mapIdx renumber
  second : slice c.mem s.second (headerAt s.control.mem s.second).len =
    slice s.control.mem s.second (headerAt s.control.mem s.second).len

/-- The two blocks, as long as their headers say, are apart and within the buffer, and nothing is
stored behind it. -/
structure LaidOut (l : FdList) (mem : Mem) (s : Sent) : Prop where
  controllen : s.control.controllen = controlMsgSize l
  apart : s.first + (headerAt s.control.mem s.first).len ≤ s.second
  inside : s.second + (headerAt s.control.mem s.second).len ≤ controlMsgSize l
  frame : ∀ i, controlMsgSize l ≤ i → s.control.mem i = mem i

/-! ## 4. One block -/

theorem headerAt_fillBlock (mem : Mem) (p : ℕ) (type : BitVec 32) {data : List UInt8}
    (h : CMSG_LEN data.length < 2 ^ 64) :
    headerAt (fillBlock mem p type data) p = ⟨CMSG_LEN data.length, SOL_SOCKET, type⟩ := by
  apply headerAt_of_slice h
  rw [fillBlock, slice_storeAll_before _ _ (by rw [CMSG_DATA]), ← length_bytes, slice_storeAll]

theorem slice_fillBlock_data (mem : Mem) (p : ℕ) (type : BitVec 32) (data : List UInt8) :
    slice (fillBlock mem p type data) (CMSG_DATA p) data.length = data := slice_storeAll _ _ _

theorem slice_fillBlock_before (mem : Mem) {p i k : ℕ} (type : BitVec 32) (data : List UInt8)
    (h : i + k ≤ p) : slice (fillBlock mem p type data) i k = slice mem i k := by
  have hdata : i + k ≤ CMSG_DATA p := by
    rw [CMSG_DATA]
    omega
  rw [fillBlock, slice_storeAll_before _ _ hdata, slice_storeAll_before _ _ h]

/-- A block ends where the length in its header says. -/
theorem fillBlock_after (mem : Mem) {p i : ℕ} (type : BitVec 32) {data : List UInt8}
    (h : p + CMSG_LEN data.length ≤ i) : fillBlock mem p type data i = mem i := by
  have hlen : CMSG_LEN data.length = HDR + data.length := rfl
  rw [hlen] at h
  rw [fillBlock, storeAll, if_neg (by rw [CMSG_DATA]; omega), storeAll,
    if_neg (by rw [length_bytes]; omega)]

theorem ucredAt_of_ints {mem : Mem} {p : ℕ} {creds : Ucred}
    (h : ints mem p 3 = [creds.pid, creds.uid, creds.gid]) : ucredAt mem p = creds := by
  rw [ints_succ, ints_succ, ints_succ] at h
  injection h with hpid h
  injection h with huid h
  injection h with hgid h
  rw [ucredAt, hpid, huid]
  exact congrArg _ hgid

/-- The receiver computes the number of descriptors from the length of the block. -/
theorem fdCnt_CMSG_LEN {n : ℕ} (h : n < 2 ^ 31) : fdCnt (CMSG_LEN (4 * n)) = n := by
  have hdata : (BitVec.ofNat 64 (CMSG_LEN (4 * n)) - BitVec.ofNat 64 (CMSG_LEN 0)).toNat = 4 * n := by
    have h₁ : CMSG_LEN (4 * n) = 16 + 4 * n := rfl
    have h₂ : CMSG_LEN 0 = 16 := rfl
    rw [BitVec.toNat_sub, BitVec.toNat_ofNat, BitVec.toNat_ofNat, h₁, h₂]
    omega
  rw [fdCnt, hdata, Nat.mul_div_cancel_left _ (by decide), BitVec.toInt_eq_toNat_of_lt,
    BitVec.toNat_ofNat]
  · omega
  · rw [BitVec.toNat_ofNat]
    omega

/-! ## 5. What is sent -/

/-- The buffer that `memset()` has cleared. -/
def zeroed (l : FdList) (mem : Mem) : Mem := storeAll mem 0 (List.replicate (controlMsgSize l) 0)

/-- The buffer with the first block. -/
def withRights (l : FdList) (mem : Mem) : Mem :=
  fillBlock (zeroed l mem) 0 SCM_RIGHTS (intBytes l.fds)

def sent (l : FdList) (creds : Ucred) (mem : Mem) : Sent where
  control := ⟨fillBlock (withRights l mem) (CMSG_SPACE l.size) SCM_CREDENTIALS creds.bytes,
    controlMsgSize l⟩
  first := 0
  second := CMSG_SPACE l.size

theorem length_fds (l : FdList) : (intBytes l.fds).length = l.size := length_intBytes _

theorem length_creds (creds : Ucred) : creds.bytes.length = UCRED := rfl

theorem size_lt (l : FdList) : CMSG_LEN l.size < 2 ^ 64 := by
  have hlen : CMSG_LEN l.size = 16 + 4 * l.fds.length := rfl
  have hint := l.int
  omega

theorem HDR_le_CMSG_SPACE (k : ℕ) : HDR ≤ CMSG_SPACE k := by
  unfold CMSG_SPACE CMSG_ALIGN HDR
  omega

theorem headerAt_withRights (l : FdList) (mem : Mem) :
    headerAt (withRights l mem) 0 = ⟨CMSG_LEN l.size, SOL_SOCKET, SCM_RIGHTS⟩ := by
  rw [withRights, headerAt_fillBlock _ _ _ (by rw [length_fds]; exact size_lt l), length_fds]

/-- Where the second block will be, the buffer is still zero. -/
theorem slice_withRights (l : FdList) (mem : Mem) :
    slice (withRights l mem) (CMSG_SPACE l.size) 8 = List.replicate 8 0 := by
  have hfits : CMSG_SPACE l.size - 0 + 8 ≤ controlMsgSize l := by
    have hspace : 8 ≤ CMSG_SPACE UCRED := by decide
    rw [controlMsgSize]
    omega
  have hspace := CMSG_LEN_le l.size
  have hlen : CMSG_LEN l.size = HDR + l.size := rfl
  rw [withRights, fillBlock, slice_storeAll_after, slice_storeAll_after, zeroed,
    slice_storeAll_part _ (Nat.zero_le _) (by rw [List.length_replicate]; exact hfits),
    List.drop_replicate, List.take_replicate, Nat.min_eq_left (by omega)]
  · rw [length_bytes]
    omega
  · rw [length_fds, CMSG_DATA]
    omega

theorem layOut_eq (v : Glibc) (l : FdList) (creds : Ucred) (mem : Mem) :
    layOut v l creds mem = some (sent l creds mem) := by
  have hfirst : CMSG_FIRSTHDR ⟨zeroed l mem, controlMsgSize l⟩ = some 0 := by
    apply if_pos
    exact (HDR_le_CMSG_SPACE _).trans (Nat.le_add_right _ _)
  have hlen : (headerAt (withRights l mem) 0).len = CMSG_LEN l.size := by
    rw [headerAt_withRights]
  -- the old macro looks at the length that is not yet filled in, so it has to be small
  have hnext : (headerAt (withRights l mem) (0 + CMSG_SPACE l.size)).len = 0 := by
    rw [Nat.zero_add, headerAt, slice_withRights]
    rfl
  have hroom : 0 + CMSG_SPACE l.size + HDR ≤ controlMsgSize l := by
    rw [Nat.zero_add, controlMsgSize]
    exact Nat.add_le_add_left (HDR_le_CMSG_SPACE UCRED) _
  have hsecond : CMSG_NXTHDR v ⟨withRights l mem, controlMsgSize l⟩ 0
      = some (0 + CMSG_SPACE l.size) := by
    refine @CMSG_NXTHDR_some v ⟨withRights l mem, controlMsgSize l⟩ 0 l.size hlen hroom ?_
    rw [hnext]
    exact (Nat.le_add_right _ _).trans hroom
  rw [Nat.zero_add] at hsecond
  unfold layOut
  simp only [zeroed] at hfirst
  simp only [withRights, zeroed] at hsecond
  simp only [hfirst, hsecond, Option.bind_eq_bind, Option.bind_some, Option.pure_def]
  rfl

/-- The first block is not touched by the second. -/
theorem headerAt_first (l : FdList) (creds : Ucred) (mem : Mem) :
    headerAt (sent l creds mem).control.mem (sent l creds mem).first =
      ⟨CMSG_LEN l.size, SOL_SOCKET, SCM_RIGHTS⟩ := by
  rw [← headerAt_withRights l mem]
  apply headerAt_congr
  apply slice_fillBlock_before
  exact (Nat.le_of_eq (Nat.zero_add _)).trans (HDR_le_CMSG_SPACE _)

theorem ints_first (l : FdList) (creds : Ucred) (mem : Mem) :
    ints (sent l creds mem).control.mem (CMSG_DATA (sent l creds mem).first) l.fds.length = l.fds := by
  apply ints_of_slice
  have hbefore : CMSG_DATA 0 + 4 * l.fds.length ≤ CMSG_SPACE l.size := CMSG_LEN_le l.size
  have hdata := slice_fillBlock_data (zeroed l mem) 0 SCM_RIGHTS (intBytes l.fds)
  rw [length_intBytes] at hdata
  exact (slice_fillBlock_before _ _ _ hbefore).trans hdata

theorem headerAt_second (l : FdList) (creds : Ucred) (mem : Mem) :
    headerAt (sent l creds mem).control.mem (sent l creds mem).second =
      ⟨CMSG_LEN UCRED, SOL_SOCKET, SCM_CREDENTIALS⟩ :=
  headerAt_fillBlock _ _ _ (by rw [length_creds]; decide)

theorem slice_second (l : FdList) (creds : Ucred) (mem : Mem) :
    slice (sent l creds mem).control.mem (CMSG_DATA (sent l creds mem).second) UCRED
      = creds.bytes := slice_fillBlock_data _ _ _ creds.bytes

theorem laidOut_sent (l : FdList) (creds : Ucred) (mem : Mem) :
    LaidOut l mem (sent l creds mem) := by
  have hfirst := CMSG_LEN_le l.size
  have hsecond := CMSG_LEN_le UCRED
  refine ⟨rfl, ?_, ?_, ?_⟩
  · rw [headerAt_first]
    exact (Nat.le_of_eq (Nat.zero_add _)).trans hfirst
  · rw [headerAt_second, controlMsgSize]
    exact Nat.add_le_add_left hsecond _
  · intro i hi
    rw [controlMsgSize] at hi
    have hbehind₂ : CMSG_SPACE l.size + CMSG_LEN creds.bytes.length ≤ i := by
      rw [length_creds]
      omega
    have hbehind₁ : 0 + CMSG_LEN (intBytes l.fds).length ≤ i := by
      rw [length_fds]
      omega
    have hbehind : ¬(0 ≤ i ∧ i < 0 + (List.replicate (controlMsgSize l) (0 : UInt8)).length) := by
      rw [List.length_replicate, controlMsgSize]
      omega
    calc (sent l creds mem).control.mem i
        = withRights l mem i := fillBlock_after _ _ hbehind₂
      _ = zeroed l mem i := fillBlock_after _ _ hbehind₁
      _ = mem i := if_neg hbehind

/-! ## 6. What is received -/

/-- Every turn of the walk gets further. -/
theorem rest_lt {v : Glibc} {c : Control} {s s' : Walk} (h : walkBody v c s = .next s') :
    s'.rest c < s.rest c := by
  unfold walkBody at h
  split at h
  · exact nomatch h
  rename_i p hp
  split at h
  · exact nomatch h
  rw [Iter.next.injEq] at h
  rw [← h, Walk.rest, Walk.rest, hp]
  cases hnext : CMSG_NXTHDR v c p with
  | none => exact Nat.succ_pos _
  | some q =>
    have hinside := CMSG_NXTHDR_inside hnext
    have hhdr : HDR = 16 := rfl
    simp only
    omega

theorem visit_rights {mem : Mem} {p n : ℕ} (hn : n < 2 ^ 31)
    (h : headerAt mem p = ⟨CMSG_LEN (4 * n), SOL_SOCKET, SCM_RIGHTS⟩) :
    visit mem p = .ok (.rights n (ints mem (CMSG_DATA p) n)) := by
  have hpos : ¬((n : ℤ) < 0) := by omega
  rw [visit, h]
  simp only [fdCnt_CMSG_LEN hn, ne_eq, not_true, if_false, if_true, if_neg hpos, Int.toNat_natCast]

theorem visit_credentials {mem : Mem} {p : ℕ}
    (h : headerAt mem p = ⟨CMSG_LEN UCRED, SOL_SOCKET, SCM_CREDENTIALS⟩) :
    visit mem p = .ok (.credentials (ucredAt mem (CMSG_DATA p))) := by
  have htype : ¬SCM_CREDENTIALS = SCM_RIGHTS := by decide
  rw [visit, h]
  simp only [if_neg htype, ne_eq, not_true, if_false, if_true]

/-- One block is visited. -/
theorem exec_visit {v : Glibc} {c : Control} {p : ℕ} {block : Block} (found : List Block)
    (h : visit c.mem p = .ok block) : exec (walkBody v c) (Walk.rest c) ⟨some p, found⟩ =
      exec (walkBody v c) (Walk.rest c) ⟨CMSG_NXTHDR v c p, found ++ [block]⟩ := by
  have hbody : walkBody v c ⟨some p, found⟩ = .next ⟨CMSG_NXTHDR v c p, found ++ [block]⟩ := by
    simp only [walkBody, h]
  rw [exec_eq (fun _ _ => rest_lt), hbody]

section

variable {renumber : ℕ → BitVec 32 → BitVec 32} {l : FdList} {creds : Ucred} {mem : Mem} {c : Control}

/-- The receiver finds the renumbered descriptors in the first block. -/
theorem first_delivered (h : Delivered renumber (sent l creds mem) c) :
    headerAt c.mem 0 = ⟨CMSG_LEN l.size, SOL_SOCKET, SCM_RIGHTS⟩ ∧
      visit c.mem 0 = .ok (.rights l.fds.length (l.fds.mapIdx renumber)) := by
  have hheader : headerAt c.mem 0 = ⟨CMSG_LEN l.size, SOL_SOCKET, SCM_RIGHTS⟩ :=
    (headerAt_congr h.header).trans (headerAt_first l creds mem)
  have hrights := h.rights l.fds.length (congrArg Header.len (headerAt_first l creds mem))
  rw [ints_first] at hrights
  refine ⟨hheader, ?_⟩
  rw [visit_rights l.int hheader, ← hrights]
  rfl

/-- The receiver finds the credentials in the second block. -/
theorem second_delivered (h : Delivered renumber (sent l creds mem) c) :
    headerAt c.mem (CMSG_SPACE l.size) = ⟨CMSG_LEN UCRED, SOL_SOCKET, SCM_CREDENTIALS⟩ ∧
      visit c.mem (CMSG_SPACE l.size) = .ok (.credentials creds) := by
  have hsecond := h.second
  have hsplit : CMSG_LEN UCRED = HDR + UCRED := rfl
  rw [headerAt_second, hsplit, slice_add, slice_add] at hsecond
  obtain ⟨hbytes, hdata⟩ := List.append_inj hsecond (by rw [length_slice, length_slice])
  have hheader : headerAt c.mem (CMSG_SPACE l.size) =
      ⟨CMSG_LEN UCRED, SOL_SOCKET, SCM_CREDENTIALS⟩ :=
    (headerAt_congr hbytes).trans (headerAt_second l creds mem)
  have hcreds : ucredAt c.mem (CMSG_DATA (CMSG_SPACE l.size)) = creds := by
    apply ucredAt_of_ints
    exact @ints_of_slice _ _ [creds.pid, creds.uid, creds.gid]
      (hdata.trans (slice_second l creds mem))
  refine ⟨hheader, ?_⟩
  rw [visit_credentials hheader, hcreds]

/-- **The receiver's walk** through what is delivered. -/
theorem walk_delivered (v : Glibc) (h : Delivered renumber (sent l creds mem) c) :
    walk v c = some (.ok [.rights l.fds.length (l.fds.mapIdx renumber), .credentials creds]) := by
  have hcontrollen : c.controllen = CMSG_SPACE l.size + CMSG_SPACE UCRED := h.controllen
  obtain ⟨hheader₁, hvisit₁⟩ := first_delivered h
  obtain ⟨hheader₂, hvisit₂⟩ := second_delivered h
  have hfirst : CMSG_FIRSTHDR c = some 0 := by
    apply if_pos
    rw [hcontrollen]
    exact (HDR_le_CMSG_SPACE _).trans (Nat.le_add_right _ _)
  -- the first block ends where the second begins, and that one where the buffer ends
  have hnext : CMSG_NXTHDR v c 0 = some (0 + CMSG_SPACE l.size) := by
    have hroom : 0 + CMSG_SPACE l.size + CMSG_SPACE UCRED = c.controllen := by
      rw [hcontrollen, Nat.zero_add]
    apply CMSG_NXTHDR_some v (congrArg Header.len hheader₁)
    · rw [← hroom]
      exact Nat.add_le_add_left (HDR_le_CMSG_SPACE UCRED) _
    · rw [Nat.zero_add (CMSG_SPACE l.size), hheader₂, CMSG_ALIGN_len, hcontrollen]
  have hlast : CMSG_NXTHDR v c (CMSG_SPACE l.size) = none := by
    apply CMSG_NXTHDR_none v (congrArg Header.len hheader₂)
    rw [hcontrollen]
    exact Nat.lt_add_of_pos_right (by decide)
  rw [Nat.zero_add] at hnext
  -- two turns, and a last one that finds `NULL`
  rw [walk, hfirst, exec_visit _ hvisit₁, hnext, exec_visit _ hvisit₂, hlast,
    exec_eq (fun _ _ => rest_lt)]
  rfl

end

/-! ## 7. The round trip -/

/-- What is sent can be delivered, whatever the new numbers are: the descriptors in the first block
are overwritten. -/
theorem exists_delivered (renumber : ℕ → BitVec 32 → BitVec 32) (l : FdList) (creds : Ucred)
    (mem : Mem) : ∃ c, Delivered renumber (sent l creds mem) c := by
  have hlen : (intBytes (l.fds.mapIdx renumber)).length = 4 * l.fds.length := by
    rw [length_intBytes, List.length_mapIdx]
  refine ⟨⟨storeAll (sent l creds mem).control.mem (CMSG_DATA 0) (intBytes (l.fds.mapIdx renumber)),
    controlMsgSize l⟩, rfl, ?_, ?_, ?_⟩
  · exact slice_storeAll_before _ _ (Nat.le_refl _)
  · intro k hk
    have hcount : k = l.fds.length := by
      have hlens : CMSG_LEN (4 * l.fds.length) = CMSG_LEN (4 * k) := by
        rw [← hk, headerAt_first]
        rfl
      unfold CMSG_LEN at hlens
      omega
    rw [hcount, ints_first]
    have hslice := slice_storeAll (sent l creds mem).control.mem (CMSG_DATA 0)
      (intBytes (l.fds.mapIdx renumber))
    rw [length_intBytes] at hslice
    have hints := ints_of_slice hslice
    rw [List.length_mapIdx] at hints
    exact hints
  · apply slice_storeAll_after
    rw [hlen]
    exact CMSG_LEN_le l.size

theorem controlMsgSize_le {l : FdList} (h : l.fds.length ≤ MAX_FDS) :
    controlMsgSize l ≤ defaultSize := by
  have hsize : l.size = 4 * l.fds.length := rfl
  unfold controlMsgSize defaultSize CMSG_SPACE CMSG_ALIGN
  omega

/-- **The ancillary data arrives as it was sent**, whatever was in the sender's memory before and in
the padding of what is received, and whichever versions of the macros the two programs use. -/
theorem scm_multi_round_trip (v v' : Glibc) (l : FdList) (creds : Ucred) (mem : Mem) :
    ∃ s, layOut v l creds mem = some s ∧ LaidOut l mem s ∧
      (l.fds.length ≤ MAX_FDS → s.control.controllen ≤ defaultSize) ∧
      ∀ renumber c, Delivered renumber s c → walk v' c =
        some (.ok [.rights l.fds.length (l.fds.mapIdx renumber), .credentials creds]) := by
  refine ⟨sent l creds mem, layOut_eq v l creds mem, laidOut_sent l creds mem, ?_, ?_⟩
  · exact controlMsgSize_le
  · intro renumber c h
    exact walk_delivered v' h

/-- Two descriptors, which get other numbers. -/
theorem scm_multi_round_trip_two : ∃ s c,
    layOut .old ⟨[3, 4], by decide, by decide⟩ ⟨100, 0, 0⟩ (fun _ => 0) = some s ∧
      Delivered (fun _ fd => fd + 4) s c ∧
        walk .new c = some (.ok [.rights 2 [7, 8], .credentials ⟨100, 0, 0⟩]) := by
  obtain ⟨s, hs, -, -, harrives⟩ := scm_multi_round_trip .old .new ⟨[3, 4], by decide, by decide⟩
    ⟨100, 0, 0⟩ (fun _ => 0)
  obtain ⟨c, hc⟩ := exists_delivered (fun _ fd => fd + 4) ⟨[3, 4], by decide, by decide⟩ ⟨100, 0, 0⟩
    (fun _ => 0)
  obtain rfl := Option.some.inj ((layOut_eq .old _ _ _).symm.trans hs)
  exact ⟨_, c, hs, hc, harrives _ c hc⟩

end Tlpi.ScmMulti
