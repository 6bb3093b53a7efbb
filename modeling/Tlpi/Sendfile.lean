/-
`sockets/sendfile.c`: `sendfile()` by `read()`, `write()` and `lseek()`.

In every turn of the loop a block is read and written. What `write()` leaves of the block is not
written again: the count and the total go by what was written, the file offset by what was read, and
nothing brings them together. So the function is right as long as no `write()` is short; and, with
an `offset`, as long as no call fails, since the early returns do not restore the file offset.

`in_fd` is a regular file. It has fewer than `2^63` bytes, so a total of bytes from it is a number
here, and `lseek()` fails for a negative offset only.
-/
import Tlpi.Loop
import Tlpi.Transfer

set_option autoImplicit false

namespace Tlpi.Sendfile

open Tlpi.Descriptor Tlpi.Loop Tlpi.Transfer

/-! ## 1. The function -/

abbrev BUF_SIZE : ℕ := 8192

/-- What the calls of `read()` and of `write()` come to, turn by turn. -/
structure Calls where
  read : Schedule
  write : Schedule

/-- A regular file that is open, with its file offset. -/
structure File where
  content : List UInt8
  pos : ℕ
deriving Repr, DecidableEq

inductive Whence where
  | SEEK_SET
  | SEEK_CUR

/-- `lseek()`: the new file offset; `none` is -1. -/
def lseek (file : File) (offset : ℤ) (whence : Whence) : Option File :=
  let target := match whence with
    | .SEEK_SET => offset
    | .SEEK_CUR => file.pos + offset
  if target < 0 then none else some { file with pos := target.toNat }

inductive Cause where
  | lseek
  | read
  | write
deriving Repr, DecidableEq

/-- How the function ends: `failed` is -1, and `exited` the end of the program. -/
inductive Status where
  | returned (totSent : ℕ)
  | failed (cause : Cause)
  | exited
deriving Repr, DecidableEq

/-- What is left in `*offset` and of `in_fd`, and what was written to `out_fd`. -/
structure Ret where
  status : Status
  offset : Option ℤ
  file : File
  out : List UInt8
deriving Repr, DecidableEq

structure Locals where
  count : ℕ
  totSent : ℕ
  file : File
  out : List UInt8
  turns : ℕ

/-- How the loop is left. -/
inductive Left where
  | ended
  | failed (cause : Cause)
  | exited

def body (c : Calls) (s : Locals) : Iter Locals (Left × Locals) :=
  if 0 < s.count then
    let toRead := min BUF_SIZE s.count
    match Transfer.read (c.read s.turns) (s.file.content.drop s.file.pos) toRead with
    | .error _ => .done (.failed .read, s)
    | .ok buf =>
      let s := { s with file := { s.file with pos := s.file.pos + buf.length } }
      if buf.length = 0 then .done (.ended, s)
      else
        match Transfer.write (c.write s.turns) buf.length with
        | .error _ => .done (.failed .write, s)
        | .ok numSent =>
          -- "should never happen"
          if numSent = 0 then .done (.exited, s)
          else
            .next { s with
              count := s.count - numSent
              totSent := s.totSent + numSent
              out := s.out ++ buf.take numSent
              turns := s.turns + 1 }
  else .done (.ended, s)

/-- The end of the function, where `orig` is the file offset at the call. -/
def finish (offset : Option ℤ) (orig : ℕ) (s : Locals) : Ret :=
  match offset with
  | none => ⟨.returned s.totSent, none, s.file, s.out⟩
  | some _ =>
    match lseek s.file 0 .SEEK_CUR with
    | none => ⟨.failed .lseek, some (-1), s.file, s.out⟩
    | some now =>
      match lseek s.file orig .SEEK_SET with
      | none => ⟨.failed .lseek, some now.pos, s.file, s.out⟩
      | some file => ⟨.returned s.totSent, some now.pos, file, s.out⟩

/-- The loop and what follows it, from a file offset on. -/
def sendFrom (c : Calls) (file : File) (offset : Option ℤ) (orig count : ℕ) : Option Ret :=
  (exec (body c) Locals.count ⟨count, 0, file, [], 0⟩).map fun (left, s) =>
    match left with
    | .ended => finish offset orig s
    | .failed cause => ⟨.failed cause, offset, s.file, s.out⟩
    | .exited => ⟨.exited, offset, s.file, s.out⟩

/-- `sendfile(out_fd, in_fd, offset, count)`; `none` is a call that does not come back. -/
def sendfile (c : Calls) (file : File) (offset : Option ℤ) (count : ℕ) : Option Ret :=
  match offset with
  | none => sendFrom c file none file.pos count
  | some off =>
    match lseek file 0 .SEEK_CUR with
    | none => some ⟨.failed .lseek, offset, file, []⟩
    | some orig =>
      match lseek file off .SEEK_SET with
      | none => some ⟨.failed .lseek, offset, file, []⟩
      | some file => sendFrom c file offset orig.pos count

/-! ## 2. What it should do -/

/-- Where the bytes to be sent begin. -/
def start (file : File) : Option ℤ → ℕ
  | none => file.pos
  | some off => off.toNat

/-- The bytes that follow are sent, as many as there are, and the offsets tell how many; a failed
`read()` or `write()` leaves the file offset as it was, if there is an `offset`. -/
def SentExactly (file : File) (offset : Option ℤ) (count : ℕ) (r : Ret) : Prop :=
  (∀ n, r.status = .returned n →
    r.out = (file.content.drop (start file offset)).take n ∧
      n = min count (file.content.length - start file offset) ∧
      match offset with
      | none => r.file.pos = file.pos + n
      | some off => r.offset = some (off + n) ∧ r.file.pos = file.pos) ∧
  (r.status = .failed .read ∨ r.status = .failed .write → offset ≠ none → r.file.pos = file.pos)

/-- The lengths that the calls of a turn return. -/
inductive Turn where
  | readFails
  | ended
  | writeFails (numRead : ℕ)
  | nothing (numRead : ℕ)
  | moved (numRead numSent : ℕ)

/-- Turn `i`, with `count` bytes to be sent and `left` bytes left in the file. -/
def turn (c : Calls) (i count left : ℕ) : Turn :=
  match c.read i with
  | .fails _ => .readFails
  | .moves k =>
    let numRead := min (min (max 1 k) (min (min BUF_SIZE count) MAX_RW_COUNT)) left
    if numRead = 0 then .ended
    else
      match c.write i with
      | .fails _ => .writeFails numRead
      | .moves k =>
        let numSent := min k (min numRead MAX_RW_COUNT)
        if numSent = 0 then .nothing numRead else .moved numRead numSent

/-- The calls from turn `i` on do no harm: if they go on to the end, as much has been sent as has
been read, and if one of them fails, what has been read until then is `restored`. -/
inductive Harmless (c : Calls) (restored : ℕ → Prop) :
    (i count left numRead numSent : ℕ) → Prop
  | whole {i left n : ℕ} : Harmless c restored i 0 left n n
  | ended {i count left n : ℕ} (hcount : 0 < count) (h : turn c i count left = .ended) :
    Harmless c restored i count left n n
  | readFails {i count left numRead numSent : ℕ} (hcount : 0 < count)
    (h : turn c i count left = .readFails) (hrestored : restored numRead) :
    Harmless c restored i count left numRead numSent
  | writeFails {i count left numRead numSent k : ℕ} (hcount : 0 < count)
    (h : turn c i count left = .writeFails k) (hrestored : restored (numRead + k)) :
    Harmless c restored i count left numRead numSent
  | nothing {i count left numRead numSent k : ℕ} (hcount : 0 < count)
    (h : turn c i count left = .nothing k) : Harmless c restored i count left numRead numSent
  | moved {i count left numRead numSent k n : ℕ} (hcount : 0 < count)
    (h : turn c i count left = .moved k n)
    (hnext : Harmless c restored (i + 1) (count - n) (left - k) (numRead + k) (numSent + n)) :
    Harmless c restored i count left numRead numSent

/-- When the function does what it should, from a file offset on. -/
def Harmlessly (c : Calls) (file : File) (offset : Option ℤ) (count : ℕ) : Prop :=
  Harmless c (fun numRead => ∀ off, offset = some off → off + numRead = file.pos) 0 count
    (file.content.length - start file offset) 0 0

/-! ## 3. The turns -/

section Turns

variable {c : Calls}

/-- Some bytes are sent, no more than were read, and these are there and are asked for. -/
theorem turn_moved {i count left k n : ℕ} (h : turn c i count left = .moved k n) :
    0 < n ∧ n ≤ k ∧ k ≤ count ∧ k ≤ left := by
  rw [turn] at h
  split at h
  · exact nomatch h
  · dsimp only at h
    split at h
    · exact nomatch h
    · split at h
      · exact nomatch h
      · split at h
        · exact nomatch h
        · obtain ⟨rfl, rfl⟩ := Turn.moved.inj h
          omega

/-- The end of the file is where nothing is left. -/
theorem turn_ended {i count left : ℕ} (hcount : 0 < count) (h : turn c i count left = .ended) :
    left = 0 := by
  rw [turn] at h
  split at h
  · exact nomatch h
  · dsimp only at h
    split at h
    · rename_i hzero
      simp only [BUF_SIZE, MAX_RW_COUNT] at hzero
      omega
    · split at h
      · exact nomatch h
      · split at h <;> exact nomatch h

/-- **What a turn of the loop does**, by the lengths that its calls return. -/
theorem body_eq {s : Locals} (hcount : 0 < s.count) :
    body c s = match turn c s.turns s.count (s.file.content.length - s.file.pos) with
      | .readFails => .done (.failed .read, s)
      | .ended => .done (.ended, s)
      | .writeFails k =>
        .done (.failed .write, { s with file := { s.file with pos := s.file.pos + k } })
      | .nothing k => .done (.exited, { s with file := { s.file with pos := s.file.pos + k } })
      | .moved k n => .next {
          count := s.count - n
          totSent := s.totSent + n
          file := { s.file with pos := s.file.pos + k }
          out := s.out ++ (s.file.content.drop s.file.pos).take n
          turns := s.turns + 1 } := by
  rw [body, if_pos hcount, turn]
  cases c.read s.turns with
  | fails e => rfl
  | moves k =>
    simp only [Transfer.read, List.length_take, List.length_drop]
    generalize hnumRead : min (min (max 1 k) (min (min BUF_SIZE s.count) MAX_RW_COUNT))
      (s.file.content.length - s.file.pos) = numRead
    by_cases hzero : numRead = 0
    · simp only [hzero, if_true, Nat.add_zero]
    · simp only [if_neg hzero]
      cases c.write s.turns with
      | fails e => rfl
      | moves j =>
        simp only [Transfer.write]
        by_cases hnothing : min j (min numRead MAX_RW_COUNT) = 0
        · simp only [if_pos hnothing]
        · -- of the block that was read, the first bytes are written
          have hle : min j (min numRead MAX_RW_COUNT) ≤
              min (max 1 k) (min (min BUF_SIZE s.count) MAX_RW_COUNT) := by omega
          simp only [if_neg hnothing, List.take_take, Nat.min_eq_left hle]

theorem harmless_zero {restored : ℕ → Prop} {i left numRead numSent : ℕ} :
    Harmless c restored i 0 left numRead numSent ↔ numRead = numSent := by
  constructor
  · intro h
    cases h with
    | whole => rfl
    | ended hcount => exact absurd hcount (Nat.lt_irrefl 0)
    | readFails hcount => exact absurd hcount (Nat.lt_irrefl 0)
    | writeFails hcount => exact absurd hcount (Nat.lt_irrefl 0)
    | nothing hcount => exact absurd hcount (Nat.lt_irrefl 0)
    | moved hcount => exact absurd hcount (Nat.lt_irrefl 0)
  · rintro rfl
    exact .whole

/-- Whether the calls do harm, turn by turn. -/
theorem harmless_iff {restored : ℕ → Prop} {i count left numRead numSent : ℕ} (hcount : 0 < count) :
    Harmless c restored i count left numRead numSent ↔
      match turn c i count left with
      | .readFails => restored numRead
      | .ended => numRead = numSent
      | .writeFails k => restored (numRead + k)
      | .nothing _ => True
      | .moved k n =>
        Harmless c restored (i + 1) (count - n) (left - k) (numRead + k) (numSent + n) := by
  constructor
  · intro h
    cases h with
    | whole => exact absurd hcount (Nat.lt_irrefl 0)
    | ended _ h => rw [h]
    | readFails _ h hrestored => rw [h]; exact hrestored
    | writeFails _ h hrestored => rw [h]; exact hrestored
    | nothing _ h => rw [h]; trivial
    | moved _ h hnext => rw [h]; exact hnext
  · cases hturn : turn c i count left with
    | readFails => exact fun h => .readFails hcount hturn h
    | ended =>
      rintro rfl
      exact .ended hcount hturn
    | writeFails k => exact fun h => .writeFails hcount hturn h
    | nothing k => exact fun _ => .nothing hcount hturn
    | moved k n => exact fun h => .moved hcount hturn h

/-- The count is decreased by what is sent. -/
theorem body_decreases (c : Calls) (s s' : Locals) (h : body c s = .next s') : s'.count < s.count := by
  by_cases hcount : 0 < s.count
  · rw [body_eq hcount] at h
    split at h
    · exact nomatch h
    · exact nomatch h
    · exact nomatch h
    · exact nomatch h
    · rename_i k n hturn
      have := turn_moved hturn
      rw [← Iter.next.inj h]
      simp only
      omega
  · rw [body, if_neg hcount] at h
    exact nomatch h

/-- Where the loop is, with a file that was at offset `p₀` before it: `numRead` bytes have been read,
and as long as all of them have been sent they are what was sent. -/
structure SentSoFar (content : List UInt8) (p₀ count₀ numRead : ℕ) (s : Locals) : Prop where
  same : s.file.content = content
  pos : s.file.pos = p₀ + numRead
  count : s.totSent + s.count = count₀
  le_read : s.totSent ≤ numRead
  le_length : numRead ≤ content.length - p₀
  out : s.totSent = numRead → s.out = (content.drop p₀).take numRead

variable {content : List UInt8} {p₀ count₀ numRead : ℕ}

theorem SentSoFar.moved {s : Locals} (h : SentSoFar content p₀ count₀ numRead s) {k n : ℕ}
    (hn : n ≤ k) (hcount : k ≤ s.count) (hleft : k ≤ content.length - s.file.pos) :
    SentSoFar content p₀ count₀ (numRead + k) {
      count := s.count - n
      totSent := s.totSent + n
      file := { s.file with pos := s.file.pos + k }
      out := s.out ++ (content.drop s.file.pos).take n
      turns := s.turns + 1 } := by
  have hpos := h.pos
  have hsum := h.count
  have hread := h.le_read
  have hlength := h.le_length
  refine ⟨h.same, ?_, ?_, ?_, ?_, ?_⟩
  · simp only
    omega
  · simp only
    omega
  · simp only
    omega
  · omega
  · intro heq
    simp only at heq ⊢
    have hnk : n = k := by omega
    have hsent : s.totSent = numRead := by omega
    rw [h.out hsent, hpos, hnk, List.take_add, List.drop_drop]

/-- How the loop ends: the bytes that have been read and sent. -/
def Ended (restored : ℕ → Prop) (content : List UInt8) (p₀ count₀ : ℕ) (harmless : Prop) :
    Left × Locals → Prop
  | (.ended, s) => ∃ numRead, SentSoFar content p₀ count₀ numRead s ∧
    (s.count = 0 ∨ numRead = content.length - p₀) ∧ (harmless ↔ numRead = s.totSent)
  | (.failed cause, s) => cause ≠ .lseek ∧ ∃ numRead, s.file.pos = p₀ + numRead ∧
    (harmless ↔ restored numRead)
  | (.exited, _) => harmless

/-- **The loop**, from any of its states. The induction is on the count that is left. -/
theorem exec_ended {restored : ℕ → Prop} : ∀ (m : ℕ) {s : Locals} {numRead : ℕ}, s.count < m →
    SentSoFar content p₀ count₀ numRead s → ∃ e, exec (body c) Locals.count s = some e ∧
      Ended restored content p₀ count₀ (Harmless c restored s.turns s.count
        (content.length - s.file.pos) numRead s.totSent) e := by
  intro m
  induction m with
  | zero => exact fun hm => absurd hm (Nat.not_lt_zero _)
  | succ m ih =>
    intro s numRead hm h
    rw [exec_eq (body_decreases c)]
    by_cases hcount : 0 < s.count
    · rw [body_eq hcount, harmless_iff hcount, h.same]
      cases hturn : turn c s.turns s.count (content.length - s.file.pos) with
      | readFails => exact ⟨_, rfl, nofun, numRead, h.pos, Iff.rfl⟩
      | ended =>
        have hleft := turn_ended hcount hturn
        refine ⟨_, rfl, numRead, h, .inr ?_, Iff.rfl⟩
        have := h.pos
        have := h.le_length
        omega
      | writeFails k =>
        refine ⟨_, rfl, nofun, numRead + k, ?_, Iff.rfl⟩
        rw [h.pos, Nat.add_assoc]
      | nothing k => exact ⟨_, rfl, trivial⟩
      | moved k n =>
        -- the rest of the block is lost, and is never sent later
        obtain ⟨hpos, hn, hk, hleft⟩ := turn_moved hturn
        obtain ⟨e, hexec, hended⟩ := ih (by simp only; omega) (h.moved hn hk hleft)
        refine ⟨e, ?_, ?_⟩
        · rw [← hexec, ← h.same]
        · dsimp only
          rw [Nat.sub_sub]
          exact hended
    · have hzero : s.count = 0 := Nat.eq_zero_of_not_pos hcount
      rw [body, if_neg hcount, hzero]
      exact ⟨_, rfl, numRead, h, .inl hzero, harmless_zero⟩

/-- As much is sent as there is, if all that was read was sent. -/
theorem SentSoFar.total {s : Locals} (h : SentSoFar content p₀ count₀ numRead s)
    (hend : s.count = 0 ∨ numRead = content.length - p₀) (heq : numRead = s.totSent) :
    s.out = (content.drop p₀).take s.totSent ∧ s.totSent = min count₀ (content.length - p₀) := by
  have hcount := h.count
  have hlength := h.le_length
  have hread := h.le_read
  refine ⟨?_, by omega⟩
  rw [h.out heq.symm, heq]

end Turns

/-! ## 4. The function -/

section Function

variable {c : Calls} {file : File} {count : ℕ}

theorem lseek_cur (file : File) : lseek file 0 .SEEK_CUR = some file := by
  rw [lseek]
  simp

theorem lseek_set (file : File) {off : ℤ} (h : 0 ≤ off) :
    lseek file off .SEEK_SET = some { file with pos := off.toNat } := by
  rw [lseek]
  exact if_neg (by omega)

theorem lseek_negative (file : File) {off : ℤ} (h : off < 0) : lseek file off .SEEK_SET = none := by
  rw [lseek]
  exact if_pos h

/-- The loop from the file offset `p₀` on, before anything is sent. -/
theorem sentSoFar_zero (content : List UInt8) (p₀ count : ℕ) :
    SentSoFar content p₀ count 0 ⟨count, 0, ⟨content, p₀⟩, [], 0⟩ :=
  ⟨rfl, rfl, Nat.zero_add _, Nat.le_refl _, Nat.zero_le _, fun _ => rfl⟩

theorem finish_none (orig : ℕ) (s : Locals) :
    finish none orig s = ⟨.returned s.totSent, none, s.file, s.out⟩ := rfl

theorem finish_some (off : ℤ) (orig : ℕ) (s : Locals) :
    finish (some off) orig s =
      ⟨.returned s.totSent, some s.file.pos, { s.file with pos := orig }, s.out⟩ := by
  rw [finish, lseek_cur, lseek_set _ (Int.natCast_nonneg orig)]
  rfl

/-- Left at its end, the function did what it should if it sent all that it read. -/
theorem sentExactly_finish {offset : Option ℤ} {numRead : ℕ} {s : Locals}
    (hoff : ∀ off, offset = some off → 0 ≤ off)
    (h : SentSoFar file.content (start file offset) count numRead s)
    (hend : s.count = 0 ∨ numRead = file.content.length - start file offset) :
    SentExactly file offset count (finish offset file.pos s) ↔ numRead = s.totSent := by
  have hpos := h.pos
  cases offset with
  | none =>
    rw [finish_none, start] at *
    constructor
    · rintro ⟨hsent, -⟩
      obtain ⟨-, -, hsame⟩ := hsent _ rfl
      simp only at hsame
      omega
    · intro heq
      refine ⟨?_, fun hfailed => by rcases hfailed with hfailed | hfailed <;> exact nomatch hfailed⟩
      intro n hn
      obtain rfl := Status.returned.inj hn
      obtain ⟨hout, htotal⟩ := h.total hend heq
      exact ⟨hout, htotal, by simp only; omega⟩
  | some off =>
    have hnonneg := hoff off rfl
    rw [finish_some, start] at *
    constructor
    · rintro ⟨hsent, -⟩
      obtain ⟨-, -, hsame, -⟩ := hsent _ rfl
      have hsame := Option.some.inj hsame
      omega
    · intro heq
      refine ⟨?_, fun hfailed => by rcases hfailed with hfailed | hfailed <;> exact nomatch hfailed⟩
      intro n hn
      obtain rfl := Status.returned.inj hn
      obtain ⟨hout, htotal⟩ := h.total hend heq
      refine ⟨hout, htotal, ?_, rfl⟩
      rw [Option.some.injEq]
      omega

/-- After a failure, it did if it is at the file offset of the call, or has no `offset`. -/
theorem sentExactly_failed {offset : Option ℤ} {cause : Cause} {s : Locals} {numRead : ℕ}
    (hoff : ∀ off, offset = some off → 0 ≤ off) (hcause : cause ≠ .lseek)
    (hpos : s.file.pos = start file offset + numRead) :
    SentExactly file offset count ⟨.failed cause, offset, s.file, s.out⟩ ↔
      ∀ off, offset = some off → off + numRead = file.pos := by
  have hfailed : Status.failed cause = .failed .read ∨ Status.failed cause = .failed .write := by
    cases cause with
    | lseek => exact absurd rfl hcause
    | read => exact .inl rfl
    | write => exact .inr rfl
  constructor
  · rintro ⟨-, hrestored⟩ off rfl
    have hsame : s.file.pos = file.pos := hrestored hfailed nofun
    have hnonneg := hoff off rfl
    rw [start] at hpos
    omega
  · intro hrestored
    refine ⟨fun n hn => (nomatch hn), fun _ hne => ?_⟩
    obtain ⟨off, rfl⟩ := Option.ne_none_iff_exists'.mp hne
    have hsame := hrestored off rfl
    have hnonneg := hoff off rfl
    rw [start] at hpos
    simp only
    omega

theorem sendFrom_spec (c : Calls) (file : File) (offset : Option ℤ) (count : ℕ)
    (hoff : ∀ off, offset = some off → 0 ≤ off) :
    ∃ r, sendFrom c { file with pos := start file offset } offset file.pos count = some r ∧
      (SentExactly file offset count r ↔ Harmlessly c file offset count) := by
  obtain ⟨⟨left, s⟩, hexec, hended⟩ := @exec_ended c file.content (start file offset) count
    (fun numRead => ∀ off, offset = some off → off + numRead = file.pos) _ _ _
    (Nat.lt_succ_self _) (sentSoFar_zero file.content (start file offset) count)
  rw [sendFrom, hexec]
  refine ⟨_, rfl, ?_⟩
  cases left with
  | ended =>
    obtain ⟨numRead, hsofar, hend, hharmless⟩ := hended
    exact (sentExactly_finish hoff hsofar hend).trans hharmless.symm
  | failed cause =>
    obtain ⟨hcause, numRead, hpos, hharmless⟩ := hended
    exact (sentExactly_failed hoff hcause hpos).trans hharmless.symm
  | exited =>
    refine iff_of_true ⟨fun n hn => (nomatch hn), fun hfailed => ?_⟩ hended
    rcases hfailed with hfailed | hfailed <;> exact nomatch hfailed

end Function

/-- **The function does what it should exactly when its calls do no harm**: it comes back, whatever
they return, and where they go on to the end no `write()` was short; where one of them failed, there
is no `offset`, or what was read until then happens to lead back to the file offset of the call. -/
theorem sendfile_exact_iff (c : Calls) (file : File) (offset : Option ℤ) (count : ℕ) :
    ∃ r, sendfile c file offset count = some r ∧ (SentExactly file offset count r ↔
      (∃ off < 0, offset = some off) ∨ Harmlessly c file offset count) := by
  cases offset with
  | none =>
    obtain ⟨r, hr, hiff⟩ := sendFrom_spec c file none count nofun
    exact ⟨r, hr, hiff.trans (or_iff_right fun ⟨_, _, h⟩ => nomatch h).symm⟩
  | some off =>
    rw [sendfile, lseek_cur]
    by_cases hoff : off < 0
    · rw [lseek_negative file hoff]
      refine ⟨_, rfl, iff_of_true ⟨fun n hn => (nomatch hn), fun hfailed => ?_⟩ (.inl ⟨off, hoff, rfl⟩)⟩
      rcases hfailed with hfailed | hfailed <;> exact nomatch hfailed
    · rw [lseek_set file (Int.not_lt.mp hoff)]
      obtain ⟨r, hr, hiff⟩ := sendFrom_spec c file (some off) count
        fun off' h => Option.some.inj h ▸ Int.not_lt.mp hoff
      refine ⟨r, hr, hiff.trans (or_iff_right ?_).symm⟩
      rintro ⟨off', hneg, h⟩
      exact hoff (Option.some.inj h ▸ hneg)

/-- Every `write()` transfers one byte, and no call fails. -/
def oneByte : Calls := ⟨fun _ => .moves BUF_SIZE, fun _ => .moves 1⟩

/-- The first `read()` fails. -/
def badRead : Calls := ⟨fun _ => .fails (.other 5), fun _ => .moves BUF_SIZE⟩

/-- Of three bytes the first is sent, and the other two are read and lost; and a failed `read()`
leaves the file offset at `*offset`. -/
theorem sendfile_loses :
    (∃ r, sendfile oneByte ⟨[1, 2, 3], 0⟩ none 3 = some r ∧ ¬SentExactly ⟨[1, 2, 3], 0⟩ none 3 r) ∧
      ∃ r, sendfile badRead ⟨[1, 2, 3], 0⟩ (some 2) 1 = some r ∧
        ¬SentExactly ⟨[1, 2, 3], 0⟩ (some 2) 1 r := by
  refine ⟨⟨⟨.returned 1, none, ⟨[1, 2, 3], 3⟩, [1]⟩, by decide, ?_⟩,
    ⟨⟨.failed .read, some 2, ⟨[1, 2, 3], 2⟩, []⟩, by decide, ?_⟩⟩
  · rintro ⟨hsent, -⟩
    exact absurd (hsent 1 rfl).2.1 (by decide)
  · rintro ⟨-, hrestored⟩
    exact absurd (hrestored (.inl rfl) nofun) (by decide)

end Tlpi.Sendfile
