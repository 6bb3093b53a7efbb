/-
`sockets/read_line.c` and `sockets/yread_line.c`: the two unbuffered line readers,
and the mark-level reader they both refine.

## The shape of the argument

`readLine` and `yreadLine` fetch one byte per `read()`, so each turn of their loop
consumes exactly one mark of the descriptor. `lineSpec` is the same reader as a
recursion over the marks themselves, with no descriptor, no loop and no fuel; it is
the vocabulary every statement about a line reader in this development is made in.
`readLine_sim` and `yreadLine_sim` say that the two C functions *are* `lineSpec`,
call by call, for every chunking. `Ybio.lean` proves the same of the buffered reader,
and that is the whole of the agreement between the three: none of them is ever
compared with another directly.

## Lines

`splitLines` cuts a byte string after each newline. `lineSpec_line` is what one call
does on a stream with no error mark: it consumes the next line, whatever interrupts
it, and stores as much of it as fits.
-/
import Mathlib.Data.List.TakeWhile
import Tlpi.Descriptor
import Tlpi.Loop

set_option autoImplicit false

namespace Tlpi.ReadLine

open Tlpi.Descriptor Tlpi.Loop

/-- `'\n'` -/
abbrev newline : UInt8 := 10

/-- `'\0'` -/
abbrev nul : UInt8 := 0

/-! ## The two C functions

They differ in one test, whether there is room for one more byte and the terminator:
`totRead < n - 1` in one file, `readTally + 1 < n` in the other. -/

/-- The locals of the reading loop: the descriptor, the number of bytes placed so far,
the write pointer (as an offset into the caller's buffer) and the buffer. -/
structure LineLocals where
  fd : Fd
  tot : ℕ
  buf : ℕ
  mem : Mem

/-- `*buf++ = ch`, counted. -/
def LineLocals.put (s : LineLocals) (ch : UInt8) : LineLocals :=
  { s with tot := s.tot + 1, buf := s.buf + 1, mem := store s.mem s.buf ch }

/-- The common exit: `*buf = '\0'; return totRead`. -/
def LineLocals.finish (s : LineLocals) : Ret × Fd :=
  ({ ret := .ok s.tot, buffer := some (store s.mem s.buf nul) }, s.fd)

/-- One turn of the loop, for a given test of the remaining room. -/
def lineBody (room : ℕ → Bool) (s : LineLocals) : Iter LineLocals (Ret × Fd) :=
  match s.fd.read 1 with
  | none => .blocked
  | some (.fail e, fd) =>
    if e = .EINTR then .next { s with fd := fd }
    else .done ({ ret := .error e, buffer := some s.mem }, fd)
  | some (.eof, fd) =>
    if s.tot = 0 then .done ({ ret := .ok 0, buffer := some s.mem }, fd)
    else .done { s with fd := fd }.finish
  | some (.data bs, fd) =>
    let ch := bs.headD nul
    let s' := if room s.tot then { s with fd := fd }.put ch else { s with fd := fd }
    if ch = newline then .done s'.finish else .next s'

/-- A line reader made of that loop, after the `EINVAL` check both files start with. -/
def lineReader (room : ℕ → ℕ → Bool) (fd : Fd) (c : Call) : Option (Ret × Fd) :=
  match c.buffer with
  | none => some ({ ret := .error .EINVAL, buffer := none }, fd)
  | some mem =>
    if c.n = 0 then some ({ ret := .error .EINVAL, buffer := some mem }, fd)
    else exec (lineBody (room c.n)) (fun s => s.fd.marks.length)
      { fd := fd, tot := 0, buf := 0, mem := mem }

/-- `readLine(fd, buffer, n)` of `read_line.c`. -/
def readLine : Fd → Call → Option (Ret × Fd) :=
  lineReader fun n totRead => decide (totRead < n - 1)

/-- `yreadLine(fd, buffer, n)` of `yread_line.c`. -/
def yreadLine : Fd → Call → Option (Ret × Fd) :=
  lineReader fun n readTally => decide (readTally + 1 < n)

/-! ## The reader over marks -/

/-- The reader as a recursion over the marks, `tot` bytes already placed in `mem`. -/
def getLine (n : ℕ) : List Mark → ℕ → Mem → Option (Ret × List Mark)
  | [], _, _ => none
  | .fail e :: ms, tot, mem =>
    if e = .EINTR then getLine n ms tot mem
    else some ({ ret := .error e, buffer := some mem }, ms)
  | .eof :: ms, tot, mem =>
    if tot = 0 then some ({ ret := .ok 0, buffer := some mem }, ms)
    else some ({ ret := .ok tot, buffer := some (store mem tot nul) }, ms)
  | .byte b :: ms, tot, mem =>
    let tot' := if tot + 1 < n then tot + 1 else tot
    let mem' := if tot + 1 < n then store mem tot b else mem
    if b = newline then some ({ ret := .ok tot', buffer := some (store mem' tot' nul) }, ms)
    else getLine n ms tot' mem'

/-- One call of the mark-level reader. -/
def lineSpec (ms : List Mark) (c : Call) : Option (Ret × List Mark) :=
  match c.buffer with
  | none => some ({ ret := .error .EINVAL, buffer := none }, ms)
  | some mem =>
    if c.n = 0 then some ({ ret := .error .EINVAL, buffer := some mem }, ms)
    else getLine c.n ms 0 mem

/-! ## The C functions refine it -/

theorem lineBody_decreases (room : ℕ → Bool) (s s' : LineLocals)
    (h : lineBody room s = .next s') : s'.fd.marks.length < s.fd.marks.length := by
  unfold lineBody at h
  cases hr : s.fd.read 1 with
  | none => simp only [hr, reduceCtorEq] at h
  | some p =>
    obtain ⟨r, fd⟩ := p
    have hlt := read_marks_lt Nat.one_pos hr
    cases r with
    | fail e =>
      simp only [hr] at h
      split at h
      · rw [Iter.next.injEq] at h
        rw [← h]; exact hlt
      · exact nomatch h
    | eof =>
      simp only [hr] at h
      split at h <;> exact nomatch h
    | data bs =>
      simp only [hr] at h
      split at h
      · exact nomatch h
      · rw [Iter.next.injEq] at h
        rw [← h]
        split <;> exact hlt

/-- The relation between an outcome of the C loop and one of the mark-level reader: both
block, or both return the same and leave the same marks. -/
def Agree {σ : Type} (marksOf : σ → List Mark → Prop) (x : Option (Ret × σ))
    (y : Option (Ret × List Mark)) : Prop :=
  (x = none ∧ y = none) ∨ ∃ r s ms, x = some (r, s) ∧ y = some (r, ms) ∧ marksOf s ms

/-- The loop from any of its states is `getLine` from the same count and buffer. The
induction is on the marks, one per turn; the write pointer is the count throughout. -/
theorem exec_lineBody {n : ℕ} {room : ℕ → Bool} (hroom : ∀ t, room t = decide (t + 1 < n)) :
    ∀ (ms : List Mark) (s : LineLocals), s.fd.marks = ms → s.buf = s.tot →
      Agree (fun fd ms => fd.marks = ms)
        (exec (lineBody room) (fun s => s.fd.marks.length) s) (getLine n ms s.tot s.mem) := by
  intro ms
  induction ms with
  | nil =>
    intro s hm _
    rw [exec_eq (lineBody_decreases room)]
    simp only [lineBody, read_nil 1 hm, getLine]
    exact Or.inl ⟨rfl, rfl⟩
  | cons m ms ih =>
    intro s hm hbuf
    rw [exec_eq (lineBody_decreases room)]
    cases m with
    | fail e =>
      simp only [lineBody, read_fail 1 hm, getLine]
      by_cases he : e = .EINTR
      · simp only [if_pos he]
        exact ih { s with fd := { s.fd with marks := ms } } rfl hbuf
      · simp only [if_neg he]
        exact Or.inr ⟨_, _, _, rfl, rfl, rfl⟩
    | eof =>
      simp only [lineBody, read_eof 1 hm, getLine]
      by_cases ht : s.tot = 0
      · simp only [if_pos ht]
        exact Or.inr ⟨_, _, _, rfl, rfl, rfl⟩
      · simp only [if_neg ht, LineLocals.finish, hbuf]
        exact Or.inr ⟨_, _, _, rfl, rfl, rfl⟩
    | byte b =>
      obtain ⟨fd, hr, hfd⟩ := read_one hm
      simp only [lineBody, hr, getLine, List.headD_cons, hroom]
      by_cases hfit : s.tot + 1 < n
      · -- there is room for the byte, and for the terminating null after it
        simp only [hfit, decide_true, if_true]
        by_cases hnl : b = newline
        · simp only [if_pos hnl, LineLocals.finish, LineLocals.put, hbuf]
          exact Or.inr ⟨_, _, _, rfl, rfl, hfd⟩
        · simp only [if_neg hnl]
          have := ih ({ s with fd := fd }.put b) hfd (by simp only [LineLocals.put, hbuf])
          simpa only [LineLocals.put, hbuf] using this
      · -- no room: the byte is dropped, and the line is still read to its end
        simp only [hfit, decide_false, Bool.false_eq_true, if_false]
        by_cases hnl : b = newline
        · simp only [if_pos hnl, LineLocals.finish, hbuf]
          exact Or.inr ⟨_, _, _, rfl, rfl, hfd⟩
        · simp only [if_neg hnl]
          exact ih { s with fd := fd } hfd hbuf

/-- A line reader whose room test is `tot + 1 < n` is the mark-level reader. -/
theorem lineReader_sim {room : ℕ → ℕ → Bool}
    (hroom : ∀ n, n ≠ 0 → ∀ t, room n t = decide (t + 1 < n)) :
    Simulates (fun (fd : Fd) ms => fd.marks = ms) (lineReader room) lineSpec := by
  intro fd ms c hR
  cases hb : c.buffer with
  | none =>
    simp only [lineReader, lineSpec, hb]
    exact Or.inr ⟨_, fd, ms, rfl, rfl, hR⟩
  | some mem =>
    by_cases hn : c.n = 0
    · simp only [lineReader, lineSpec, hb, if_pos hn]
      exact Or.inr ⟨_, fd, ms, rfl, rfl, hR⟩
    · simp only [lineReader, lineSpec, hb, if_neg hn]
      exact exec_lineBody (hroom c.n hn) ms { fd := fd, tot := 0, buf := 0, mem := mem } hR rfl

/-- `readLine` is the mark-level reader: for `n ≥ 1` its test `totRead < n - 1` is
`totRead + 1 < n`. -/
theorem readLine_sim : Simulates (fun (fd : Fd) ms => fd.marks = ms) readLine lineSpec := by
  refine lineReader_sim fun n hn t => ?_
  rw [decide_eq_decide]
  omega

/-- `yreadLine` is the mark-level reader. -/
theorem yreadLine_sim : Simulates (fun (fd : Fd) ms => fd.marks = ms) yreadLine lineSpec :=
  lineReader_sim fun _ _ _ => rfl

/-! ## Lines

A *quiet* stretch of a descriptor is one with bytes and interruptions only. The
bytes of a quiet stretch fall into lines, and one call of a reader consumes one of
them: up to and including its newline, or, before the end of file, the unterminated
tail. -/

/-- The next line of a byte string, newline included, and what follows it. -/
def firstLine : List UInt8 → List UInt8 × List UInt8
  | [] => ([], [])
  | b :: bs => if b = newline then ([b], bs) else (b :: (firstLine bs).1, (firstLine bs).2)

theorem firstLine_append (bs : List UInt8) : (firstLine bs).1 ++ (firstLine bs).2 = bs := by
  induction bs with
  | nil => rfl
  | cons b bs ih =>
    rw [firstLine]
    split
    · rfl
    · rw [List.cons_append, ih]

theorem firstLine_fst_ne_nil (b : UInt8) (bs : List UInt8) : (firstLine (b :: bs)).1 ≠ [] := by
  rw [firstLine]
  split <;> exact List.cons_ne_nil _ _

theorem firstLine_snd_length (b : UInt8) (bs : List UInt8) :
    (firstLine (b :: bs)).2.length < (b :: bs).length := by
  have happ := congrArg List.length (firstLine_append (b :: bs))
  have hpos := List.length_pos_iff.mpr (firstLine_fst_ne_nil b bs)
  rw [List.length_append] at happ
  omega

/-- The lines of a byte string, each with its newline; the last may lack one. -/
def splitLines : List UInt8 → List (List UInt8)
  | [] => []
  | b :: bs => (firstLine (b :: bs)).1 :: splitLines (firstLine (b :: bs)).2
termination_by bs => bs.length
decreasing_by exact firstLine_snd_length b bs

theorem splitLines_cons (b : UInt8) (bs : List UInt8) :
    splitLines (b :: bs) = (firstLine (b :: bs)).1 :: splitLines (firstLine (b :: bs)).2 := by
  rw [splitLines]

theorem flatten_splitLines (bs : List UInt8) : (splitLines bs).flatten = bs := by
  induction hk : bs.length using Nat.strong_induction_on generalizing bs with
  | _ k ih =>
    cases bs with
    | nil => rw [splitLines]; rfl
    | cons b bs =>
      rw [splitLines_cons, List.flatten_cons,
        ih _ (hk ▸ firstLine_snd_length b bs) _ rfl, firstLine_append]

/-- The bytes among the marks. -/
def bytesOf : List Mark → List UInt8
  | [] => []
  | .byte b :: ms => b :: bytesOf ms
  | _ :: ms => bytesOf ms

/-- Only bytes and interruptions. -/
def Quiet (ms : List Mark) : Prop := ∀ m ∈ ms, (∃ b, m = .byte b) ∨ m = .fail .EINTR

theorem Quiet.tail {m : Mark} {ms : List Mark} (h : Quiet (m :: ms)) : Quiet ms :=
  fun m' hm' => h m' (List.mem_cons_of_mem _ hm')

/-- What a call leaves after it took a line `l`: as many bytes of it as fit with the
terminator, then the terminator. -/
def placed (mem : Mem) (n : ℕ) (l : List UInt8) : Ret :=
  { ret := .ok (min (n - 1) l.length)
    buffer := some (store (storeAll mem 0 (l.take (n - 1))) (min (n - 1) l.length) nul) }

theorem storeAll_nil (mem : Mem) (i : ℕ) : storeAll mem i [] = mem := by
  funext j
  rw [storeAll, if_neg (by rw [List.length_nil]; omega)]

theorem storeAll_cons (mem : Mem) (i : ℕ) (b : UInt8) (bs : List UInt8) :
    storeAll (store mem i b) (i + 1) bs = storeAll mem i (b :: bs) := by
  funext j
  simp only [storeAll, List.length_cons]
  rcases Nat.lt_trichotomy j i with hlt | heq | hgt
  · rw [if_neg (by omega), if_neg (by omega), store_ne _ _ (by omega)]
  · rw [if_neg (by omega), if_pos (by omega), heq, store_same, Nat.sub_self, List.getD_cons_zero]
  · by_cases hin : j < i + 1 + bs.length
    · obtain ⟨k, hk⟩ : ∃ k, j - i = k + 1 := ⟨j - i - 1, by omega⟩
      rw [if_pos (by omega), if_pos (by omega), hk, List.getD_cons_succ,
        show j - (i + 1) = k by omega]
    · rw [if_neg (by omega), if_neg (by omega), store_ne _ _ (by omega)]

/-- The line the next call meets, newline included, and the marks after it; `none` when a
failure other than an interruption comes first, or when it is never completed. -/
def nextLine : List Mark → Option (List UInt8 × List Mark)
  | [] => none
  | .fail e :: ms => if e = .EINTR then nextLine ms else none
  | .eof :: ms => some ([], ms)
  | .byte b :: ms =>
    if b = newline then some ([b], ms) else (nextLine ms).map fun p => (b :: p.1, p.2)

/-- The rest of a line, from a point where `tot` bytes of it are already in place. The
side condition rules out the one case in which nothing is stored at all: an end of
file with no byte before it. -/
theorem getLine_nextLine {n : ℕ} :
    ∀ (ms : List Mark) (tot : ℕ) (mem : Mem) (l : List UInt8) (rest : List Mark),
      nextLine ms = some (l, rest) → tot ≤ n - 1 → (tot ≠ 0 ∨ (l ≠ [] ∧ 2 ≤ n)) →
      getLine n ms tot mem
        = some ({ ret := .ok (tot + min (n - 1 - tot) l.length)
                  buffer := some (store (storeAll mem tot (l.take (n - 1 - tot)))
                    (tot + min (n - 1 - tot) l.length) nul) }, rest) := by
  intro ms
  induction ms with
  | nil => intro tot mem l rest h; exact nomatch h
  | cons m ms ih =>
    intro tot mem l rest h htot hne
    cases m with
    | fail e =>
      by_cases he : e = .EINTR
      · -- an interrupted `read()` is made again
        simp only [nextLine, if_pos he] at h
        simp only [getLine, if_pos he]
        exact ih tot mem l rest h htot hne
      · simp only [nextLine, if_neg he, reduceCtorEq] at h
    | eof =>
      simp only [nextLine, Option.some.injEq, Prod.mk.injEq] at h
      obtain ⟨rfl, rfl⟩ := h
      -- an end of file ends a line only after some byte of it
      have h0 : tot ≠ 0 := hne.resolve_right fun h => h.1 rfl
      simp only [getLine, if_neg h0, List.length_nil, Nat.min_zero, Nat.add_zero, List.take_nil,
        storeAll_nil]
    | byte b =>
      by_cases hnl : b = newline
      · -- the newline ends the line, and is stored itself if there is room
        simp only [nextLine, if_pos hnl, Option.some.injEq, Prod.mk.injEq] at h
        obtain ⟨rfl, rfl⟩ := h
        simp only [getLine, if_pos hnl, List.length_cons, List.length_nil, Nat.zero_add]
        by_cases hfit : tot + 1 < n
        · have hk : n - 1 - tot = n - 1 - (tot + 1) + 1 := by omega
          rw [if_pos hfit, if_pos hfit, hk, List.take_succ_cons, ← storeAll_cons, List.take_nil,
            storeAll_nil, Nat.min_eq_right (by omega)]
        · rw [if_neg hfit, if_neg hfit, show n - 1 - tot = 0 by omega, List.take_zero,
            storeAll_nil, Nat.zero_min, Nat.add_zero]
      · simp only [nextLine, if_neg hnl, Option.map_eq_some_iff, Prod.mk.injEq] at h
        obtain ⟨⟨l', rest'⟩, hrec, rfl, rfl⟩ := h
        simp only [getLine, if_neg hnl, List.length_cons]
        by_cases hfit : tot + 1 < n
        · have hk : n - 1 - tot = n - 1 - (tot + 1) + 1 := by omega
          have hmin : tot + min (n - 1 - tot) (l'.length + 1)
              = tot + 1 + min (n - 1 - (tot + 1)) l'.length := by omega
          rw [if_pos hfit, if_pos hfit, hmin, hk, List.take_succ_cons, ← storeAll_cons]
          exact ih (tot + 1) (store mem tot b) l' rest' hrec (by omega)
            (Or.inl (Nat.succ_ne_zero _))
        · -- the buffer is full: the byte is read and dropped
          have hrest := ih tot mem l' rest' hrec htot (Or.inl (by omega))
          rw [if_neg hfit, if_neg hfit, hrest, show n - 1 - tot = 0 by omega, Nat.zero_min,
            Nat.zero_min, List.take_zero, List.take_zero]

/-- One call places a line of at least one byte. -/
theorem lineSpec_nextLine {ms rest : List Mark} {l : List UInt8} (h : nextLine ms = some (l, rest))
    (hl : l ≠ []) {c : Call} {mem : Mem} (hbuf : c.buffer = some mem) (hn : 2 ≤ c.n) :
    lineSpec ms c = some (placed mem c.n l, rest) := by
  rw [lineSpec]
  simp only [hbuf]
  rw [if_neg (by omega), getLine_nextLine ms 0 mem l rest h (Nat.zero_le _) (Or.inr ⟨hl, hn⟩),
    placed]
  simp only [Nat.zero_add, Nat.sub_zero]

/-- Without a line of at least one byte, the call never returns, or returns nothing to
use: 0 or an error. -/
theorem lineSpec_no_line {ms : List Mark} (h : ∀ l rest, nextLine ms = some (l, rest) → l = [])
    {c : Call} {mem : Mem} (hbuf : c.buffer = some mem) :
    lineSpec ms c = none ∨ ∃ r rest, lineSpec ms c = some (r, rest) ∧ ∀ k, r.ret ≠ .ok (k + 1) := by
  -- a byte that is not the last of a line is only ever followed by a failure
  have hget : ∀ (ms : List Mark) (n tot : ℕ) (mem : Mem),
      (nextLine ms = none ∨ (tot = 0 ∧ ∀ l rest, nextLine ms = some (l, rest) → l = [])) →
      getLine n ms tot mem = none ∨
        ∃ r rest, getLine n ms tot mem = some (r, rest) ∧ ∀ k, r.ret ≠ .ok (k + 1) := by
    intro ms
    induction ms with
    | nil => intro n tot mem _; exact Or.inl rfl
    | cons m ms ih =>
      intro n tot mem hno
      cases m with
      | fail e =>
        by_cases he : e = .EINTR
        · simp only [nextLine, if_pos he] at hno
          simp only [getLine, if_pos he]
          exact ih n tot mem hno
        · simp only [getLine, if_neg he]
          exact Or.inr ⟨_, _, rfl, fun k => nofun⟩
      | eof =>
        have htot : tot = 0 := by
          rcases hno with hno | hno
          · exact nomatch hno
          · exact hno.1
        simp only [getLine, if_pos htot]
        refine Or.inr ⟨_, _, rfl, fun k hk => ?_⟩
        exact absurd (Except.ok.inj hk) (Nat.succ_ne_zero k).symm
      | byte b =>
        by_cases hnl : b = newline
        · simp only [nextLine, if_pos hnl, reduceCtorEq, false_or] at hno
          exact absurd (hno.2 [b] ms rfl) (List.cons_ne_nil _ _)
        · have hnone : nextLine ms = none := by
            simp only [nextLine, if_neg hnl, Option.map_eq_none_iff] at hno
            rcases hno with hno | hno
            · exact hno
            · by_contra hsome
              obtain ⟨p, hp⟩ := Option.ne_none_iff_exists'.mp hsome
              exact absurd (hno.2 (b :: p.1) p.2 (by rw [hp, Option.map_some]))
                (List.cons_ne_nil _ _)
          simp only [getLine, if_neg hnl]
          exact ih n _ _ (Or.inl hnone)
  rw [lineSpec]
  simp only [hbuf]
  by_cases hn : c.n = 0
  · rw [if_pos hn]
    exact Or.inr ⟨_, _, rfl, fun k => nofun⟩
  · rw [if_neg hn]
    exact hget ms c.n 0 mem (Or.inr ⟨rfl, h⟩)

/-- The line a quiet stretch starts with. -/
theorem nextLine_quiet : ∀ body : List Mark, Quiet body →
    ∃ rest, nextLine (body ++ [.eof]) = some ((firstLine (bytesOf body)).1, rest)
      ∧ ((∃ body', rest = body' ++ [.eof] ∧ Quiet body' ∧
            bytesOf body' = (firstLine (bytesOf body)).2)
          ∨ (rest = [] ∧ (firstLine (bytesOf body)).2 = [])) := by
  intro body
  induction body with
  | nil => intro _; exact ⟨[], rfl, Or.inr ⟨rfl, rfl⟩⟩
  | cons m body ih =>
    intro hq
    obtain ⟨rest, hrest, hcase⟩ := ih hq.tail
    rcases hq m List.mem_cons_self with ⟨b, rfl⟩ | rfl
    · by_cases hnl : b = newline
      · simp only [List.cons_append, nextLine, bytesOf, firstLine, if_pos hnl]
        exact ⟨body ++ [.eof], rfl, Or.inl ⟨body, rfl, hq.tail, rfl⟩⟩
      · simp only [List.cons_append, nextLine, bytesOf, firstLine, if_neg hnl, hrest,
          Option.map_some]
        exact ⟨rest, rfl, hcase⟩
    · simp only [List.cons_append, nextLine, if_true, bytesOf]
      exact ⟨rest, hrest, hcase⟩

/-- **One call takes one line.** On a quiet stretch that ends in one end of file, a call
with `n ≥ 2` takes the next line and leaves the lines after it. -/
theorem lineSpec_line {body : List Mark} (hq : Quiet body) {c : Call} {mem : Mem}
    (hbuf : c.buffer = some mem) (hn : 2 ≤ c.n) {l : List UInt8} {ls : List (List UInt8)}
    (hl : splitLines (bytesOf body) = l :: ls) :
    ∃ rest, lineSpec (body ++ [.eof]) c = some (placed mem c.n l, rest) ∧
      ((∃ body', rest = body' ++ [.eof] ∧ Quiet body' ∧ splitLines (bytesOf body') = ls)
        ∨ (rest = [] ∧ ls = [])) := by
  obtain ⟨b, bs, hbs⟩ : ∃ b bs, bytesOf body = b :: bs := by
    cases hb : bytesOf body with
    | nil => rw [hb, splitLines] at hl; exact nomatch hl
    | cons b bs => exact ⟨b, bs, rfl⟩
  have hl' := hl
  rw [hbs, splitLines_cons, ← hbs, List.cons.injEq] at hl'
  obtain ⟨rest, hrest, hcase⟩ := nextLine_quiet body hq
  rw [hl'.1] at hrest
  have hne : l ≠ [] := hl'.1 ▸ hbs ▸ firstLine_fst_ne_nil b bs
  refine ⟨rest, lineSpec_nextLine hrest hne hbuf hn, ?_⟩
  rcases hcase with ⟨body', rfl, hq', hb'⟩ | ⟨rfl, hnil⟩
  · exact Or.inl ⟨body', rfl, hq', by rw [hb', hl'.2]⟩
  · exact Or.inr ⟨rfl, by rw [← hl'.2, hnil, splitLines]⟩

/-- The end of file is no byte. -/
theorem bytesOf_append_eof (body : List Mark) : bytesOf (body ++ [.eof]) = bytesOf body := by
  induction body with
  | nil => rfl
  | cons m ms ih => cases m <;> simp only [List.cons_append, bytesOf, ih]

/-- The bytes a reader has still to deliver after some calls, by lines: `k` calls have
taken `k` lines. -/
theorem lineSpec_lines : ∀ (calls : List Call) (body : List Mark), Quiet body →
    (∀ c ∈ calls, c.buffer.isSome ∧ 2 ≤ c.n) →
    calls.length ≤ (splitLines (bytesOf body)).length →
    ∃ rest, stateAfter lineSpec (body ++ [.eof]) calls = some rest ∧
      bytesOf rest = ((splitLines (bytesOf body)).drop calls.length).flatten ∧
      callSeq lineSpec (body ++ [.eof]) calls
        = List.zipWith (fun c l => some (placed (c.buffer.getD fun _ => 0) c.n l)) calls
            (splitLines (bytesOf body)) := by
  intro calls
  induction calls with
  | nil =>
    intro body _ _ _
    refine ⟨body ++ [.eof], rfl, ?_, rfl⟩
    rw [List.length_nil, List.drop_zero, flatten_splitLines, bytesOf_append_eof]
  | cons c calls ih =>
    intro body hq hcalls hlen
    obtain ⟨hsome, hn⟩ := hcalls c List.mem_cons_self
    obtain ⟨mem, hmem⟩ := Option.isSome_iff_exists.mp hsome
    cases hl : splitLines (bytesOf body) with
    | nil => rw [hl, List.length_nil, List.length_cons] at hlen; omega
    | cons l ls =>
      obtain ⟨rest, hrest, hcase⟩ := lineSpec_line hq hmem hn hl
      have hcalls' : ∀ c' ∈ calls, c'.buffer.isSome ∧ 2 ≤ c'.n :=
        fun c' hc' => hcalls c' (List.mem_cons_of_mem _ hc')
      rw [hl, List.length_cons, List.length_cons] at hlen
      simp only [stateAfter, callSeq, hrest, List.length_cons, List.drop_succ_cons,
        List.zipWith_cons_cons, hmem, Option.getD_some]
      rcases hcase with ⟨body', rfl, hq', hls⟩ | ⟨rfl, rfl⟩
      · obtain ⟨rest', h₁, h₂, h₃⟩ := ih body' hq' hcalls' (by rw [hls]; omega)
        exact ⟨rest', h₁, by rw [h₂, hls], by rw [h₃, hls]⟩
      · -- the unterminated tail was the last line, so no call is left
        obtain rfl : calls = [] := List.eq_nil_of_length_eq_zero (by
          rw [List.length_nil] at hlen; omega)
        exact ⟨[], rfl, rfl, rfl⟩

end Tlpi.ReadLine
