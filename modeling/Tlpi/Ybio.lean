/-
`sockets/ybio.c`: the buffered line reader, and its agreement with the two unbuffered
ones of `ReadLine.lean`.

## The state carried between calls

`ybio_t` keeps the bytes a refill brought in that no call has taken yet:
`bio_buf[bio_ptr .. bio_ptr + bio_cnt)`. `ybio_t.pending` puts those in front of what
the descriptor has still to deliver. That one list is the abstraction: a refill moves
bytes from one half of it to the other and does not change it, so the chunking, the
place of a refill inside a line and the `-1` or `0` that a failed or empty refill
leaves in `bio_cnt` all disappear at this level.

`ybio_read_one` is the whole of the buffer's specification, and the only place where
the refill loop is looked at: one byte of `ybio_read` is the first mark of `pending`
that is not an interruption. `ybio_readl_sim` then follows the line loop exactly as
`ReadLine.lean` follows the unbuffered one.
-/
import Mathlib.Tactic.NormNum
import Mathlib.Tactic.Common
import Tlpi.ReadLine

set_option autoImplicit false

namespace Tlpi.Ybio

open Tlpi.Descriptor Tlpi.Loop Tlpi.ReadLine

/-! ## The source -/

/-- `YBIO_SIZE` -/
abbrev YBIO_SIZE : ℕ := 8192

/-- `ybio_t`, with `bio_ptr` as an offset into `bio_buf`. -/
structure ybio_t where
  bio_fd : Fd
  bio_ptr : ℕ
  bio_buf : Mem
  bio_cnt : ℤ

/-- `ybio_init(fd, p)`: whatever `p` held before, `bio_buf` included, is left there. -/
def ybio_init (fd : Fd) (p : ybio_t) : ybio_t :=
  { p with bio_fd := fd, bio_ptr := 0, bio_cnt := 0 }

/-- A successful `read()` into `bio_buf`, and the reset of the starting point. -/
def ybio_t.refill (p : ybio_t) (fd : Fd) (bs : List UInt8) : ybio_t :=
  { bio_fd := fd, bio_ptr := 0, bio_buf := storeAll p.bio_buf 0 bs, bio_cnt := bs.length }

/-- One turn of `while (p->bio_cnt <= 0)`, and the copy after the loop. The result is
the bytes copied out (none for an end of file), or the `errno` of a failed refill. -/
def ybio_readBody (n : ℕ) (p : ybio_t) : Iter ybio_t (Except Errno (List UInt8) × ybio_t) :=
  if p.bio_cnt ≤ 0 then
    match p.bio_fd.read YBIO_SIZE with
    | none => .blocked
    | some (.fail e, fd) =>
      -- `read()` returned -1, and -1 is what stays in `bio_cnt`
      if e ≠ .EINTR then .done (.error e, { p with bio_fd := fd, bio_cnt := -1 })
      else .next { p with bio_fd := fd, bio_cnt := -1 }
    | some (.eof, fd) => .done (.ok [], { p with bio_fd := fd, bio_cnt := 0 })
    | some (.data bs, fd) => .next (p.refill fd bs)
  else
    let cnt : ℕ := if p.bio_cnt < n then p.bio_cnt.toNat else n
    .done (.ok (slice p.bio_buf p.bio_ptr cnt),
      { p with bio_cnt := p.bio_cnt - cnt, bio_ptr := p.bio_ptr + cnt })

/-- `ybio_read(p, buf, n)` -/
def ybio_read (p : ybio_t) (n : ℕ) : Option (Except Errno (List UInt8) × ybio_t) :=
  exec (ybio_readBody n) (fun p => p.bio_fd.marks.length) p

/-- What `ybio_readl` has still to deliver: the buffered bytes, then the descriptor. -/
def ybio_t.pending (p : ybio_t) : List Mark :=
  (slice p.bio_buf p.bio_ptr p.bio_cnt.toNat).map .byte ++ p.bio_fd.marks

/-- The locals of `ybio_readl`. -/
structure YbioLocals where
  p : ybio_t
  numRead : ℕ
  buf : ℕ
  mem : Mem

def YbioLocals.finish (s : YbioLocals) : Ret × ybio_t :=
  ({ ret := .ok s.numRead, buffer := some (store s.mem s.buf nul) }, s.p)

def ybio_readlBody (n : ℕ) (s : YbioLocals) : Iter YbioLocals (Ret × ybio_t) :=
  match ybio_read s.p 1 with
  | none => .blocked
  | some (.error e, p) => .done ({ ret := .error e, buffer := some s.mem }, p)
  | some (.ok [], p) =>
    if s.numRead = 0 then .done ({ ret := .ok 0, buffer := some s.mem }, p)
    else .done { s with p := p }.finish
  | some (.ok (ch :: _), p) =>
    let s' : YbioLocals :=
      if s.numRead + 1 < n then
        { p := p, numRead := s.numRead + 1, buf := s.buf + 1, mem := store s.mem s.buf ch }
      else { s with p := p }
    if ch = newline then .done s'.finish else .next s'

/-- `ybio_readl(p, buffer, n)` -/
def ybio_readl (p : ybio_t) (c : Call) : Option (Ret × ybio_t) :=
  match c.buffer with
  | none => some ({ ret := .error .EINVAL, buffer := none }, p)
  | some mem =>
    if c.n = 0 then some ({ ret := .error .EINVAL, buffer := some mem }, p)
    else exec (ybio_readlBody c.n) (fun s => s.p.pending.length)
      { p := p, numRead := 0, buf := 0, mem := mem }

/-! ## One byte of the buffer -/

/-- The buffered bytes lie inside `bio_buf`. -/
def ybio_t.Wf (p : ybio_t) : Prop := p.bio_cnt ≤ 0 ∨ p.bio_ptr + p.bio_cnt ≤ YBIO_SIZE

theorem ybio_init_wf (fd : Fd) (p : ybio_t) : (ybio_init fd p).Wf := Or.inl (Int.le_refl _)

theorem ybio_init_pending (fd : Fd) (p : ybio_t) : (ybio_init fd p).pending = fd.marks := rfl

theorem pending_of_cnt_nonpos {p : ybio_t} (h : p.bio_cnt ≤ 0) :
    p.pending = p.bio_fd.marks := by
  rw [ybio_t.pending, Int.toNat_of_nonpos h]
  rfl

theorem pending_of_cnt_pos {p : ybio_t} (h : 0 < p.bio_cnt) :
    p.pending = .byte (p.bio_buf p.bio_ptr) ::
      ybio_t.pending { p with bio_cnt := p.bio_cnt - 1, bio_ptr := p.bio_ptr + 1 } := by
  obtain ⟨k, hk⟩ : ∃ k : ℕ, p.bio_cnt.toNat = k + 1 := ⟨p.bio_cnt.toNat - 1, by omega⟩
  have hk' : (p.bio_cnt - 1).toNat = k := by omega
  simp only [ybio_t.pending, hk, hk', slice_succ, List.map_cons, List.cons_append]

theorem ybio_readBody_decreases (n : ℕ) (p p' : ybio_t) (h : ybio_readBody n p = .next p') :
    p'.bio_fd.marks.length < p.bio_fd.marks.length := by
  have hY : 0 < YBIO_SIZE := by norm_num
  unfold ybio_readBody at h
  split at h
  · cases hr : p.bio_fd.read YBIO_SIZE with
    | none => simp only [hr, reduceCtorEq] at h
    | some q =>
      obtain ⟨r, fd⟩ := q
      have hlt := read_marks_lt hY hr
      cases r with
      | fail e =>
        simp only [hr] at h
        split at h
        · exact nomatch h
        · rw [Iter.next.injEq] at h
          rw [← h]; exact hlt
      | eof => simp only [hr, reduceCtorEq] at h
      | data bs =>
        simp only [hr, Iter.next.injEq] at h
        rw [← h]; exact hlt
  · exact nomatch h

theorem ybio_read_eq (p : ybio_t) (n : ℕ) :
    ybio_read p n = match ybio_readBody n p with
      | .next p' => ybio_read p' n
      | .done r => some r
      | .blocked => none := by
  rw [ybio_read, exec_eq (ybio_readBody_decreases n)]
  cases ybio_readBody n p <;> rfl

/-- The first mark that is not an interruption, and what follows it. -/
def nextMark : List Mark → Option (Mark × List Mark)
  | [] => none
  | .fail .EINTR :: ms => nextMark ms
  | m :: ms => some (m, ms)

theorem nextMark_cons {a : Mark} {ms : List Mark} (ha : a ≠ .fail .EINTR) :
    nextMark (a :: ms) = some (a, ms) := by
  rw [nextMark]
  intro habs
  exact ha habs

/-- What one byte of `ybio_read` has to be, by the mark it finds. -/
def OneByte (p : ybio_t) : Option (Mark × List Mark) → Prop
  | none => ybio_read p 1 = none
  | some (.byte b, ms) => ∃ p', ybio_read p 1 = some (.ok [b], p') ∧ p'.pending = ms ∧ (p.Wf → p'.Wf)
  | some (.eof, ms) => ∃ p', ybio_read p 1 = some (.ok [], p') ∧ p'.pending = ms ∧ (p.Wf → p'.Wf)
  | some (.fail e, ms) => ∃ p', ybio_read p 1 = some (.error e, p') ∧ p'.pending = ms ∧ (p.Wf → p'.Wf)

/-- With something in the buffer there is no refill: the byte is the next one of it. -/
theorem ybio_read_buffered {p : ybio_t} (hcnt : 0 < p.bio_cnt) :
    OneByte p (nextMark p.pending) := by
  rw [pending_of_cnt_pos hcnt]
  refine ⟨{ p with bio_cnt := p.bio_cnt - 1, bio_ptr := p.bio_ptr + 1 }, ?_, rfl, ?_⟩
  · have hmore : ¬p.bio_cnt < 1 := by omega
    rw [ybio_read_eq, ybio_readBody, if_neg (by omega)]
    simp only [Nat.cast_one, hmore, if_false, slice_succ, slice_zero]
  · intro hw
    rcases hw with h | h
    · omega
    · simp only [ybio_t.Wf]
      omega

/-- **One byte of `ybio_read`** is the first mark of `pending` that is not an
interruption. The induction is on the descriptor's marks: an interrupted refill goes
round with one mark less, a successful one goes round with a buffer to take from. -/
theorem ybio_read_marks : ∀ (ms : List Mark) (p : ybio_t), p.bio_fd.marks = ms →
    OneByte p (nextMark p.pending) := by
  intro ms
  induction ms with
  | nil =>
    intro p hm
    rcases lt_or_ge 0 p.bio_cnt with hcnt | hcnt
    · exact ybio_read_buffered hcnt
    · rw [pending_of_cnt_nonpos hcnt, hm]
      show ybio_read p 1 = none
      rw [ybio_read_eq, ybio_readBody, if_pos hcnt,
        read_nil YBIO_SIZE hm]
  | cons m ms ih =>
    intro p hm
    rcases lt_or_ge 0 p.bio_cnt with hcnt | hcnt
    · exact ybio_read_buffered hcnt
    · have hunf := ybio_read_eq p 1
      rw [pending_of_cnt_nonpos hcnt, hm]
      cases m with
      | byte b =>
        -- the refill fills the buffer, and the byte is then the first one in it
        obtain ⟨bs, fd, hr, hne, hlen, hsplit⟩ := read_byte YBIO_SIZE hm (by norm_num)
        have hcnt₁ : 0 < (p.refill fd bs).bio_cnt := by
          have := List.length_pos_iff.mpr hne
          simp only [ybio_t.refill]
          omega
        have hpend₁ : (p.refill fd bs).pending = .byte b :: ms := by
          rw [← hm, hsplit]
          simp only [ybio_t.refill, ybio_t.pending, Int.toNat_natCast, slice_storeAll]
        have hw₁ : (p.refill fd bs).Wf := by
          refine Or.inr ?_
          simp only [ybio_t.refill]
          omega
        have hbody : ybio_readBody 1 p = .next (p.refill fd bs) := by
          rw [ybio_readBody, if_pos hcnt, hr]
        rw [hbody] at hunf
        have hone := ybio_read_buffered hcnt₁
        rw [hpend₁] at hone
        obtain ⟨p', hp', hpend', hw'⟩ := hone
        exact ⟨p', hunf.trans hp', hpend', fun _ => hw' hw₁⟩
      | eof =>
        have hbody : ybio_readBody 1 p
            = .done (.ok [], { p with bio_fd := { p.bio_fd with marks := ms }, bio_cnt := 0 }) := by
          rw [ybio_readBody, if_pos hcnt, read_eof YBIO_SIZE hm]
        rw [hbody] at hunf
        exact ⟨_, hunf, rfl, fun _ => Or.inl (Int.le_refl _)⟩
      | fail e =>
        let p₁ : ybio_t := { p with bio_fd := { p.bio_fd with marks := ms }, bio_cnt := -1 }
        have hw₁ : p₁.Wf := Or.inl (by show (-1 : ℤ) ≤ 0; omega)
        by_cases he : e = .EINTR
        · have hbody : ybio_readBody 1 p = .next p₁ := by
            rw [ybio_readBody, if_pos hcnt, read_fail YBIO_SIZE hm]
            simp only [he, ne_eq, not_true_eq_false, if_false, p₁]
          rw [hbody] at hunf
          have hone := ih p₁ rfl
          rw [pending_of_cnt_nonpos (by show (-1 : ℤ) ≤ 0; omega)] at hone
          subst he
          -- the retry reads one mark further on, with nothing buffered
          show OneByte p (nextMark ms)
          revert hone
          rcases nextMark ms with _ | ⟨_ | e' | _, ms'⟩
          · exact hunf.trans
          · rintro ⟨p', h₁, h₂, h₃⟩
            exact ⟨p', hunf.trans h₁, h₂, fun _ => h₃ hw₁⟩
          · rintro ⟨p', h₁, h₂, h₃⟩
            exact ⟨p', hunf.trans h₁, h₂, fun _ => h₃ hw₁⟩
          · rintro ⟨p', h₁, h₂, h₃⟩
            exact ⟨p', hunf.trans h₁, h₂, fun _ => h₃ hw₁⟩
        · have hbody : ybio_readBody 1 p = .done (.error e, p₁) := by
            rw [ybio_readBody, if_pos hcnt, read_fail YBIO_SIZE hm]
            simp only [ne_eq, he, not_false_eq_true, if_true, p₁]
          rw [hbody] at hunf
          rw [nextMark_cons (by rw [ne_eq, Mark.fail.injEq]; exact he)]
          exact ⟨p₁, hunf, rfl, fun _ => hw₁⟩

/-! ## The line loop -/

theorem nextMark_length : ∀ {ms ms' : List Mark} {m : Mark}, nextMark ms = some (m, ms') →
    ms'.length < ms.length := by
  intro ms
  induction ms with
  | nil => intro ms' m h; exact nomatch h
  | cons a ms ih =>
    intro ms' m h
    by_cases ha : a = .fail .EINTR
    · subst ha
      have := ih (h : nextMark ms = _)
      rw [List.length_cons]
      omega
    · rw [nextMark_cons ha, Option.some.injEq, Prod.mk.injEq] at h
      rw [← h.2, List.length_cons]
      exact Nat.lt_succ_self _

theorem nextMark_ne_eintr {ms ms' : List Mark} {e : Errno}
    (h : nextMark ms = some (.fail e, ms')) : e ≠ .EINTR := by
  induction ms with
  | nil => exact nomatch h
  | cons a ms ih =>
    by_cases ha : a = .fail .EINTR
    · subst ha
      exact ih h
    · rw [nextMark_cons ha, Option.some.injEq, Prod.mk.injEq] at h
      intro he
      exact ha (by rw [h.1, he])

/-- The mark-level reader looks at the first mark that is not an interruption. -/
theorem getLine_eq_nextMark (n : ℕ) : ∀ (ms : List Mark) (tot : ℕ) (mem : Mem),
    getLine n ms tot mem = match nextMark ms with
      | none => none
      | some (m, ms') => getLine n (m :: ms') tot mem := by
  intro ms tot mem
  induction ms with
  | nil => rfl
  | cons a ms ih =>
    by_cases ha : a = .fail .EINTR
    · subst ha
      simp only [getLine, if_true, nextMark]
      exact ih
    · rw [nextMark_cons ha]

theorem ybio_read_one (p : ybio_t) : OneByte p (nextMark p.pending) :=
  ybio_read_marks p.bio_fd.marks p rfl

theorem ybio_readlBody_decreases (n : ℕ) (s s' : YbioLocals)
    (h : ybio_readlBody n s = .next s') : s'.p.pending.length < s.p.pending.length := by
  unfold ybio_readlBody at h
  have hone := ybio_read_one s.p
  revert hone
  rcases hnext : nextMark s.p.pending with _ | ⟨b | e | _, ms⟩
  · intro hone
    simp only [show ybio_read s.p 1 = none from hone, reduceCtorEq] at h
  · rintro ⟨p', hr, hpend, -⟩
    have hlt := nextMark_length hnext
    simp only [hr] at h
    split at h
    · exact nomatch h
    · rw [Iter.next.injEq] at h
      rw [← h, ← hpend] at *
      split <;> exact hlt
  · rintro ⟨p', hr, -, -⟩
    simp only [hr, reduceCtorEq] at h
  · rintro ⟨p', hr, -, -⟩
    simp only [hr] at h
    split at h <;> exact nomatch h

/-- What a `ybio_t` and a list of marks have in common during a sequence of calls. -/
def Holds (p : ybio_t) (ms : List Mark) : Prop := p.Wf ∧ p.pending = ms

/-- The line loop from any of its states is `getLine` on what is pending. The induction
is on the number of pending marks, since one turn may consume several interruptions. -/
theorem exec_ybio_readlBody (n : ℕ) : ∀ (k : ℕ) (s : YbioLocals), s.p.pending.length = k →
    s.p.Wf → s.buf = s.numRead →
      Agree Holds (exec (ybio_readlBody n) (fun s => s.p.pending.length) s)
        (getLine n s.p.pending s.numRead s.mem) := by
  intro k
  induction k using Nat.strong_induction_on with
  | _ k ih =>
    intro s hk hw hbuf
    rw [exec_eq (ybio_readlBody_decreases n), getLine_eq_nextMark]
    have hone := ybio_read_one s.p
    revert hone
    rcases hnext : nextMark s.p.pending with _ | ⟨b | e | _, ms⟩
    · intro hone
      simp only [ybio_readlBody, show ybio_read s.p 1 = none from hone]
      exact Or.inl ⟨rfl, rfl⟩
    · rintro ⟨p', hr, hpend, hw'⟩
      have hlt := nextMark_length hnext
      simp only [ybio_readlBody, hr, getLine]
      by_cases hfit : s.numRead + 1 < n
      · simp only [if_pos hfit]
        by_cases hnl : b = newline
        · simp only [if_pos hnl, YbioLocals.finish, hbuf]
          exact Or.inr ⟨_, _, _, rfl, rfl, hw' hw, hpend⟩
        · simp only [if_neg hnl, hbuf]
          have := ih ms.length (by omega)
            { p := p', numRead := s.numRead + 1, buf := s.numRead + 1,
              mem := store s.mem s.numRead b } (by rw [hpend]) (hw' hw) rfl
          simpa only [hpend] using this
      · simp only [if_neg hfit]
        by_cases hnl : b = newline
        · simp only [if_pos hnl, YbioLocals.finish, hbuf]
          exact Or.inr ⟨_, _, _, rfl, rfl, hw' hw, hpend⟩
        · simp only [if_neg hnl]
          have := ih ms.length (by omega) { s with p := p' } (by rw [hpend]) (hw' hw) hbuf
          simpa only [hpend] using this
    · rintro ⟨p', hr, hpend, hw'⟩
      -- an interruption is never the mark that was found
      have he : e ≠ .EINTR := nextMark_ne_eintr hnext
      simp only [ybio_readlBody, hr, getLine, if_neg he]
      exact Or.inr ⟨_, _, _, rfl, rfl, hw' hw, hpend⟩
    · rintro ⟨p', hr, hpend, hw'⟩
      simp only [ybio_readlBody, hr, getLine]
      by_cases ht : s.numRead = 0
      · simp only [if_pos ht]
        exact Or.inr ⟨_, _, _, rfl, rfl, hw' hw, hpend⟩
      · simp only [if_neg ht, YbioLocals.finish, hbuf]
        exact Or.inr ⟨_, _, _, rfl, rfl, hw' hw, hpend⟩

/-- `ybio_readl` is the mark-level reader, on what is pending. -/
theorem ybio_readl_sim : Simulates Holds ybio_readl lineSpec := by
  rintro p ms c ⟨hw, rfl⟩
  cases hb : c.buffer with
  | none =>
    simp only [ybio_readl, lineSpec, hb]
    exact Or.inr ⟨_, p, _, rfl, rfl, hw, rfl⟩
  | some mem =>
    by_cases hn : c.n = 0
    · simp only [ybio_readl, lineSpec, hb, if_pos hn]
      exact Or.inr ⟨_, p, _, rfl, rfl, hw, rfl⟩
    · simp only [ybio_readl, lineSpec, hb, if_neg hn]
      exact exec_ybio_readlBody c.n _ { p := p, numRead := 0, buf := 0, mem := mem } rfl hw rfl

/-! ## The three readers -/

/-- The lines of a quiet stretch, read through any function that simulates the
mark-level reader: after `k` calls the unread bytes are those after the `k`-th line, and
what the `k`-th call left is that line, cut to its buffer. -/
theorem reads_lines {σ : Type} {R : σ → List Mark → Prop} {f : σ → Call → Option (Ret × σ)}
    (hsim : Simulates R f lineSpec) {s : σ} {body : List Mark} (hR : R s (body ++ [.eof]))
    (hq : Quiet body) {calls : List Call} (hcalls : ∀ c ∈ calls, c.buffer.isSome ∧ 2 ≤ c.n)
    {k : ℕ} (hk : k ≤ calls.length) (hl : k ≤ (splitLines (bytesOf body)).length) :
    ∃ s' ms, stateAfter f s (calls.take k) = some s' ∧ R s' ms ∧
      bytesOf ms = ((splitLines (bytesOf body)).drop k).flatten ∧
      (callSeq f s calls).take k
        = List.zipWith (fun c l => some (placed (c.buffer.getD fun _ => 0) c.n l)) (calls.take k)
            (splitLines (bytesOf body)) := by
  have hlen : (calls.take k).length = k := by rw [List.length_take]; omega
  obtain ⟨ms, hstate, hbytes, hseq⟩ := lineSpec_lines (calls.take k) body hq
    (fun c hc => hcalls c (List.mem_of_mem_take hc)) (by omega)
  obtain ⟨s', hs', hR'⟩ := stateAfter_of_sim hsim (calls.take k) s _ _ hR hstate
  refine ⟨s', ms, hs', hR', by rw [hbytes, hlen], ?_⟩
  rw [← callSeq_take, callSeq_eq_of_sim hsim _ _ _ hR, hseq]

/-- The bytes `ybio_readl` has not delivered yet. -/
def ybio_t.unread (p : ybio_t) : List UInt8 := bytesOf p.pending

/-- **The three readers agree.** Whatever the stream, its marks, the three chunkings and
the sequence of calls, `ybio_readl` on a freshly initialised `ybio_t`, `readLine` and
`yreadLine` give the same return values and leave the same buffers, call by call.

On a stream of lines ended by one end of file, with every buffer of at least two bytes,
the `k`-th call takes the `k`-th line: it leaves that line cut to `n - 1` bytes and one
terminator, returns the length of what it placed, and the bytes not yet delivered are
those of the lines after it. -/
theorem line_readers_agree (marks : List Mark) (chunks₁ chunks₂ chunks₃ : List ℕ) (p : ybio_t)
    (calls : List Call) :
    callSeq ybio_readl (ybio_init ⟨marks, chunks₁⟩ p) calls
        = callSeq readLine ⟨marks, chunks₂⟩ calls ∧
      callSeq ybio_readl (ybio_init ⟨marks, chunks₁⟩ p) calls
        = callSeq yreadLine ⟨marks, chunks₃⟩ calls ∧
      ∀ body, marks = body ++ [.eof] → Quiet body →
        (∀ c ∈ calls, c.buffer.isSome ∧ 2 ≤ c.n) →
        ∀ k, k ≤ calls.length → k ≤ (splitLines (bytesOf body)).length →
          (callSeq ybio_readl (ybio_init ⟨marks, chunks₁⟩ p) calls).take k
              = List.zipWith (fun c l => some (placed (c.buffer.getD fun _ => 0) c.n l))
                  (calls.take k) (splitLines (bytesOf body)) ∧
            (∃ p', stateAfter ybio_readl (ybio_init ⟨marks, chunks₁⟩ p) (calls.take k) = some p' ∧
              p'.unread = ((splitLines (bytesOf body)).drop k).flatten) ∧
            (∃ fd, stateAfter readLine ⟨marks, chunks₂⟩ (calls.take k) = some fd ∧
              bytesOf fd.marks = ((splitLines (bytesOf body)).drop k).flatten) ∧
            ∃ fd, stateAfter yreadLine ⟨marks, chunks₃⟩ (calls.take k) = some fd ∧
              bytesOf fd.marks = ((splitLines (bytesOf body)).drop k).flatten := by
  have hbio : Holds (ybio_init ⟨marks, chunks₁⟩ p) marks :=
    ⟨ybio_init_wf _ p, ybio_init_pending _ p⟩
  -- each reader is the mark-level reader, so they are compared through it
  have hseq₁ := callSeq_eq_of_sim ybio_readl_sim calls _ _ hbio
  have hseq₂ := callSeq_eq_of_sim readLine_sim calls ⟨marks, chunks₂⟩ marks rfl
  have hseq₃ := callSeq_eq_of_sim yreadLine_sim calls ⟨marks, chunks₃⟩ marks rfl
  refine ⟨by rw [hseq₁, hseq₂], by rw [hseq₁, hseq₃], ?_⟩
  rintro body rfl hq hcalls k hk hl
  obtain ⟨p', ms, hp', ⟨-, hpend⟩, hbytes, hlines⟩ :=
    reads_lines ybio_readl_sim hbio hq hcalls hk hl
  obtain ⟨fd₂, ms₂, hfd₂, hm₂, hbytes₂, -⟩ :=
    reads_lines (s := (⟨body ++ [.eof], chunks₂⟩ : Fd)) readLine_sim rfl hq hcalls hk hl
  obtain ⟨fd₃, ms₃, hfd₃, hm₃, hbytes₃, -⟩ :=
    reads_lines (s := (⟨body ++ [.eof], chunks₃⟩ : Fd)) yreadLine_sim rfl hq hcalls hk hl
  refine ⟨hlines, ⟨p', hp', ?_⟩, ⟨fd₂, hfd₂, ?_⟩, ⟨fd₃, hfd₃, ?_⟩⟩
  · rw [ybio_t.unread, hpend, hbytes]
  · rw [hm₂, hbytes₂]
  · rw [hm₃, hbytes₃]

/-- The line `"ab\n"`, interrupted after its first byte, through a two-byte buffer: one
byte and the terminator are placed. -/
theorem line_readers_agree_ab :
    (callSeq ybio_readl
        (ybio_init ⟨[.byte 97, .fail .EINTR, .byte 98, .byte 10, .eof], [2]⟩
          ⟨⟨[], []⟩, 7, fun _ => 1, -1⟩) [⟨some fun _ => 9, 2⟩]).take 1
      = [some (placed (fun _ => 9) 2 [97, 98, 10])] := by
  have hlines : splitLines (bytesOf [.byte 97, .fail .EINTR, .byte 98, .byte 10])
      = [[97, 98, 10]] := by
    simp [splitLines, bytesOf, firstLine, newline]
  have h := (line_readers_agree [.byte 97, .fail .EINTR, .byte 98, .byte 10, .eof] [2] [] []
    ⟨⟨[], []⟩, 7, fun _ => 1, -1⟩ [⟨some fun _ => 9, 2⟩]).2.2
    [.byte 97, .fail .EINTR, .byte 98, .byte 10] rfl
    (by intro m hm; simp only [List.mem_cons, List.not_mem_nil, or_false] at hm; aesop)
    (by intro c hc; rw [List.mem_singleton] at hc; subst hc; exact ⟨rfl, Nat.le_refl 2⟩)
    1 (Nat.le_refl 1) (by rw [hlines]; exact Nat.le_refl 1)
  rw [h.1, hlines]
  rfl

end Tlpi.Ybio
