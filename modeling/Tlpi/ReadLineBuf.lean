/-
`sockets/read_line_buf.c`: the second buffered line reader, and where it parts from
`readLine`.

The file calls `readLineBuf` "a version of `readLine()` that is more efficient because
it reads blocks of characters at a time". Its buffering is right: `readLineBuf_sim`
shows it to be a reader over the pending marks, like `ybio_readl`, for every chunking.
That mark-level reader, `lineBufSpec`, is not `lineSpec`, though:

* no terminator is ever stored;
* a line is cut at `n` bytes, not at `n - 1`;
* an interrupted `read()` is returned to the caller as a failure.

The rest of the file is the exact price. A call that is not interrupted consumes the
same marks in both readers (`lineBufSpec_call`), so a sequence of such calls shows no
difference exactly when no single call does, and a single call shows none exactly when
the line fits and the terminator happens to be in the caller's buffer already
(`CallFits`). An interrupted call always shows one: `readLineBuf` returns -1 with `EINTR`,
which `readLine` never does.
-/
import Mathlib.Tactic.NormNum
import Tlpi.ReadLine

set_option autoImplicit false

namespace Tlpi.LineBuf

open Tlpi.Descriptor Tlpi.Loop Tlpi.ReadLine

/-! ## The source -/

/-- `RL_MAX_BUF` -/
abbrev RL_MAX_BUF : ℕ := 10

structure ReadLineBuf where
  fd : Fd
  buf : Mem
  next : ℕ
  len : ℤ

/-- `readLineBufInit(fd, rlbuf)`; `buf` keeps what it held. -/
def readLineBufInit (fd : Fd) (rlbuf : ReadLineBuf) : ReadLineBuf :=
  { rlbuf with fd := fd, len := 0, next := 0 }

/-- The refill: nothing to do (`data []`) while `next < len`. -/
def ReadLineBuf.refill (rlbuf : ReadLineBuf) : Option (ReadRes × ReadLineBuf) :=
  if rlbuf.len ≤ rlbuf.next then
    match rlbuf.fd.read RL_MAX_BUF with
    | none => none
    | some (.fail e, fd) => some (.fail e, { rlbuf with fd := fd, len := -1 })
    | some (.eof, fd) => some (.eof, { rlbuf with fd := fd, len := 0 })
    | some (.data bs, fd) =>
      some (.data bs, { fd := fd, buf := storeAll rlbuf.buf 0 bs, next := 0, len := bs.length })
  else some (.data [], rlbuf)

structure BufLocals where
  rlbuf : ReadLineBuf
  cnt : ℕ
  mem : Mem

def readLineBufBody (n : ℕ) (s : BufLocals) : Iter BufLocals (Ret × ReadLineBuf) :=
  match s.rlbuf.refill with
  | none => .blocked
  | some (.fail e, rlbuf) => .done ({ ret := .error e, buffer := some s.mem }, rlbuf)
  | some (.eof, rlbuf) => .done ({ ret := .ok s.cnt, buffer := some s.mem }, rlbuf)
  | some (.data _, rlbuf) =>
    let c := rlbuf.buf rlbuf.next
    let rlbuf' := { rlbuf with next := rlbuf.next + 1 }
    let cnt := if s.cnt < n then s.cnt + 1 else s.cnt
    let mem := if s.cnt < n then store s.mem s.cnt c else s.mem
    if c = newline then .done ({ ret := .ok cnt, buffer := some mem }, rlbuf')
    else .next { rlbuf := rlbuf', cnt := cnt, mem := mem }

/-- What `readLineBuf` has still to deliver. -/
def ReadLineBuf.pending (rlbuf : ReadLineBuf) : List Mark :=
  (slice rlbuf.buf rlbuf.next (rlbuf.len - rlbuf.next).toNat).map .byte ++ rlbuf.fd.marks

/-- `readLineBuf(rlbuf, buffer, n)` -/
def readLineBuf (rlbuf : ReadLineBuf) (c : Call) : Option (Ret × ReadLineBuf) :=
  match c.buffer with
  | none => some ({ ret := .error .EINVAL, buffer := none }, rlbuf)
  | some mem =>
    if c.n = 0 then some ({ ret := .error .EINVAL, buffer := some mem }, rlbuf)
    else exec (readLineBufBody c.n) (fun s => s.rlbuf.pending.length)
      { rlbuf := rlbuf, cnt := 0, mem := mem }

/-! ## The reader over marks -/

def getLineBuf (n : ℕ) : List Mark → ℕ → Mem → Option (Ret × List Mark)
  | [], _, _ => none
  | .fail e :: ms, _, mem => some ({ ret := .error e, buffer := some mem }, ms)
  | .eof :: ms, cnt, mem => some ({ ret := .ok cnt, buffer := some mem }, ms)
  | .byte b :: ms, cnt, mem =>
    let cnt' := if cnt < n then cnt + 1 else cnt
    let mem' := if cnt < n then store mem cnt b else mem
    if b = newline then some ({ ret := .ok cnt', buffer := some mem' }, ms)
    else getLineBuf n ms cnt' mem'

/-- One call of the mark-level reader. -/
def lineBufSpec (ms : List Mark) (c : Call) : Option (Ret × List Mark) :=
  match c.buffer with
  | none => some ({ ret := .error .EINVAL, buffer := none }, ms)
  | some mem =>
    if c.n = 0 then some ({ ret := .error .EINVAL, buffer := some mem }, ms)
    else getLineBuf c.n ms 0 mem

theorem pending_of_len_le {rlbuf : ReadLineBuf} (h : rlbuf.len ≤ rlbuf.next) :
    rlbuf.pending = rlbuf.fd.marks := by
  rw [ReadLineBuf.pending, Int.toNat_of_nonpos (by omega)]
  rfl

theorem pending_of_next_lt {rlbuf : ReadLineBuf} (h : rlbuf.next < rlbuf.len) :
    rlbuf.pending = .byte (rlbuf.buf rlbuf.next) ::
      ReadLineBuf.pending { rlbuf with next := rlbuf.next + 1 } := by
  obtain ⟨k, hk⟩ : ∃ k : ℕ, (rlbuf.len - rlbuf.next).toNat = k + 1 :=
    ⟨(rlbuf.len - rlbuf.next).toNat - 1, by omega⟩
  have hk' : (rlbuf.len - ((rlbuf.next + 1 : ℕ) : ℤ)).toNat = k := by omega
  simp only [ReadLineBuf.pending, hk, hk', slice_succ, List.map_cons, List.cons_append]

/-- **The refill, by what is pending.** It blocks on nothing, hands on a failure or an end
of file, and otherwise leaves a buffer whose next byte is the next pending one. -/
theorem refill_spec (rlbuf : ReadLineBuf) :
    match rlbuf.pending with
    | [] => rlbuf.refill = none
    | .fail e :: ms => ∃ r, rlbuf.refill = some (.fail e, r) ∧ r.pending = ms
    | .eof :: ms => ∃ r, rlbuf.refill = some (.eof, r) ∧ r.pending = ms
    | .byte b :: ms => ∃ bs r, rlbuf.refill = some (.data bs, r) ∧ r.buf r.next = b ∧
        ReadLineBuf.pending { r with next := r.next + 1 } = ms := by
  rcases lt_or_ge (rlbuf.next : ℤ) rlbuf.len with hlt | hge
  · -- bytes are still in the buffer: nothing is read
    rw [pending_of_next_lt hlt]
    exact ⟨[], rlbuf, by rw [ReadLineBuf.refill, if_neg (by omega)], rfl, rfl⟩
  · rw [pending_of_len_le hge]
    cases hm : rlbuf.fd.marks with
    | nil =>
      show rlbuf.refill = none
      rw [ReadLineBuf.refill, if_pos hge, read_nil RL_MAX_BUF hm]
    | cons m ms =>
      cases m with
      | fail e =>
        refine ⟨{ rlbuf with fd := { rlbuf.fd with marks := ms }, len := -1 }, ?_, ?_⟩
        · rw [ReadLineBuf.refill, if_pos hge, read_fail RL_MAX_BUF hm]
        · rw [pending_of_len_le (by show (-1 : ℤ) ≤ rlbuf.next; omega)]
      | eof =>
        refine ⟨{ rlbuf with fd := { rlbuf.fd with marks := ms }, len := 0 }, ?_, ?_⟩
        · rw [ReadLineBuf.refill, if_pos hge, read_eof RL_MAX_BUF hm]
        · rw [pending_of_len_le (by show (0 : ℤ) ≤ rlbuf.next; omega)]
      | byte b =>
        obtain ⟨bs, fd, hr, hne, -, hsplit⟩ := read_byte RL_MAX_BUF hm (by norm_num)
        set r : ReadLineBuf :=
          ⟨fd, storeAll rlbuf.buf 0 bs, 0, bs.length⟩ with hr_def
        have hpos := List.length_pos_iff.mpr hne
        -- the bytes just stored and those not yet read are together what was pending
        have hpend : r.pending = .byte b :: ms := by
          rw [← hm, hsplit, hr_def]
          simp only [ReadLineBuf.pending, Nat.cast_zero, Int.sub_zero, Int.toNat_natCast,
            slice_storeAll]
        have hnext : (r.next : ℤ) < r.len := by
          rw [hr_def]
          show ((0 : ℕ) : ℤ) < (bs.length : ℤ)
          omega
        rw [pending_of_next_lt hnext, List.cons.injEq, Mark.byte.injEq] at hpend
        exact ⟨bs, r, by rw [ReadLineBuf.refill, if_pos hge, hr], hpend.1, hpend.2⟩

theorem readLineBufBody_decreases (n : ℕ) (s s' : BufLocals)
    (h : readLineBufBody n s = .next s') :
    s'.rlbuf.pending.length < s.rlbuf.pending.length := by
  unfold readLineBufBody at h
  have hspec := refill_spec s.rlbuf
  rcases hp : s.rlbuf.pending with _ | ⟨b | e | _, ms⟩ <;> rw [hp] at hspec
  · simp only [show s.rlbuf.refill = none from hspec, reduceCtorEq] at h
  · obtain ⟨bs, r, hr, -, hpend⟩ := hspec
    simp only [hr] at h
    split at h
    · exact nomatch h
    · rw [Iter.next.injEq] at h
      rw [← h, List.length_cons, ← hpend]
      exact Nat.lt_succ_self _
  · obtain ⟨r, hr, -⟩ := hspec
    simp only [hr, reduceCtorEq] at h
  · obtain ⟨r, hr, -⟩ := hspec
    simp only [hr, reduceCtorEq] at h

/-- The loop from any of its states is `getLineBuf` on what is pending. -/
theorem exec_readLineBufBody (n : ℕ) : ∀ (ms : List Mark) (s : BufLocals),
    s.rlbuf.pending = ms →
      Agree (fun r ms => ReadLineBuf.pending r = ms)
        (exec (readLineBufBody n) (fun s => s.rlbuf.pending.length) s)
        (getLineBuf n ms s.cnt s.mem) := by
  intro ms
  induction ms with
  | nil =>
    intro s hp
    have hspec := refill_spec s.rlbuf
    rw [hp] at hspec
    rw [exec_eq (readLineBufBody_decreases n)]
    simp only [readLineBufBody, show s.rlbuf.refill = none from hspec, getLineBuf]
    exact Or.inl ⟨rfl, rfl⟩
  | cons m ms ih =>
    intro s hp
    have hspec := refill_spec s.rlbuf
    rw [hp] at hspec
    rw [exec_eq (readLineBufBody_decreases n)]
    cases m with
    | fail e =>
      obtain ⟨r, hr, hpend⟩ := hspec
      simp only [readLineBufBody, hr, getLineBuf]
      exact Or.inr ⟨_, _, _, rfl, rfl, hpend⟩
    | eof =>
      obtain ⟨r, hr, hpend⟩ := hspec
      simp only [readLineBufBody, hr, getLineBuf]
      exact Or.inr ⟨_, _, _, rfl, rfl, hpend⟩
    | byte b =>
      obtain ⟨bs, r, hr, hb, hpend⟩ := hspec
      simp only [readLineBufBody, hr, hb, getLineBuf]
      by_cases hnl : b = newline
      · simp only [if_pos hnl]
        exact Or.inr ⟨_, _, _, rfl, rfl, hpend⟩
      · simp only [if_neg hnl]
        exact ih ⟨{ r with next := r.next + 1 }, _, _⟩ hpend

/-- `readLineBuf` is the mark-level reader, on what is pending. -/
theorem readLineBuf_sim :
    Simulates (fun (r : ReadLineBuf) ms => r.pending = ms) readLineBuf lineBufSpec := by
  rintro r ms c rfl
  cases hb : c.buffer with
  | none =>
    simp only [readLineBuf, lineBufSpec, hb]
    exact Or.inr ⟨_, r, _, rfl, rfl, rfl⟩
  | some mem =>
    by_cases hn : c.n = 0
    · simp only [readLineBuf, lineBufSpec, hb, if_pos hn]
      exact Or.inr ⟨_, r, _, rfl, rfl, rfl⟩
    · simp only [readLineBuf, lineBufSpec, hb, if_neg hn]
      exact exec_readLineBufBody c.n _ { rlbuf := r, cnt := 0, mem := mem } rfl

/-! ## When a call shows no difference

A call meets some bytes that are not newlines, `lineText`, and after them what ends it:
a newline, an end of file, a failure, or nothing. -/

/-- The bytes in front of the newline, end of file or failure that ends the next call. -/
def lineText : List Mark → List UInt8
  | .byte b :: ms => if b = newline then [] else b :: lineText ms
  | _ => []

/-- What follows the call. -/
def afterLine (ms : List Mark) : List Mark := ms.drop ((lineText ms).length + 1)

/-- **The condition on one call.** With `l` the text of the line:

* ended by a newline, the line and a terminator fit, and the terminator is already in
  the caller's buffer;
* ended by the end of file, the same, unless there was no byte at all;
* ended by a failure, this is not an interruption, and the one byte that `readLineBuf`
  stores in excess, if the text is that long, was already there. -/
def CallFits (ms : List Mark) (c : Call) : Prop :=
  ∀ mem, c.buffer = some mem → c.n ≠ 0 →
    match ms.drop (lineText ms).length with
    | [] => True
    | .byte _ :: _ =>
      (lineText ms).length + 1 < c.n ∧ mem ((lineText ms).length + 1) = nul
    | .eof :: _ => lineText ms = [] ∨
        ((lineText ms).length < c.n ∧ mem (lineText ms).length = nul)
    | .fail e :: _ => e ≠ .EINTR ∧ ∀ b, (lineText ms)[c.n - 1]? = some b → mem (c.n - 1) = b

/-- Whether the call gets as far as reading. -/
def Valid (c : Call) : Prop := c.buffer ≠ none ∧ c.n ≠ 0

instance (c : Call) : Decidable (Valid c) := inferInstanceAs (Decidable (_ ∧ _))

/-- **The condition on a sequence of calls**: every call fits, each at the line it
meets. -/
def RunFits : List Mark → List Call → Prop
  | _, [] => True
  | ms, c :: cs => CallFits ms c ∧ RunFits (if Valid c then afterLine ms else ms) cs

theorem lineText_split : ∀ ms : List Mark,
    newline ∉ lineText ms ∧ ms = (lineText ms).map .byte ++ ms.drop (lineText ms).length ∧
      (ms.drop (lineText ms).length = [] ∨
        (∃ e, ms.drop (lineText ms).length = .fail e :: afterLine ms) ∨
        ms.drop (lineText ms).length = .eof :: afterLine ms ∨
        ms.drop (lineText ms).length = .byte newline :: afterLine ms) := by
  intro ms
  induction ms with
  | nil => exact ⟨List.not_mem_nil, rfl, Or.inl rfl⟩
  | cons m ms ih =>
    cases m with
    | fail e => exact ⟨List.not_mem_nil, rfl, Or.inr (Or.inl ⟨e, rfl⟩)⟩
    | eof => exact ⟨List.not_mem_nil, rfl, Or.inr (Or.inr (Or.inl rfl))⟩
    | byte b =>
      by_cases hnl : b = newline
      · subst hnl
        exact ⟨by simp only [lineText, if_true]; exact List.not_mem_nil, rfl,
          Or.inr (Or.inr (Or.inr rfl))⟩
      · obtain ⟨h₁, h₂, h₃⟩ := ih
        simp only [afterLine, lineText, if_neg hnl, List.length_cons, List.drop_succ_cons,
          List.map_cons, List.cons_append] at h₃ ⊢
        refine ⟨?_, congrArg _ h₂, h₃⟩
        rw [List.mem_cons, not_or]
        exact ⟨fun h => hnl h.symm, h₁⟩

/-- `readLine` over text: as many bytes as leave room for the terminator. -/
theorem getLine_text (n : ℕ) (tail : List Mark) : ∀ (l : List UInt8) (tot : ℕ) (mem : Mem),
    newline ∉ l → tot ≤ n - 1 →
      getLine n (l.map .byte ++ tail) tot mem
        = getLine n tail (tot + min (n - 1 - tot) l.length)
            (storeAll mem tot (l.take (n - 1 - tot))) := by
  intro l
  induction l with
  | nil =>
    intro tot mem _ _
    simp only [List.map_nil, List.nil_append, List.length_nil, Nat.min_zero, Nat.add_zero,
      List.take_nil, storeAll_nil]
  | cons b l ih =>
    intro tot mem hl htot
    rw [List.mem_cons, not_or] at hl
    have hnl : ¬b = newline := fun h => hl.1 h.symm
    simp only [List.map_cons, List.cons_append, getLine, if_neg hnl, List.length_cons]
    by_cases hfit : tot + 1 < n
    · have hk : n - 1 - tot = n - 1 - (tot + 1) + 1 := by omega
      have hmin : tot + min (n - 1 - tot) (l.length + 1)
          = tot + 1 + min (n - 1 - (tot + 1)) l.length := by omega
      rw [if_pos hfit, if_pos hfit, ih (tot + 1) _ hl.2 (by omega), hmin, hk,
        List.take_succ_cons, ← storeAll_cons]
    · rw [if_neg hfit, if_neg hfit, ih tot mem hl.2 htot, show n - 1 - tot = 0 by omega,
        Nat.zero_min, Nat.zero_min, List.take_zero, List.take_zero]

/-- `readLineBuf` over text: as many bytes as there are places. -/
theorem getLineBuf_text (n : ℕ) (tail : List Mark) : ∀ (l : List UInt8) (cnt : ℕ) (mem : Mem),
    newline ∉ l → cnt ≤ n →
      getLineBuf n (l.map .byte ++ tail) cnt mem
        = getLineBuf n tail (cnt + min (n - cnt) l.length)
            (storeAll mem cnt (l.take (n - cnt))) := by
  intro l
  induction l with
  | nil =>
    intro cnt mem _ _
    simp only [List.map_nil, List.nil_append, List.length_nil, Nat.min_zero, Nat.add_zero,
      List.take_nil, storeAll_nil]
  | cons b l ih =>
    intro cnt mem hl hcnt
    rw [List.mem_cons, not_or] at hl
    have hnl : ¬b = newline := fun h => hl.1 h.symm
    simp only [List.map_cons, List.cons_append, getLineBuf, if_neg hnl, List.length_cons]
    by_cases hfit : cnt < n
    · have hk : n - cnt = n - (cnt + 1) + 1 := by omega
      have hmin : cnt + min (n - cnt) (l.length + 1)
          = cnt + 1 + min (n - (cnt + 1)) l.length := by omega
      rw [if_pos hfit, if_pos hfit, ih (cnt + 1) _ hl.2 (by omega), hmin, hk,
        List.take_succ_cons, ← storeAll_cons]
    · rw [if_neg hfit, if_neg hfit, ih cnt mem hl.2 hcnt, show n - cnt = 0 by omega,
        Nat.zero_min, Nat.zero_min, List.take_zero, List.take_zero]

theorem store_eq_self {mem : Mem} {i : ℕ} {b : UInt8} : store mem i b = mem ↔ mem i = b := by
  rw [store, Function.update_eq_self_iff]
  exact eq_comm

theorem storeAll_zero_of_le {mem : Mem} {l : List UInt8} {i : ℕ} (h : l.length ≤ i) :
    storeAll mem 0 l i = mem i := by
  rw [storeAll, if_neg (by omega)]

theorem storeAll_zero_of_lt {mem : Mem} {l : List UInt8} {i : ℕ} (h : i < l.length) :
    storeAll mem 0 l i = l[i] := by
  rw [storeAll, if_pos (by omega), Nat.sub_zero, List.getD_eq_getElem _ _ h]

/-- A line of `L` bytes before its newline: the two results, whatever the buffer holds. -/
theorem newline_agree_iff {n L : ℕ} (hn : n ≠ 0) {mem₁ mem₂ : Mem} (rest : List Mark)
    (hmem : L < n → mem₁ = mem₂) :
    (getLineBuf n (.byte newline :: rest) (min n L) mem₂
        = getLine n (.byte newline :: rest) (min (n - 1) L) mem₁) ↔
      L + 1 < n ∧ mem₂ (L + 1) = nul := by
  simp only [getLine, getLineBuf, if_true]
  by_cases hfit : L + 1 < n
  · obtain rfl := hmem (by omega)
    rw [Nat.min_eq_right (by omega), Nat.min_eq_right (by omega), if_pos (by omega),
      if_pos (by omega), if_pos hfit, if_pos hfit]
    simp only [Option.some.injEq, Prod.mk.injEq, Ret.mk.injEq, true_and, and_true, hfit]
    rw [eq_comm, store_eq_self, store_ne _ _ (by omega)]
  · -- the line is as long as the buffer: the two counts differ by one
    have hret : (if min n L < n then min n L + 1 else min n L)
        ≠ (if min (n - 1) L + 1 < n then min (n - 1) L + 1 else min (n - 1) L) := by
      split <;> split <;> omega
    simp only [Option.some.injEq, Prod.mk.injEq, Ret.mk.injEq, Except.ok.injEq, and_true, hfit,
      false_and, iff_false]
    exact fun h => hret h.1

/-- `L` bytes before an end of file. -/
theorem eof_agree_iff {n L : ℕ} (hn : n ≠ 0) {mem₁ mem₂ : Mem} (rest : List Mark)
    (hmem : L < n → mem₁ = mem₂) :
    (getLineBuf n (.eof :: rest) (min n L) mem₂ = getLine n (.eof :: rest) (min (n - 1) L) mem₁) ↔
      L = 0 ∨ (L < n ∧ mem₂ L = nul) := by
  simp only [getLine, getLineBuf]
  by_cases hL : L = 0
  · obtain rfl := hmem (by omega)
    simp only [hL, Nat.min_zero, if_true, true_or]
  · simp only [hL, false_or]
    by_cases hfit : L < n
    · obtain rfl := hmem hfit
      rw [Nat.min_eq_right (by omega), Nat.min_eq_right (by omega), if_neg hL]
      simp only [Option.some.injEq, Prod.mk.injEq, Ret.mk.injEq, true_and, and_true, hfit]
      rw [eq_comm, store_eq_self]
    · simp only [hfit, false_and, iff_false]
      by_cases h0 : min (n - 1) L = 0
      · simp only [if_pos h0, Option.some.injEq, Prod.mk.injEq, Ret.mk.injEq, Except.ok.injEq]
        omega
      · simp only [if_neg h0, Option.some.injEq, Prod.mk.injEq, Ret.mk.injEq, Except.ok.injEq]
        omega

/-- Bytes before a failure: the buffers agree unless `readLineBuf` stored one more. -/
theorem storeAll_take_eq_iff {n : ℕ} (hn : n ≠ 0) {mem : Mem} {l : List UInt8} :
    storeAll mem 0 (l.take n) = storeAll mem 0 (l.take (n - 1)) ↔
      ∀ b, l[n - 1]? = some b → mem (n - 1) = b := by
  constructor
  · intro h b hb
    obtain ⟨hlt, rfl⟩ := List.getElem?_eq_some_iff.mp hb
    have hat := congrFun h (n - 1)
    rw [storeAll_zero_of_lt (by rw [List.length_take]; omega),
      storeAll_zero_of_le (by rw [List.length_take]; omega), List.getElem_take] at hat
    exact hat.symm
  · intro h
    funext j
    rcases Nat.lt_trichotomy j (n - 1) with hlt | rfl | hgt
    · by_cases hj : j < l.length
      · rw [storeAll_zero_of_lt (by rw [List.length_take]; omega),
          storeAll_zero_of_lt (by rw [List.length_take]; omega), List.getElem_take,
          List.getElem_take]
      · rw [storeAll_zero_of_le (by rw [List.length_take]; omega),
          storeAll_zero_of_le (by rw [List.length_take]; omega)]
    · rw [storeAll_zero_of_le (l := l.take (n - 1)) (by rw [List.length_take]; omega)]
      by_cases hj : n - 1 < l.length
      · rw [storeAll_zero_of_lt (by rw [List.length_take]; omega), List.getElem_take]
        exact (h _ (List.getElem?_eq_getElem hj)).symm
      · rw [storeAll_zero_of_le (by rw [List.length_take]; omega)]
    · rw [storeAll_zero_of_le (by rw [List.length_take]; omega),
        storeAll_zero_of_le (by rw [List.length_take]; omega)]

/-- `readLine` hands on no interruption. -/
theorem getLine_ne_interrupted {n : ℕ} : ∀ {ms ms' : List Mark} {tot : ℕ} {mem : Mem} {r : Ret},
    getLine n ms tot mem = some (r, ms') → r.ret ≠ .error .EINTR := by
  intro ms
  induction ms with
  | nil =>
    intro ms' tot mem r h
    cases h
  | cons m ms ih =>
    intro ms' tot mem r h
    cases m with
    | fail e =>
      rw [getLine] at h
      split at h
      · exact ih h
      · next he =>
        cases h
        exact fun h' => he (Except.error.inj h')
    | eof =>
      rw [getLine] at h
      split at h <;> cases h <;> rintro ⟨⟩
    | byte b =>
      rw [getLine] at h
      split at h
      · cases h
        rintro ⟨⟩
      · exact ih h

/-- **One call.** The two readers block together, or consume the same marks and leave the
same exactly when the call fits, or the call is interrupted, and only `readLineBuf` says so. -/
theorem lineBufSpec_call (ms : List Mark) {c : Call} (hc : Valid c) :
    (lineBufSpec ms c = none ∧ lineSpec ms c = none ∧ afterLine ms = [] ∧ CallFits ms c) ∨
      (∃ r₁ r₂, lineBufSpec ms c = some (r₂, afterLine ms) ∧
        lineSpec ms c = some (r₁, afterLine ms) ∧ (r₂ = r₁ ↔ CallFits ms c)) ∨
      ((∃ r, lineBufSpec ms c = some (r, afterLine ms) ∧
        ∀ r', lineSpec ms c = some r' → r'.1 ≠ r) ∧ ¬CallFits ms c) := by
  obtain ⟨mem, hmem⟩ := Option.ne_none_iff_exists'.mp hc.1
  obtain ⟨htext, hsplit, hend⟩ := lineText_split ms
  have hfits : CallFits ms c ↔ _ :=
    ⟨fun h => h mem hmem hc.2, fun h mem' hmem' _ => by
      rw [hmem, Option.some.injEq] at hmem'; exact hmem' ▸ h⟩
  have hline : lineSpec ms c = getLine c.n (ms.drop (lineText ms).length)
      (min (c.n - 1) (lineText ms).length)
      (storeAll mem 0 ((lineText ms).take (c.n - 1))) := by
    simp only [lineSpec, hmem, if_neg hc.2]
    conv_lhs => rw [hsplit]
    rw [getLine_text _ _ _ _ _ htext (Nat.zero_le _), Nat.zero_add, Nat.sub_zero]
  have hbuf : lineBufSpec ms c = getLineBuf c.n (ms.drop (lineText ms).length)
      (min c.n (lineText ms).length) (storeAll mem 0 ((lineText ms).take c.n)) := by
    simp only [lineBufSpec, hmem, if_neg hc.2]
    conv_lhs => rw [hsplit]
    rw [getLineBuf_text _ _ _ _ _ htext (Nat.zero_le _), Nat.zero_add, Nat.sub_zero]
  -- a text shorter than the buffer is stored whole by both
  have hsame : (lineText ms).length < c.n →
      storeAll mem 0 ((lineText ms).take (c.n - 1)) = storeAll mem 0 ((lineText ms).take c.n) := by
    intro hlt
    rw [List.take_of_length_le (by omega), List.take_of_length_le (by omega)]
  have hkeep : ∀ i, (lineText ms).length ≤ i →
      storeAll mem 0 ((lineText ms).take c.n) i = mem i := by
    intro i hi
    exact storeAll_zero_of_le (by rw [List.length_take]; omega)
  rcases hend with hnil | ⟨e, hfail⟩ | heof | hnl
  · refine Or.inl ⟨by rw [hbuf, hnil]; rfl, by rw [hline, hnil]; rfl, ?_, ?_⟩
    · rw [afterLine, ← List.drop_drop, hnil, List.drop_nil]
    · rw [hfits, hnil]
      trivial
  · by_cases he : e = .EINTR
    · refine Or.inr (Or.inr ⟨⟨_, by rw [hbuf, hfail]; rfl, ?_⟩, ?_⟩)
      · rintro ⟨r', ms'⟩ hr' rfl
        rw [hline] at hr'
        exact getLine_ne_interrupted hr' (congrArg Except.error he)
      · rw [hfits, hfail]
        exact fun h => h.1 he
    · refine Or.inr (Or.inl ⟨_, _, by rw [hbuf, hfail]; rfl, by
        rw [hline, hfail, getLine, if_neg he], ?_⟩)
      rw [hfits, hfail]
      simp only [Ret.mk.injEq, true_and, Option.some.injEq, ne_eq, he, not_false_eq_true]
      exact storeAll_take_eq_iff hc.2
  · have hiff := eof_agree_iff hc.2 (afterLine ms) hsame
    rw [← heof, ← hline, ← hbuf, hkeep _ (Nat.le_refl _), List.length_eq_zero_iff] at hiff
    rw [heof] at hline hbuf
    simp only [getLine, getLineBuf] at hline hbuf
    split at hline
    · refine Or.inr (Or.inl ⟨_, _, hbuf, hline, ?_⟩)
      rw [hfits, heof, ← hiff, hbuf, hline]
      simp only [Option.some.injEq, Prod.mk.injEq, and_true]
    · refine Or.inr (Or.inl ⟨_, _, hbuf, hline, ?_⟩)
      rw [hfits, heof, ← hiff, hbuf, hline]
      simp only [Option.some.injEq, Prod.mk.injEq, and_true]
  · have hiff := newline_agree_iff hc.2 (afterLine ms) hsame
    rw [← hnl, ← hline, ← hbuf, hkeep _ (Nat.le_succ _)] at hiff
    rw [hnl] at hline hbuf
    simp only [getLine, getLineBuf, if_true] at hline hbuf
    refine Or.inr (Or.inl ⟨_, _, hbuf, hline, ?_⟩)
    rw [hfits, hnl, ← hiff, hbuf, hline]
    simp only [Option.some.injEq, Prod.mk.injEq, and_true]

/-! ## Sequences of calls -/

theorem runFits_nil : ∀ calls : List Call, RunFits [] calls := by
  intro calls
  induction calls with
  | nil => trivial
  | cons c cs ih =>
    refine ⟨fun _ _ _ => trivial, ?_⟩
    rw [afterLine, List.drop_nil, ite_self]
    exact ih

/-- A call that both readers refuse. -/
theorem call_of_not_valid (ms : List Mark) {c : Call} (hc : ¬Valid c) :
    CallFits ms c ∧ ∃ r, lineBufSpec ms c = some (r, ms) ∧ lineSpec ms c = some (r, ms) := by
  refine ⟨fun mem hmem hn => absurd ⟨by rw [hmem]; exact nofun, hn⟩ hc, ?_⟩
  cases hb : c.buffer with
  | none => exact ⟨_, by simp only [lineBufSpec, hb]; rfl, by simp only [lineSpec, hb]⟩
  | some mem =>
    have hn : c.n = 0 := by
      by_contra hn
      exact hc ⟨by rw [hb]; exact nofun, hn⟩
    exact ⟨_, by simp only [lineBufSpec, hb, if_pos hn]; rfl,
      by simp only [lineSpec, hb, if_pos hn]⟩

/-- Calls that all fit cannot tell the two mark-level readers apart. -/
theorem callSeq_eq_of_runFits : ∀ (calls : List Call) (ms : List Mark), RunFits ms calls →
    callSeq lineBufSpec ms calls = callSeq lineSpec ms calls := by
  intro calls
  induction calls with
  | nil => intro ms _; rfl
  | cons c cs ih =>
    intro ms hrun
    rw [RunFits] at hrun
    by_cases hc : Valid c
    · rw [if_pos hc] at hrun
      rcases lineBufSpec_call ms hc with ⟨h₁, h₂, -, -⟩ | ⟨r₁, r₂, h₁, h₂, hiff⟩ | ⟨-, hno⟩
      · simp only [callSeq, h₁, h₂]
      · simp only [callSeq, h₁, h₂, hiff.mpr hrun.1, ih _ hrun.2]
      · exact absurd hrun.1 hno
    · rw [if_neg hc] at hrun
      obtain ⟨-, r, h₁, h₂⟩ := call_of_not_valid ms hc
      simp only [callSeq, h₁, h₂, ih ms hrun.2]

/-- Calls that cannot tell them apart all fit. -/
theorem runFits_of_callSeq_eq : ∀ (calls : List Call) (ms : List Mark),
    callSeq lineBufSpec ms calls = callSeq lineSpec ms calls → RunFits ms calls := by
  intro calls
  induction calls with
  | nil => intro ms _; trivial
  | cons c cs ih =>
    intro ms heq
    rw [RunFits]
    by_cases hc : Valid c
    · rw [if_pos hc]
      rcases lineBufSpec_call ms hc with ⟨-, -, hnil, hfits⟩ | ⟨r₁, r₂, h₁, h₂, hiff⟩ | ⟨⟨r, h₁, hne⟩, -⟩
      · rw [hnil]
        exact ⟨hfits, runFits_nil cs⟩
      · simp only [callSeq, h₁, h₂, List.cons.injEq, Option.some.injEq, hiff] at heq
        exact ⟨heq.1, ih _ heq.2⟩
      · -- the first results differ already
        cases h₂ : lineSpec ms c with
        | none =>
          simp only [callSeq, h₁, h₂, List.cons.injEq, reduceCtorEq, false_and] at heq
        | some r' =>
          simp only [callSeq, h₁, h₂, List.cons.injEq, Option.some.injEq] at heq
          exact absurd heq.1.symm (hne r' h₂)
    · obtain ⟨hfits, r, h₁, h₂⟩ := call_of_not_valid ms hc
      rw [if_neg hc]
      simp only [callSeq, h₁, h₂, List.cons.injEq, true_and] at heq
      exact ⟨hfits, ih ms heq⟩

/-- No call of the sequence wrote past the last place of its caller's buffer. -/
def NoOverrun (calls : List Call) (outs : List (Option Ret)) : Prop :=
  ∀ (k : ℕ) (c : Call) (r : Ret) (mem mem' : Mem), calls[k]? = some c →
    outs[k]? = some (some r) → c.buffer = some mem → r.buffer = some mem' →
      ∀ i, c.n ≤ i → mem' i = mem i

theorem getLineBuf_noOverrun (n : ℕ) : ∀ (ms ms' : List Mark) (cnt : ℕ) (mem : Mem) (r : Ret),
    cnt ≤ n → getLineBuf n ms cnt mem = some (r, ms') →
      ∃ mem', r.buffer = some mem' ∧ ∀ i, n ≤ i → mem' i = mem i := by
  intro ms
  induction ms with
  | nil => intro ms' cnt mem r _ h; exact nomatch h
  | cons m ms ih =>
    intro ms' cnt mem r hcnt h
    cases m with
    | fail e =>
      rw [getLineBuf, Option.some.injEq, Prod.mk.injEq] at h
      exact ⟨mem, by rw [← h.1], fun _ _ => rfl⟩
    | eof =>
      rw [getLineBuf, Option.some.injEq, Prod.mk.injEq] at h
      exact ⟨mem, by rw [← h.1], fun _ _ => rfl⟩
    | byte b =>
      -- the byte is stored below `n`, if at all
      have hmem : ∀ i, n ≤ i → (if cnt < n then store mem cnt b else mem) i = mem i := by
        intro i hi
        split
        · exact store_ne _ _ (by omega)
        · rfl
      simp only [getLineBuf] at h
      split at h
      · rw [Option.some.injEq, Prod.mk.injEq] at h
        exact ⟨_, by rw [← h.1], hmem⟩
      · obtain ⟨mem', hr, hmem'⟩ := ih ms' _ _ r (by split <;> omega) h
        exact ⟨mem', hr, fun i hi => by rw [hmem' i hi, hmem i hi]⟩

theorem callSeq_lineBufSpec_noOverrun : ∀ (calls : List Call) (ms : List Mark),
    NoOverrun calls (callSeq lineBufSpec ms calls) := by
  intro calls
  induction calls with
  | nil => intro ms k c r mem mem' hk; cases hk
  | cons c cs ih =>
    intro ms k c' r mem mem' hk hr hb hb' i hi
    rw [callSeq] at hr
    rcases hs : lineBufSpec ms c with _ | ⟨o, ms'⟩
    · rw [hs] at hr
      cases k with
      | zero => cases hr
      | succ k => cases hr
    · rw [hs] at hr
      cases k with
      | succ k => exact ih ms' k c' r mem mem' hk hr hb hb' i hi
      | zero =>
        rw [List.getElem?_cons_zero, Option.some.injEq] at hk
        rw [List.getElem?_cons_zero, Option.some.injEq, Option.some.injEq] at hr
        subst hk hr
        simp only [lineBufSpec, hb] at hs
        split at hs
        · rw [Option.some.injEq, Prod.mk.injEq] at hs
          rw [← hs.1, Option.some.injEq] at hb'
          rw [hb']
        · obtain ⟨mem'', hm, heq⟩ := getLineBuf_noOverrun c.n ms ms' 0 mem o (Nat.zero_le _) hs
          rw [hm, Option.some.injEq] at hb'
          rw [← hb', heq i hi]

/-- `readLineBuf` is used as `readLine` is: the same results, the same buffers, and no
write past the end of a buffer. -/
def BehavesAsReadLine (marks : List Mark) (chunks₁ chunks₂ : List ℕ) (rlbuf : ReadLineBuf)
    (calls : List Call) : Prop :=
  callSeq readLineBuf (readLineBufInit ⟨marks, chunks₁⟩ rlbuf) calls
      = callSeq readLine ⟨marks, chunks₂⟩ calls ∧
    NoOverrun calls (callSeq readLineBuf (readLineBufInit ⟨marks, chunks₁⟩ rlbuf) calls)

theorem behavesAsReadLine_iff {marks : List Mark} {chunks₁ chunks₂ : List ℕ}
    {rlbuf : ReadLineBuf} {calls : List Call} :
    BehavesAsReadLine marks chunks₁ chunks₂ rlbuf calls ↔
      callSeq lineBufSpec marks calls = callSeq lineSpec marks calls := by
  have hinit : (readLineBufInit ⟨marks, chunks₁⟩ rlbuf).pending = marks :=
    pending_of_len_le (Int.le_refl _)
  have hbuf := callSeq_eq_of_sim readLineBuf_sim calls _ marks hinit
  have hline := callSeq_eq_of_sim readLine_sim calls ⟨marks, chunks₂⟩ marks rfl
  rw [BehavesAsReadLine, hbuf, hline]
  exact and_iff_left (callSeq_lineBufSpec_noOverrun calls marks)

/-- **When `readLineBuf` can stand in for `readLine`.** For every stream, every chunking and
every sequence of calls: just if each call is not interrupted, fits its line, terminator
included, and finds the terminator already in place. -/
theorem readLineBuf_behavesAsReadLine (marks : List Mark) (chunks₁ chunks₂ : List ℕ)
    (rlbuf : ReadLineBuf) (calls : List Call) :
    BehavesAsReadLine marks chunks₁ chunks₂ rlbuf calls ↔ RunFits marks calls := by
  rw [behavesAsReadLine_iff]
  exact ⟨runFits_of_callSeq_eq calls marks, callSeq_eq_of_runFits calls marks⟩

/-- The line `"a\n"` into a buffer of ten bytes that held something: both return 2, and
only `readLine` stores a terminator after the two bytes. -/
theorem readLineBuf_no_terminator :
    ¬ BehavesAsReadLine [.byte 97, .byte newline, .eof] [] [] ⟨⟨[], []⟩, fun _ => 0, 0, 0⟩
      [⟨some fun _ => 120, 10⟩] := by
  rw [behavesAsReadLine_iff]
  intro h
  have hfit := (runFits_of_callSeq_eq _ _ h).1 (fun _ => 120) rfl (by decide)
  exact absurd hfit.2 (by decide)

end Tlpi.LineBuf
