/-
The sequence-number servers: `sockets/is_seqnum_sv.c`, `is_seqnum_v2_sv.c`, and the
rewrites `yis_seqnum_sv.c`, `exr5901_sv.c`, `exr5902_sv.c`.

## The service

A client sends a line with a number `N`, the server answers with a number `S`, and the
client owns the block `[S, S + N)`. The five programs run one loop: read a line into a
buffer of `INT_LEN` bytes, make an `int` of it, answer with the counter, add the `int` to
the counter. They differ in the line reader and in how they parse: two use `atoi()` and
skip what is not positive, three use `tryGetInt()` and skip what it refuses.

## The shape of the argument

The client speaks of the whole line it sent, the server of the part that its buffer held.
`serve_eq` says what a connection does in terms of that part, `window`, for every line
reader that is the mark-level reader: the descriptor, its chunks and the old contents of
the buffer disappear there. What is left is to compare the numeral of the line with the
numeral of its window (`grant_of_sound`, `grant_of_fits`), once for each parser, and an
induction over the connections that carries one fact, that every block handed out later
starts at the counter or above.
-/
import Mathlib.Data.Int.ConditionallyCompleteOrder
import Mathlib.Order.CompletePartialOrder
import Mathlib.Order.Interval.Set.Basic
import Mathlib.Order.Interval.Set.Disjoint
import Mathlib.Algebra.Order.BigOperators.Group.List
import Tlpi.Ybio
import Tlpi.TryGetNum

set_option autoImplicit false

namespace Tlpi.SeqNum

open Tlpi.Loop Tlpi.Descriptor Tlpi.ReadLine Tlpi.Ybio Tlpi.Strtol Tlpi.TryGetNum

abbrev INT_LEN : ℕ := 30

/-! ## The service loop -/

/-- An accepted connection: what the client sends, whether the answer can be written in
full, and what the server's locals still hold from earlier connections. -/
structure Conn where
  fd : Fd
  writeOk : Bool
  reqLenStr : Mem
  bio : ybio_t

/-- The C string in a buffer of the given size. -/
def cstring (mem : Mem) (size : ℕ) : List UInt8 := (slice mem 0 size).takeWhile (· ≠ nul)

/-- What became of a connection: the length it was granted, if its request was not skipped,
the number it was sent, if that could be written, and the counter before and after. -/
structure Served where
  conn : Conn
  before : BitVec 32
  reqLen : Option ℤ
  answer : Option ℤ
  after : BitVec 32

/-- Steps (14) and (15) of the loop. The answer is the `%d` reading of the counter; a
`write()` that fails is only reported, and the counter is advanced all the same. -/
def settle (seqNum : BitVec 32) (c : Conn) : Option ℤ → Served
  | none => { conn := c, before := seqNum, reqLen := none, answer := none, after := seqNum }
  | some reqLen =>
    { conn := c
      before := seqNum
      reqLen := some reqLen
      answer := if c.writeOk then some seqNum.toInt else none
      after := seqNum + BitVec.ofInt 32 reqLen }

@[simp] theorem settle_conn (seqNum : BitVec 32) (c : Conn) (req : Option ℤ) :
    (settle seqNum c req).conn = c := by
  cases req <;> rfl

@[simp] theorem settle_before (seqNum : BitVec 32) (c : Conn) (req : Option ℤ) :
    (settle seqNum c req).before = seqNum := by
  cases req <;> rfl

/-- One turn of the service loop, for a line reader and a parser of the request; `none`
when the reader waits for a client that sends nothing more. -/
def serve {σ : Type} (start : Conn → σ) (readl : σ → Call → Option (Ret × σ))
    (parse : List UInt8 → Option ℤ) (seqNum : BitVec 32) (c : Conn) : Option Served :=
  match readl (start c) { buffer := some c.reqLenStr, n := INT_LEN } with
  | none => none
  | some ({ ret := .ok (_ + 1), buffer := some mem }, _) =>
    some (settle seqNum c (parse (cstring mem INT_LEN)))
  | some _ => some (settle seqNum c none)

/-- `reqLen = atoi(reqLenStr); if (reqLen <= 0) ... continue;` -/
def atoiReqLen (s : List UInt8) : Option ℤ := if atoi s ≤ 0 then none else some (atoi s)

/-- `tryGetInt(reqLenStr, TGN_IGN_TRAILWS, "int-req-num", &reqLen)`, dropped on failure. -/
def tryReqLen (s : List UInt8) : Option ℤ :=
  let r := tryGetInt (some s) TGN_IGN_TRAILWS (some "int-req-num") (some 0)
  match r.status with
  | .TGN_FAILURE => none
  | .TGN_SUCCESS => r.out

def is_seqnum_sv : BitVec 32 → Conn → Option Served := serve Conn.fd readLine atoiReqLen

def is_seqnum_v2_sv : BitVec 32 → Conn → Option Served := serve Conn.fd readLine atoiReqLen

def yis_seqnum_sv : BitVec 32 → Conn → Option Served := serve Conn.fd yreadLine tryReqLen

def exr5901_sv : BitVec 32 → Conn → Option Served :=
  serve (fun c => ybio_init c.fd c.bio) ybio_readl tryReqLen

def exr5902_sv : BitVec 32 → Conn → Option Served :=
  serve (fun c => ybio_init c.fd c.bio) ybio_readl tryReqLen

/-- The connections a server has dealt with, in order. A connection that it waits on for
ever is the last. -/
def run (sv : BitVec 32 → Conn → Option Served) : BitVec 32 → List Conn → List Served
  | _, [] => []
  | seqNum, c :: cs =>
    match sv seqNum c with
    | none => [settle seqNum c none]
    | some e => e :: run sv e.after cs

/-! ## What a connection is granted -/

/-- What the buffer keeps of a line, as a C string. -/
def window (l : List UInt8) : List UInt8 := (l.take (INT_LEN - 1)).takeWhile (· ≠ nul)

/-- The length a parser makes of a connection's line. -/
def grant (parse : List UInt8 → Option ℤ) (c : Conn) : Option ℤ :=
  (nextLine c.fd.marks).bind fun p => parse (window p.1)

/-- The length the client asked for: the number its complete line starts with. -/
def requested (c : Conn) : Option ℤ :=
  (nextLine c.fd.marks).bind fun p => (scan 10 p.1).map Numeral.int

theorem takeWhile_nul (xs ys : List UInt8) :
    (xs ++ nul :: ys).takeWhile (· ≠ nul) = xs.takeWhile (· ≠ nul) := by
  induction xs with
  | nil => rfl
  | cons x xs ih =>
    rw [List.cons_append, List.takeWhile_cons, List.takeWhile_cons, ih]

/-- A placed line is read back as its window. -/
theorem cstring_placed (mem : Mem) (l : List UInt8) :
    ∃ m, (placed mem INT_LEN l).buffer = some m ∧ cstring m INT_LEN = window l := by
  refine ⟨_, rfl, ?_⟩
  set xs := l.take (INT_LEN - 1) with hxs
  have hlen : min (INT_LEN - 1) l.length = xs.length := by rw [hxs, List.length_take]
  have hle : xs.length < INT_LEN := by
    rw [← hlen]
    exact Nat.lt_of_le_of_lt (Nat.min_le_left _ _) (by decide)
  have hstart : slice (store (storeAll mem 0 xs) xs.length nul) 0 xs.length = xs := by
    conv_rhs => rw [← slice_storeAll mem 0 xs]
    refine List.map_congr_left fun j hj => ?_
    rw [List.mem_range] at hj
    rw [store_ne _ _ (by omega)]
  obtain ⟨k, hk⟩ : ∃ k, INT_LEN = xs.length + (k + 1) := ⟨INT_LEN - xs.length - 1, by omega⟩
  rw [hlen, cstring, window, ← hxs, hk, slice_add, hstart, Nat.zero_add, slice_succ, store_same,
    takeWhile_nul]

/-- **A connection, in terms of its window.** Whatever the line reader, as long as it is the
mark-level reader. -/
theorem serve_eq {σ : Type} {R : σ → List Mark → Prop} {start : Conn → σ}
    {readl : σ → Call → Option (Ret × σ)} {parse : List UInt8 → Option ℤ}
    (hsim : Simulates R readl lineSpec) (hstart : ∀ c, R (start c) c.fd.marks)
    (hparse : parse [] = none) (seqNum : BitVec 32) (c : Conn) :
    serve start readl parse seqNum c = some (settle seqNum c (grant parse c)) ∨
      (serve start readl parse seqNum c = none ∧ grant parse c = none) := by
  -- the reader and the mark-level reader are called with the same buffer
  have hcall := hsim (start c) c.fd.marks { buffer := some c.reqLenStr, n := INT_LEN } (hstart c)
  by_cases hline : ∃ l rest, nextLine c.fd.marks = some (l, rest) ∧ l ≠ []
  · obtain ⟨l, rest, hl, hne⟩ := hline
    -- a line that is not empty is delivered, cut to the buffer
    have htwo : 2 ≤ INT_LEN := by decide
    rw [lineSpec_nextLine hl hne rfl htwo] at hcall
    rcases hcall with ⟨-, h⟩ | ⟨o, s, t, hr, ho, -⟩
    · cases h
    · rw [Option.some.injEq, Prod.mk.injEq] at ho
      obtain ⟨m, hm, hstr⟩ := cstring_placed c.reqLenStr l
      have hpos : ∃ k, (placed c.reqLenStr INT_LEN l).ret = .ok (k + 1) := by
        have hpos := List.length_pos_iff.mpr hne
        refine ⟨min (INT_LEN - 1) l.length - 1, ?_⟩
        rw [placed, Nat.sub_add_cancel (Nat.le_min.mpr ⟨by decide, hpos⟩)]
      obtain ⟨k, hk⟩ := hpos
      have hgrant : grant parse c = parse (window l) := by rw [grant, hl]; rfl
      have ho' : o = ⟨.ok (k + 1), some m⟩ := by rw [← ho.1, ← hk, ← hm]
      refine Or.inl ?_
      rw [serve, hr, ho', hgrant, ← hstr]
  · have hno : ∀ l rest, nextLine c.fd.marks = some (l, rest) → l = [] := by
      intro l rest hl
      by_contra hne
      exact hline ⟨l, rest, hl, hne⟩
    have hgrant : grant parse c = none := by
      rw [grant]
      cases hl : nextLine c.fd.marks with
      | none => rfl
      | some p =>
        rw [Option.bind_some, hno p.1 p.2 hl]
        exact hparse
    -- no line: the call waits for ever, or it delivers no byte
    rcases lineSpec_no_line hno (c := { buffer := some c.reqLenStr, n := INT_LEN }) rfl with
      hnone | ⟨r, rest, hr, hret⟩
    · rw [hnone] at hcall
      rcases hcall with ⟨h, -⟩ | ⟨o, s, t, -, ho, -⟩
      · exact Or.inr ⟨by rw [serve, h], hgrant⟩
      · cases ho
    · rw [hr] at hcall
      rcases hcall with ⟨-, h⟩ | ⟨o, s, t, h, ho, -⟩
      · cases h
      · rw [Option.some.injEq, Prod.mk.injEq] at ho
        refine Or.inl ?_
        rw [hgrant, serve, h, ← ho.1]
        split
        · rename_i heq; cases heq
        · rename_i heq
          rw [Option.some.injEq, Prod.mk.injEq] at heq
          exact absurd (by rw [heq.1]) (hret _)
        · rfl

/-- A server that answers as `grant parse` says. -/
def Serves (sv : BitVec 32 → Conn → Option Served) (parse : List UInt8 → Option ℤ) : Prop :=
  ∀ seqNum c, sv seqNum c = some (settle seqNum c (grant parse c)) ∨
    (sv seqNum c = none ∧ grant parse c = none)

theorem is_seqnum_sv_serves : Serves is_seqnum_sv atoiReqLen :=
  serve_eq readLine_sim (fun _ => rfl) rfl

theorem is_seqnum_v2_sv_serves : Serves is_seqnum_v2_sv atoiReqLen :=
  serve_eq readLine_sim (fun _ => rfl) rfl

theorem yis_seqnum_sv_serves : Serves yis_seqnum_sv tryReqLen :=
  serve_eq yreadLine_sim (fun _ => rfl) rfl

theorem exr5901_sv_serves : Serves exr5901_sv tryReqLen :=
  serve_eq ybio_readl_sim (fun c => ⟨ybio_init_wf c.fd c.bio, ybio_init_pending c.fd c.bio⟩) rfl

theorem exr5902_sv_serves : Serves exr5902_sv tryReqLen :=
  serve_eq ybio_readl_sim (fun c => ⟨ybio_init_wf c.fd c.bio, ybio_init_pending c.fd c.bio⟩) rfl

/-- **The run rule.** What holds of the empty log, and of a log whose first entry is settled
by its grant whenever it holds of the rest, holds of every run. -/
theorem run_rule {sv : BitVec 32 → Conn → Option Served} {parse : List UInt8 → Option ℤ}
    (hsv : Serves sv parse) {P : BitVec 32 → List Served → Prop} (hnil : ∀ n, P n [])
    (hcons : ∀ n c tail, P (settle n c (grant parse c)).after tail →
      P n (settle n c (grant parse c) :: tail)) :
    ∀ (conns : List Conn) (n : BitVec 32), P n (run sv n conns) := by
  intro conns
  induction conns with
  | nil => intro n; exact hnil n
  | cons c cs ih =>
    intro n
    rcases hsv n c with h | ⟨h, hgrant⟩
    · simp only [run, h]
      exact hcons n c _ (ih _)
    · simp only [run, h]
      rw [← hgrant]
      exact hcons n c [] (hnil _)

theorem run_conn_mem {sv : BitVec 32 → Conn → Option Served} {parse : List UInt8 → Option ℤ}
    (hsv : Serves sv parse) : ∀ (conns : List Conn) (n : BitVec 32),
      ∀ e ∈ run sv n conns, e.conn ∈ conns := by
  intro conns
  induction conns with
  | nil => intro n e he; exact nomatch he
  | cons c cs ih =>
    intro n e he
    rcases hsv n c with h | ⟨h, -⟩
    · simp only [run, h, List.mem_cons] at he
      rcases he with rfl | he
      · rw [settle_conn]; exact List.mem_cons_self
      · exact List.mem_cons_of_mem _ (ih _ e he)
    · simp only [run, h, List.mem_singleton] at he
      rw [he, settle_conn]
      exact List.mem_cons_self

/-! ## The counter -/

/-- The counter advances by the length granted, as long as the sum is an `int`. -/
theorem toInt_add_ofInt {n : BitVec 32} {k : ℤ} (hk : INT_MIN ≤ k ∧ k ≤ INT_MAX)
    (hlo : INT_MIN ≤ n.toInt + k) (hhi : n.toInt + k ≤ INT_MAX) :
    (n + BitVec.ofInt 32 k).toInt = n.toInt + k := by
  have hk' : (BitVec.ofInt 32 k).toInt = k := toInt32_of_range hk.1 hk.2
  rw [BitVec.toInt_add, hk']
  simp only [INT_MIN, INT_MAX] at hlo hhi
  exact Int.bmod_eq_of_le (by omega) (by omega)

theorem INT_MIN_le_toInt (n : BitVec 32) : INT_MIN ≤ n.toInt := BitVec.le_toInt n

/-! ## Numerals and windows -/

theorem window_isPrefix (l : List UInt8) : window l <+: l :=
  (List.takeWhile_prefix _).trans (List.take_prefix _ _)

/-- The number of a window lies between zero and the number of the line. -/
theorem window_between {l : List UInt8} {w : Numeral} (h : scan 10 (window l) = some w) :
    ∃ m, scan 10 l = some m ∧ (m.int ≤ w.int ∧ w.int ≤ 0 ∨ 0 ≤ w.int ∧ w.int ≤ m.int) := by
  obtain ⟨m, hm, hneg, hbm, hbw, hdigits⟩ := scan_beginning (window_isPrefix l) h
  have hle : digitsValue 10 w.digits ≤ digitsValue 10 m.digits :=
    digitsValue_le_of_isPrefix (by decide) hdigits
  refine ⟨m, hm, ?_⟩
  rw [Numeral.int, Numeral.int, hneg, hbm, hbw]
  cases w.neg with
  | false =>
    refine Or.inr ?_
    simp only [Bool.false_eq_true, if_false]
    omega
  | true =>
    refine Or.inl ?_
    simp only [if_true]
    omega

/-- A numeral that ends inside the buffer is the numeral of the window. -/
theorem window_of_fits {l : List UInt8} {m : Numeral} (h : scan 10 l = some m)
    (hfit : numeralLength l m ≤ INT_LEN - 1) :
    ∃ w, scan 10 (window l) = some w ∧ w.int = m.int := by
  obtain ⟨r, hr⟩ := scan_cut h hfit
  exact ⟨_, hr, rfl⟩

/-! ## The `atoi()` servers -/

/-- **The condition on a connection.** The number its line starts with fits an `int`; if it
is positive, the numeral ends within the bytes the buffer keeps and the answer can be
written. -/
def Sound (c : Conn) : Prop :=
  ∀ p ∈ nextLine c.fd.marks, ∀ m ∈ scan 10 p.1,
    INT_MIN ≤ m.int ∧ m.int ≤ INT_MAX ∧
      (0 < m.int → numeralLength p.1 m ≤ INT_LEN - 1 ∧ c.writeOk = true)

instance (c : Conn) : Decidable (Sound c) := by
  unfold Sound
  infer_instance

theorem atoiReqLen_eq_some {s : List UInt8} {k : ℤ} :
    atoiReqLen s = some k ↔ 0 < k ∧ atoi s = k := by
  rw [atoiReqLen]
  split
  · rename_i h
    refine ⟨nofun, ?_⟩
    rintro ⟨hk, rfl⟩
    omega
  · rename_i h
    rw [Option.some.injEq]
    refine ⟨?_, And.right⟩
    rintro rfl
    exact ⟨not_le.mp h, rfl⟩

/-- **The server grants what the client asked for**, on a sound connection. -/
theorem grant_of_sound {c : Conn} (hc : Sound c) {k : ℤ} :
    grant atoiReqLen c = some k ↔ 0 < k ∧ requested c = some k := by
  rw [grant, requested]
  cases hl : nextLine c.fd.marks with
  | none => exact ⟨nofun, fun h => nomatch h.2⟩
  | some p =>
    rw [Option.bind_some, Option.bind_some, atoiReqLen_eq_some]
    refine and_congr_right fun hk => ?_
    constructor
    · intro hatoi
      cases hw : scan 10 (window p.1) with
      | none =>
        rw [atoi_of_scan_none hw] at hatoi
        omega
      | some w =>
        obtain ⟨m, hm, hbetween⟩ := window_between hw
        obtain ⟨hlo, hhi, hpos⟩ := hc p hl m hm
        -- what lies between zero and an `int` is an `int`
        have hmin : INT_MIN ≤ 0 := by decide
        have hmax : 0 ≤ INT_MAX := by decide
        have hint : atoi (window p.1) = w.int := atoi_of_scan hw (by omega) (by omega)
        obtain ⟨w', hw', hint'⟩ := window_of_fits hm (hpos (by omega)).1
        rw [hw, Option.some.injEq] at hw'
        rw [hm, Option.map_some, ← hint', ← hw', ← hint, hatoi]
    · intro hreq
      obtain ⟨m, hm, rfl⟩ := Option.map_eq_some_iff.mp hreq
      obtain ⟨hlo, hhi, hpos⟩ := hc p hl m hm
      obtain ⟨w, hw, hint⟩ := window_of_fits hm (hpos hk).1
      rw [atoi_of_scan hw (by omega) (by omega), hint]

theorem requested_le_of_sound {c : Conn} (hc : Sound c) {k : ℤ} (hk : 0 < k)
    (h : requested c = some k) : k ≤ INT_MAX ∧ c.writeOk = true := by
  rw [requested, Option.bind_eq_some_iff] at h
  obtain ⟨p, hl, hp⟩ := h
  obtain ⟨m, hm, rfl⟩ := Option.map_eq_some_iff.mp hp
  obtain ⟨-, hhi, hpos⟩ := hc p hl m hm
  exact ⟨hhi, (hpos hk).2⟩

/-- The blocks two clients believe they own have no number in common. -/
def Apart (e e' : Served) : Prop :=
  ∀ S S' N N', e.answer = some S → e'.answer = some S' → requested e.conn = some N →
    requested e'.conn = some N' → Disjoint (Set.Ico S (S + N)) (Set.Ico S' (S' + N'))

/-- The lengths the answered clients asked for, added up. -/
def granted (log : List Served) : ℤ :=
  (log.map fun e => if e.answer.isSome then (requested e.conn).getD 0 else 0).sum

/-- **The service's promise**, for the connections of a run: an answered client asked for a
positive length; no two blocks meet; without an answer the counter stays; and a positive
length that leaves the counter below `2^31` is not refused when the answer can be
written. -/
structure UniqueNumbers (log : List Served) : Prop where
  asked : ∀ e ∈ log, ∀ S, e.answer = some S → ∃ N, requested e.conn = some N ∧ 0 < N
  apart : log.Pairwise Apart
  unanswered : ∀ e ∈ log, e.answer = none → e.after = e.before
  notRefused : ∀ e ∈ log, ∀ N, requested e.conn = some N → 0 < N → e.before.toInt + N < 2 ^ 31 →
    e.conn.writeOk = true → e.answer = some e.before.toInt

/-- What the run lemma carries besides the promise: blocks start at the counter or above. -/
structure UniqueFrom (n : BitVec 32) (log : List Served) : Prop extends UniqueNumbers log where
  above : ∀ e ∈ log, ∀ S, e.answer = some S → n.toInt ≤ S

theorem granted_nonneg {log : List Served}
    (h : ∀ e ∈ log, ∀ S, e.answer = some S → ∃ N, requested e.conn = some N ∧ 0 < N) :
    0 ≤ granted log := by
  apply List.sum_nonneg
  intro x hx
  obtain ⟨e, he, rfl⟩ := List.mem_map.mp hx
  cases ha : e.answer with
  | none => exact le_refl _
  | some S =>
    obtain ⟨N, hN, hpos⟩ := h e he S ha
    rw [hN]
    exact hpos.le

/-- **One step.** A sound connection in front of a log that keeps the promise. -/
theorem uniqueFrom_cons {n : BitVec 32} {c : Conn} {tail : List Served} (hc : Sound c)
    (ht : UniqueFrom (settle n c (grant atoiReqLen c)).after tail)
    (hnext : ∀ k, grant atoiReqLen c = some k →
      (settle n c (grant atoiReqLen c)).after.toInt = n.toInt + k) :
    UniqueFrom n (settle n c (grant atoiReqLen c) :: tail) := by
  cases hg : grant atoiReqLen c with
  | none =>
    rw [hg] at ht
    refine ⟨⟨?_, ?_, ?_, ?_⟩, ?_⟩
    · rw [List.forall_mem_cons]
      exact ⟨fun S hS => (nomatch hS), ht.asked⟩
    · rw [List.pairwise_cons]
      refine ⟨fun e _ S S' N N' hS => (nomatch hS), ht.apart⟩
    · rw [List.forall_mem_cons]
      exact ⟨fun _ => rfl, ht.unanswered⟩
    · rw [List.forall_mem_cons]
      refine ⟨fun N hN hpos _ _ => ?_, ht.notRefused⟩
      rw [(grant_of_sound hc).mpr ⟨hpos, hN⟩] at hg
      exact nomatch hg
    · rw [List.forall_mem_cons]
      exact ⟨fun S hS => (nomatch hS), ht.above⟩
  | some k =>
    obtain ⟨hpos, hreq⟩ := (grant_of_sound hc).mp hg
    obtain ⟨-, hw⟩ := requested_le_of_sound hc hpos hreq
    have hafter := hnext k hg
    rw [hg] at ht hafter
    have hanswer : (settle n c (some k)).answer = some n.toInt := by rw [settle, hw]; rfl
    refine ⟨⟨?_, ?_, ?_, ?_⟩, ?_⟩
    · rw [List.forall_mem_cons]
      exact ⟨fun S _ => ⟨k, hreq, hpos⟩, ht.asked⟩
    · rw [List.pairwise_cons]
      refine ⟨?_, ht.apart⟩
      -- the first block ends where the counter now stands
      intro e he S S' N N' hS hS' hN hN'
      rw [hanswer, Option.some.injEq] at hS
      rw [show (settle n c (some k)).conn = c from rfl, hreq, Option.some.injEq] at hN
      have habove := ht.above e he S' hS'
      rw [hafter] at habove
      rw [Set.disjoint_left]
      rintro x ⟨-, hx⟩ ⟨hx', -⟩
      omega
    · rw [List.forall_mem_cons]
      refine ⟨fun hnone => ?_, ht.unanswered⟩
      rw [hanswer] at hnone
      exact nomatch hnone
    · rw [List.forall_mem_cons]
      exact ⟨fun N _ _ _ _ => hanswer, ht.notRefused⟩
    · rw [List.forall_mem_cons]
      constructor
      · intro S hS
        rw [hanswer, Option.some.injEq] at hS
        exact hS.le
      · intro e he S hS
        have habove := ht.above e he S hS
        rw [hafter] at habove
        omega

/-- The promise along a run of sound connections. That an answered client asked for a
positive length needs no bound on the counter, and is what makes the bound on the whole
run one on each of its ends. -/
theorem uniqueFrom_run {sv : BitVec 32 → Conn → Option Served} (hsv : Serves sv atoiReqLen)
    (conns : List Conn) (n : BitVec 32) (hsound : ∀ c ∈ conns, Sound c)
    (hroom : n.toInt + granted (run sv n conns) < 2 ^ 31) : UniqueFrom n (run sv n conns) := by
  have hlog : ∀ e ∈ run sv n conns, Sound e.conn :=
    fun e he => hsound _ (run_conn_mem hsv conns n e he)
  refine (run_rule hsv (P := fun n log => (∀ e ∈ log, Sound e.conn) →
    (∀ e ∈ log, ∀ S, e.answer = some S → ∃ N, requested e.conn = some N ∧ 0 < N) ∧
      (n.toInt + granted log < 2 ^ 31 → UniqueFrom n log)) ?_ ?_ conns n hlog).2 hroom
  · intro n _
    have hnone : ∀ e ∈ ([] : List Served), False := fun e he => List.not_mem_nil he
    exact ⟨fun e he => (hnone e he).elim, fun _ =>
      ⟨⟨fun e he => (hnone e he).elim, List.Pairwise.nil, fun e he => (hnone e he).elim,
        fun e he => (hnone e he).elim⟩, fun e he => (hnone e he).elim⟩⟩
  · intro n c tail ih hall
    rw [List.forall_mem_cons, settle_conn] at hall
    obtain ⟨hasked, hunique⟩ := ih hall.2
    -- what the rest of the run grants cannot be negative, so the bound on the whole run bounds
    -- the counter after this connection too
    have hnonneg := granted_nonneg hasked
    cases hg : grant atoiReqLen c with
    | none =>
      rw [hg] at hunique
      refine ⟨?_, fun hroom => ?_⟩
      · rw [List.forall_mem_cons]
        exact ⟨fun S hS => (nomatch hS), hasked⟩
      · have hsum : granted (settle n c none :: tail) = granted tail := by
          rw [granted, granted, List.map_cons, List.sum_cons]
          exact zero_add _
        rw [hsum] at hroom
        rw [← hg]
        refine uniqueFrom_cons hall.1 (hg ▸ hunique hroom) ?_
        intro k hk
        rw [hg] at hk
        exact nomatch hk
    | some k =>
      rw [hg] at hunique
      obtain ⟨hpos, hreq⟩ := (grant_of_sound hall.1).mp hg
      obtain ⟨hmax, hw⟩ := requested_le_of_sound hall.1 hpos hreq
      have hsum : granted (settle n c (some k) :: tail) = k + granted tail := by
        rw [granted, granted, List.map_cons, List.sum_cons, settle]
        simp only [hw, if_true, Option.isSome_some]
        rw [hreq, Option.getD_some]
      refine ⟨?_, fun hroom => ?_⟩
      · rw [List.forall_mem_cons]
        exact ⟨fun S _ => ⟨k, hreq, hpos⟩, hasked⟩
      · rw [hsum] at hroom
        have hmin := INT_MIN_le_toInt n
        have hnext : (settle n c (some k)).after.toInt = n.toInt + k := by
          apply toInt_add_ofInt
          · exact ⟨le_trans (by decide) hpos.le, hmax⟩
          · omega
          · simp only [INT_MAX]; omega
        rw [← hg]
        refine uniqueFrom_cons hall.1 (hg ▸ hunique (by rw [hnext]; omega)) ?_
        intro k' hk'
        rw [hg, Option.some.injEq] at hk'
        rw [hg, hnext, hk']

/-- **Sound connections get unique numbers**, from both servers. -/
theorem is_seqnum_unique_numbers (init : BitVec 32) (conns : List Conn)
    (hsound : ∀ c ∈ conns, Sound c) :
    (init.toInt + granted (run is_seqnum_sv init conns) < 2 ^ 31 →
        UniqueNumbers (run is_seqnum_sv init conns)) ∧
      (init.toInt + granted (run is_seqnum_v2_sv init conns) < 2 ^ 31 →
        UniqueNumbers (run is_seqnum_v2_sv init conns)) :=
  ⟨fun hroom => (uniqueFrom_run is_seqnum_sv_serves conns init hsound hroom).toUniqueNumbers,
    fun hroom => (uniqueFrom_run is_seqnum_v2_sv_serves conns init hsound hroom).toUniqueNumbers⟩

/-- A client that sends some bytes and closes, to a server whose locals are zeroed. -/
def sends (bs : List UInt8) : Conn :=
  { fd := { marks := bs.map .byte ++ [.eof], chunks := [] }
    writeOk := true
    reqLenStr := fun _ => 0
    bio := { bio_fd := { marks := [], chunks := [] }, bio_buf := fun _ => 0, bio_ptr := 0, bio_cnt := 0 } }

/-- Requests `"3\n"`, `"-4\n"` and `" 5x\n"`. -/
theorem is_seqnum_unique_numbers_three :
    UniqueNumbers (run is_seqnum_sv 7 [sends [51, 10], sends [45, 52, 10], sends [32, 53, 120, 10]]) ∧
    UniqueNumbers
      (run is_seqnum_v2_sv 7 [sends [51, 10], sends [45, 52, 10], sends [32, 53, 120, 10]]) := by
  have h := is_seqnum_unique_numbers 7 [sends [51, 10], sends [45, 52, 10], sends [32, 53, 120, 10]]
    (by decide)
  exact ⟨h.1 (by decide), h.2 (by decide)⟩

/-- Twenty-eight blanks and `"12\n"`, then `"1\n"`: the buffer keeps the `1` of the first
line, and the second client is answered inside the first one's block. -/
theorem is_seqnum_cut_numeral : ¬ ∀ (init : BitVec 32) (conns : List Conn),
    init.toInt + granted (run is_seqnum_sv init conns) < 2 ^ 31 →
      UniqueNumbers (run is_seqnum_sv init conns) := by
  intro h
  have hu := h 0 [sends (List.replicate 28 32 ++ [49, 50, 10]), sends [49, 10]] (by decide +kernel)
  have hpair := List.pairwise_iff_getElem.mp hu.apart 0 1 (by decide +kernel) (by decide +kernel)
    (by decide)
  have hdisj := hpair 0 1 12 1 (by decide +kernel) (by decide +kernel) (by decide +kernel)
    (by decide +kernel)
  have hfirst : (1 : ℤ) ∈ Set.Ico (0 : ℤ) (0 + 12) := ⟨by decide, by decide⟩
  exact Set.disjoint_left.mp hdisj hfirst ⟨by decide, by decide⟩

/-! ## The `tryGetInt()` servers -/

/-- **The condition on a connection**, with the counter at `n`: the request is one that
`tryGetInt()` refuses, or the line asks for a positive length whose numeral ends within
the bytes the buffer keeps and that the counter has room for. -/
def Safe (n : BitVec 32) (c : Conn) : Prop :=
  ∀ p ∈ nextLine c.fd.marks,
    (tryGetInt (some (window p.1)) TGN_IGN_TRAILWS (some "int-req-num") (some 0)).status
        = .TGN_FAILURE ∨
      ∃ m ∈ scan 10 p.1, 0 < m.int ∧ numeralLength p.1 m ≤ INT_LEN - 1 ∧
        n.toInt + m.int ≤ INT_MAX

instance (n : BitVec 32) (c : Conn) : Decidable (Safe n c) := by
  unfold Safe
  infer_instance

/-- A request that is not dropped is granted as asked, with a sum that is an `int`. -/
theorem grant_of_safe {n : BitVec 32} {c : Conn} (hc : Safe n c) {k : ℤ}
    (h : grant tryReqLen c = some k) :
    requested c = some k ∧ 0 < k ∧ k ≤ INT_MAX ∧ n.toInt + k ≤ INT_MAX := by
  rw [grant, Option.bind_eq_some_iff] at h
  obtain ⟨p, hl, hp⟩ := h
  rw [tryReqLen] at hp
  rcases hc p hl with hfail | ⟨m, hm, hpos, hfit, hroom⟩
  · simp only [hfail, reduceCtorEq] at hp
  · cases hst : (tryGetInt (some (window p.1)) TGN_IGN_TRAILWS (some "int-req-num")
        (some 0)).status with
    | TGN_FAILURE => simp only [hst, reduceCtorEq] at hp
    | TGN_SUCCESS =>
      obtain ⟨w, hw, -, hmax, hout⟩ := tryGetInt_success hst
      simp only [hst, hout, Option.map_some, Option.some.injEq] at hp
      -- the numeral of the window is the numeral of the line
      obtain ⟨w', hw', hint⟩ := window_of_fits hm hfit
      rw [show baseOf TGN_IGN_TRAILWS = 10 from rfl, hw', Option.some.injEq] at hw
      have hk : m.int = k := by rw [← hint, hw, hp]
      refine ⟨?_, hk ▸ hpos, ?_, hk ▸ hroom⟩
      · rw [requested, hl, Option.bind_some, hm, Option.map_some, hk]
      · rw [← hp]
        exact hmax

/-- **The promise of the rewrites**: starting numbers go up, no two blocks meet, the sum
that becomes the new counter is an `int`, and a dropped request leaves the counter. -/
structure OrderedNumbers (log : List Served) : Prop where
  increasing : log.Pairwise fun e e' => ∀ S S', e.answer = some S → e'.answer = some S' → S < S'
  apart : log.Pairwise Apart
  noOverflow : ∀ e ∈ log, ∀ k, e.reqLen = some k →
    INT_MIN ≤ e.before.toInt + k ∧ e.before.toInt + k ≤ INT_MAX
  dropped : ∀ e ∈ log, e.reqLen = none → e.after = e.before

structure OrderedFrom (n : BitVec 32) (log : List Served) : Prop extends OrderedNumbers log where
  above : ∀ e ∈ log, ∀ S, e.answer = some S → n.toInt ≤ S

theorem settle_answer {n : BitVec 32} {c : Conn} {k S : ℤ}
    (h : (settle n c (some k)).answer = some S) : n.toInt = S := by
  rw [settle] at h
  split at h
  · exact Option.some.inj h
  · exact nomatch h

/-- **One step.** A safe connection in front of a log that keeps the promise. -/
theorem orderedFrom_cons {n : BitVec 32} {c : Conn} {tail : List Served} (hc : Safe n c)
    (ht : OrderedFrom (settle n c (grant tryReqLen c)).after tail) :
    OrderedFrom n (settle n c (grant tryReqLen c) :: tail) := by
  cases hg : grant tryReqLen c with
  | none =>
    rw [hg] at ht
    refine ⟨⟨?_, ?_, ?_, ?_⟩, ?_⟩
    · rw [List.pairwise_cons]
      exact ⟨fun e _ S S' hS => (nomatch hS), ht.increasing⟩
    · rw [List.pairwise_cons]
      exact ⟨fun e _ S S' N N' hS => (nomatch hS), ht.apart⟩
    · rw [List.forall_mem_cons]
      exact ⟨fun k hk => (nomatch hk), ht.noOverflow⟩
    · rw [List.forall_mem_cons]
      exact ⟨fun _ => rfl, ht.dropped⟩
    · rw [List.forall_mem_cons]
      exact ⟨fun S hS => (nomatch hS), ht.above⟩
  | some k =>
    obtain ⟨hreq, hpos, hmax, hroom⟩ := grant_of_safe hc hg
    rw [hg] at ht
    have hmin := INT_MIN_le_toInt n
    have hafter : (settle n c (some k)).after.toInt = n.toInt + k :=
      toInt_add_ofInt ⟨le_trans (by decide) hpos.le, hmax⟩ (by omega) hroom
    -- every later answer starts at or after the end of this one
    have habove : ∀ e ∈ tail, ∀ S, e.answer = some S → n.toInt + k ≤ S := by
      intro e he S hS
      rw [← hafter]
      exact ht.above e he S hS
    refine ⟨⟨?_, ?_, ?_, ?_⟩, ?_⟩
    · rw [List.pairwise_cons]
      refine ⟨fun e he S S' hS hS' => ?_, ht.increasing⟩
      have hlater := habove e he S' hS'
      have hfirst := settle_answer hS
      omega
    · rw [List.pairwise_cons]
      refine ⟨fun e he S S' N N' hS hS' hN hN' => ?_, ht.apart⟩
      have hlater := habove e he S' hS'
      have hfirst := settle_answer hS
      rw [settle_conn, hreq, Option.some.injEq] at hN
      rw [Set.disjoint_left]
      rintro x ⟨-, hx⟩ ⟨hx', -⟩
      omega
    · rw [List.forall_mem_cons]
      refine ⟨fun k' hk' => ?_, ht.noOverflow⟩
      rw [settle, Option.some.injEq] at hk'
      rw [← hk', settle_before]
      exact ⟨by omega, hroom⟩
    · rw [List.forall_mem_cons]
      exact ⟨fun hnone => (nomatch hnone), ht.dropped⟩
    · rw [List.forall_mem_cons]
      refine ⟨fun S hS => (settle_answer hS).le, fun e he S hS => ?_⟩
      have hlater := habove e he S hS
      omega

theorem orderedNumbers_run {sv : BitVec 32 → Conn → Option Served} (hsv : Serves sv tryReqLen)
    (conns : List Conn) (n : BitVec 32) (hsafe : ∀ e ∈ run sv n conns, Safe e.before e.conn) :
    OrderedNumbers (run sv n conns) := by
  refine (run_rule hsv (P := fun n log => (∀ e ∈ log, Safe e.before e.conn) → OrderedFrom n log)
    ?_ ?_ conns n hsafe).toOrderedNumbers
  · intro n _
    have hnone : ∀ e ∈ ([] : List Served), False := fun e he => List.not_mem_nil he
    exact ⟨⟨List.Pairwise.nil, List.Pairwise.nil, fun e he => (hnone e he).elim,
      fun e he => (hnone e he).elim⟩, fun e he => (hnone e he).elim⟩
  · intro n c tail ih hall
    rw [List.forall_mem_cons, settle_conn, settle_before] at hall
    exact orderedFrom_cons hall.1 (ih hall.2)

/-- **Safe connections get increasing, disjoint blocks**, from all three rewrites. -/
theorem rewrites_ordered_numbers (init : BitVec 32) (conns : List Conn) :
    ((∀ e ∈ run yis_seqnum_sv init conns, Safe e.before e.conn) →
        OrderedNumbers (run yis_seqnum_sv init conns)) ∧
      ((∀ e ∈ run exr5901_sv init conns, Safe e.before e.conn) →
        OrderedNumbers (run exr5901_sv init conns)) ∧
      ((∀ e ∈ run exr5902_sv init conns, Safe e.before e.conn) →
        OrderedNumbers (run exr5902_sv init conns)) :=
  ⟨orderedNumbers_run yis_seqnum_sv_serves conns init,
    orderedNumbers_run exr5901_sv_serves conns init,
    orderedNumbers_run exr5902_sv_serves conns init⟩

/-- Requests `"3\n"`, `"x\n"` and `" 5 \n"`. -/
theorem rewrites_ordered_numbers_three :
    OrderedNumbers (run yis_seqnum_sv 7 [sends [51, 10], sends [120, 10], sends [32, 53, 32, 10]]) ∧
    OrderedNumbers (run exr5901_sv 7 [sends [51, 10], sends [120, 10], sends [32, 53, 32, 10]]) ∧
    OrderedNumbers (run exr5902_sv 7 [sends [51, 10], sends [120, 10], sends [32, 53, 32, 10]]) := by
  obtain ⟨h₁, h₂, h₃⟩ := rewrites_ordered_numbers 7
    [sends [51, 10], sends [120, 10], sends [32, 53, 32, 10]]
  exact ⟨h₁ (by decide +kernel), h₂ (by decide +kernel), h₃ (by decide +kernel)⟩

/-- `"0\n"` twice, or `"-1\n"` twice, or `"1\n"` at the largest counter: nothing asks
`tryGetInt()` for a positive number, as the `atoi()` servers do by hand. -/
theorem yis_seqnum_zero_request : ¬ ∀ (init : BitVec 32) (conns : List Conn),
    OrderedNumbers (run yis_seqnum_sv init conns) := by
  intro h
  have hpair := List.pairwise_iff_getElem.mp
    (h 0 [sends [48, 10], sends [48, 10]]).increasing 0 1 (by decide +kernel) (by decide +kernel)
    (by decide)
  exact absurd (hpair 0 0 (by decide +kernel) (by decide +kernel)) (by decide)

end Tlpi.SeqNum
