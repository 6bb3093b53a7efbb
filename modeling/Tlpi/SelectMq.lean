/-
`altio/select_mq.c`: System V message queues made available to `select()`, by one child
process per queue that copies every message to a pipe.

## What is modelled

Messages are sent to any queue at any time. Each child takes the first message of its
queue and writes one record, `struct pbuf` up to the end of the body, in one atomic step
(a record is shorter than `PIPE_BUF`); it blocks while the pipe has no room. The parent's
loop is taken call by call, down to the bytes: the first `read()` fills the fixed part of
its `pmsg`, the fields are the bytes of `pmsg` at their offsets (LP64, little-endian), and
the second `read()` asks for as many bytes as the field `len` says. The parent holds the
write end of the pipe too, so that the pipe itself never ends.

`sent` is a history variable; `shown` is the arguments of the parent's `printf()` calls.

## The shape of the argument

Between two turns of the parent's loop the pipe holds whole records. `Holds` says what it
holds in the middle of a turn, where the first record has been taken apart, so that at
every moment the bytes in the pipe and in `pmsg` stand for a list of records. For each queue
the messages displayed, in transit, in the child's hands and in the queue then make up the
messages sent, in order (`Inv.account`).

A message of no bytes breaks the framing at one place: `read(pfd[0], &pmsg.mtext, 0)`
returns 0, which the parent takes for the end of the pipe.
-/
import Mathlib.Logic.Function.Basic
import Mathlib.Data.List.Nodup
import Mathlib.Algebra.BigOperators.Group.Finset.Basic
import Mathlib.Algebra.Order.BigOperators.Group.Finset
import Tlpi.Descriptor
import Tlpi.LittleEndian
import Tlpi.Transition

set_option autoImplicit false

namespace Tlpi.SelectMq

open Tlpi.Descriptor Tlpi.LittleEndian Tlpi.Transition

abbrev MAX_MTEXT : ℕ := 400

/-- `offsetof(struct pbuf, mtext)` -/
abbrev mtextOffset : ℕ := 16

/-! ## Records -/

structure Message where
  mtype : BitVec 64
  mtext : List UInt8
deriving Repr, DecidableEq

/-- What a child writes: `pmsg`, up to `wlen = offsetof(struct pbuf, mtext) + msgLen`. -/
def pbuf (msqid : BitVec 32) (m : Message) : List UInt8 :=
  toBytes 4 msqid.toNat ++ (toBytes 4 m.mtext.length ++ (toBytes 8 m.mtype.toNat ++ m.mtext))

/-- The fields of a `struct pbuf` in memory. -/
def msqidOf (pmsg : Mem) : BitVec 32 := BitVec.ofNat 32 (ofBytes (slice pmsg 0 4))

def lenOf (pmsg : Mem) : BitVec 32 := BitVec.ofNat 32 (ofBytes (slice pmsg 4 4))

def mtypeOf (pmsg : Mem) : BitVec 64 := BitVec.ofNat 64 (ofBytes (slice pmsg 8 8))

/-! ## The program -/

/-- Where the parent stands in its loop. -/
inductive Pc where
  | select
  /-- Reading from the terminal, with or without the pipe in `readfds` as well. -/
  | terminal (pipeReady : Bool)
  | header
  | body
  | display
  /-- "EOF on pipe" -/
  | failed
deriving Repr, DecidableEq

/-- The arguments of `printf("MQ %d: type=%ld length=%d <%.*s>\n", ...)`. -/
structure Shown where
  msqid : BitVec 32
  mtype : BitVec 64
  len : BitVec 32
  mtext : List UInt8
deriving Repr, DecidableEq

/-- The queues; the message that each child has taken and not written; the pipe; and the
parent. -/
structure State where
  queues : BitVec 32 → List Message
  held : ℕ → Option Message
  pipe : List UInt8
  pc : Pc
  pmsg : Mem
  shown : List Shown
  sent : BitVec 32 → List Message

/-- `msgsnd()`, by whoever it is. -/
def send (s : State) (msqid : BitVec 32) (m : Message) : Option State :=
  if m.mtext.length ≤ MAX_MTEXT ∧ 0 < m.mtype.toInt then
    some { s with
      queues := Function.update s.queues msqid (s.queues msqid ++ [m])
      sent := Function.update s.sent msqid (s.sent msqid ++ [m]) }
  else none

/-- One call of the child with number `j`, which monitors `msqid`: `msgrcv()`, then
`write()`. -/
def childMon (capacity : ℕ) (s : State) (j : ℕ) (msqid : BitVec 32) : Option State :=
  match s.held j with
  | none =>
    match s.queues msqid with
    | [] => none
    | m :: rest =>
      some { s with
        queues := Function.update s.queues msqid rest, held := Function.update s.held j (some m) }
  | some m =>
    if s.pipe.length + (pbuf msqid m).length ≤ capacity then
      some { s with pipe := s.pipe ++ pbuf msqid m, held := Function.update s.held j none }
    else none

/-- `select()`: it returns when the terminal or the pipe is ready. -/
def select (s : State) (tty : Bool) : Option State :=
  if s.pc = .select ∧ (tty = true ∨ s.pipe ≠ []) then
    some { s with pc := if tty then .terminal (!s.pipe.isEmpty) else .header }
  else none

/-- The parent's other calls. -/
def parent (s : State) : Option State :=
  match s.pc with
  | .terminal pipeReady => some { s with pc := if pipeReady then .header else .select }
  | .header =>
    if s.pipe = [] then none
    else some { s with
      pmsg := storeAll s.pmsg 0 (s.pipe.take mtextOffset), pipe := s.pipe.drop mtextOffset, pc := .body }
  | .body =>
    let count := ((lenOf s.pmsg).signExtend 64).toNat
    if count = 0 then some { s with pc := .failed }
    else if s.pipe = [] then none
    else some { s with
      pmsg := storeAll s.pmsg mtextOffset (s.pipe.take count), pipe := s.pipe.drop count, pc := .display }
  | .display =>
    let shown : Shown :=
      { msqid := msqidOf s.pmsg, mtype := mtypeOf s.pmsg, len := lenOf s.pmsg
        mtext := slice s.pmsg mtextOffset (lenOf s.pmsg).toNat }
    some { s with shown := s.shown ++ [shown], pc := .select }
  | _ => none

inductive Act where
  | send (msqid : BitVec 32) (m : Message)
  | child (j : ℕ)
  | select (tty : Bool)
  | parent
deriving Repr, DecidableEq

def step (capacity : ℕ) (argv : List (BitVec 32)) (s : State) : Act → Option State
  | .send msqid m => send s msqid m
  | .child j => (argv[j]?).bind fun msqid => childMon capacity s j msqid
  | .select tty => select s tty
  | .parent => parent s

/-- `select_mq argv...`, with a pipe of the given capacity. -/
def selectMq (capacity : ℕ) (argv : List (BitVec 32)) : System State Act where
  init s := (∀ q, s.queues q = []) ∧ (∀ j, s.held j = none) ∧ s.pipe = [] ∧ s.pc = .select ∧
    s.shown = [] ∧ ∀ q, s.sent q = []
  step := step capacity argv

/-! ## Records in transit -/

theorem length_pbuf (q : BitVec 32) (m : Message) : (pbuf q m).length = mtextOffset + m.mtext.length := by
  simp only [pbuf, List.length_append, length_toBytes, mtextOffset]
  omega

/-- The fixed part of the record of a message is in `pmsg`. -/
structure HasHeader (pmsg : Mem) (q : BitVec 32) (m : Message) : Prop where
  msqid : msqidOf pmsg = q
  len : lenOf pmsg = BitVec.ofNat 32 m.mtext.length
  mtype : mtypeOf pmsg = m.mtype

/-- The first `read()`: the fixed part arrives, the body stays in the pipe. -/
theorem hasHeader_storeAll (pmsg : Mem) (q : BitVec 32) (m : Message) (rest : List UInt8)
    (hm : m.mtext.length ≤ MAX_MTEXT) :
    HasHeader (storeAll pmsg 0 ((pbuf q m ++ rest).take mtextOffset)) q m ∧
      (pbuf q m ++ rest).drop mtextOffset = m.mtext ++ rest := by
  set fixed := toBytes 4 q.toNat ++ (toBytes 4 m.mtext.length ++ toBytes 8 m.mtype.toNat) with hfixed
  have hlen : fixed.length = mtextOffset := by
    simp only [hfixed, List.length_append, length_toBytes, mtextOffset]
  have hsplit : pbuf q m ++ rest = fixed ++ (m.mtext ++ rest) := by
    simp only [pbuf, hfixed, List.append_assoc]
  have htake : (pbuf q m ++ rest).take mtextOffset = fixed := by
    rw [hsplit, ← hlen, List.take_left]
  have hdrop : (pbuf q m ++ rest).drop mtextOffset = m.mtext ++ rest := by
    rw [hsplit, ← hlen, List.drop_left]
  -- each field is the bytes at its offset
  have hfield : ∀ o k, o + k ≤ mtextOffset →
      slice (storeAll pmsg 0 fixed) o k = (fixed.drop o).take k := by
    intro o k hok
    rw [slice_storeAll_part pmsg (Nat.zero_le o) (by rw [Nat.sub_zero, hlen]; exact hok), Nat.sub_zero]
  have h₀ : slice (storeAll pmsg 0 fixed) 0 4 = toBytes 4 q.toNat := by
    rw [hfield 0 4 (by decide), List.drop_zero, hfixed, List.take_left' (length_toBytes 4 _)]
  have h₄ : slice (storeAll pmsg 0 fixed) 4 4 = toBytes 4 m.mtext.length := by
    rw [hfield 4 4 (by decide), hfixed, List.drop_left' (length_toBytes 4 _),
      List.take_left' (length_toBytes 4 _)]
  have h₈ : slice (storeAll pmsg 0 fixed) 8 8 = toBytes 8 m.mtype.toNat := by
    have hsecond : fixed.drop 8 = toBytes 8 m.mtype.toNat := by
      rw [show (8 : ℕ) = 4 + 4 from rfl, ← List.drop_drop, hfixed,
        List.drop_left' (length_toBytes 4 _), List.drop_left' (length_toBytes 4 _)]
    rw [hfield 8 8 (by decide), hsecond, List.take_of_length_le (by rw [length_toBytes])]
  rw [htake]
  refine ⟨⟨?_, ?_, ?_⟩, hdrop⟩
  · rw [msqidOf, h₀]
    exact ofNat_ofBytes_toBytes (by decide) q
  · rw [lenOf, h₄, ofBytes_toBytes, Nat.mod_eq_of_lt]
    exact Nat.lt_of_le_of_lt hm (by decide)
  · rw [mtypeOf, h₈]
    exact ofNat_ofBytes_toBytes (by decide) m.mtype

/-- The second `read()` leaves the fixed part alone. -/
theorem HasHeader.storeAll {pmsg : Mem} {q : BitVec 32} {m : Message} (h : HasHeader pmsg q m)
    (bs : List UInt8) : HasHeader (storeAll pmsg mtextOffset bs) q m := by
  refine ⟨?_, ?_, ?_⟩
  · rw [msqidOf, slice_storeAll_before _ _ (by decide)]
    exact h.msqid
  · rw [lenOf, slice_storeAll_before _ _ (by decide)]
    exact h.len
  · rw [mtypeOf, slice_storeAll_before _ _ (by decide)]
    exact h.mtype

/-- The count of the second `read()`. -/
theorem HasHeader.count {pmsg : Mem} {q : BitVec 32} {m : Message} (h : HasHeader pmsg q m)
    (hm : m.mtext.length ≤ MAX_MTEXT) :
    ((lenOf pmsg).signExtend 64).toNat = m.mtext.length ∧ (lenOf pmsg).toNat = m.mtext.length := by
  have hlt : m.mtext.length < 2 ^ 31 := Nat.lt_of_le_of_lt hm (by decide)
  have hnat : (lenOf pmsg).toNat = m.mtext.length := by
    rw [h.len, BitVec.toNat_ofNat, Nat.mod_eq_of_lt (by omega)]
  refine ⟨?_, hnat⟩
  have hmsb : (lenOf pmsg).msb = false := by
    rw [BitVec.msb_eq_false_iff_two_mul_lt, hnat]
    omega
  rw [BitVec.signExtend_eq_setWidth_of_msb_false hmsb, BitVec.toNat_setWidth, hnat,
    Nat.mod_eq_of_lt (by omega)]

/-- Records, back to back. -/
def bytesOf (recs : List (BitVec 32 × Message)) : List UInt8 :=
  (recs.map fun r => pbuf r.1 r.2).flatten

/-- **What is in transit**: the records that the bytes in the pipe, and in `pmsg` in the
middle of a turn, stand for. -/
def Holds (s : State) (recs : List (BitVec 32 × Message)) : Prop :=
  match s.pc with
  | .select | .terminal false => s.pipe = bytesOf recs
  | .terminal true | .header => recs ≠ [] ∧ s.pipe = bytesOf recs
  | .body => ∃ q m rest, recs = (q, m) :: rest ∧ HasHeader s.pmsg q m ∧ s.pipe = m.mtext ++ bytesOf rest
  | .display => ∃ q m rest, recs = (q, m) :: rest ∧ HasHeader s.pmsg q m ∧
      slice s.pmsg mtextOffset m.mtext.length = m.mtext ∧ s.pipe = bytesOf rest
  | .failed => False

/-- What the parent should display for a message. -/
def showing (q : BitVec 32) (m : Message) : Shown :=
  { msqid := q, mtype := m.mtype, len := BitVec.ofNat 32 m.mtext.length, mtext := m.mtext }

/-- The messages of one queue that have been displayed, in order. -/
def State.displayed (s : State) (q : BitVec 32) : List Shown :=
  s.shown.filter fun e => decide (e.msqid = q)

/-- The messages of one queue among the records. -/
def ofQueue (q : BitVec 32) (recs : List (BitVec 32 × Message)) : List Message :=
  (recs.filter fun r => decide (r.1 = q)).map Prod.snd

/-- A body that the framing carries. -/
def Carried (m : Message) : Prop := m.mtext ≠ [] ∧ m.mtext.length ≤ MAX_MTEXT

/-- **The condition on a step**: no message of no bytes is sent. -/
def NonEmpty (_ : State) : Act → Prop
  | .send _ m => m.mtext ≠ []
  | _ => True

instance (s : State) : (a : Act) → Decidable (NonEmpty s a)
  | .send _ m => inferInstanceAs (Decidable (m.mtext ≠ []))
  | .child _ => .isTrue trivial
  | .select _ => .isTrue trivial
  | .parent => .isTrue trivial

structure Inv (argv : List (BitVec 32)) (s : State) (recs : List (BitVec 32 × Message)) : Prop where
  holds : Holds s recs
  queued : ∀ q, ∀ m ∈ s.queues q, Carried m
  taken : ∀ j, ∀ m ∈ s.held j, Carried m
  inTransit : ∀ r ∈ recs, Carried r.2 ∧ r.1 ∈ argv
  named : ∀ e ∈ s.shown, e.msqid ∈ argv
  /-- Of each queue, nothing is lost, nothing comes twice, nothing overtakes. -/
  account : ∀ (j : ℕ) (q : BitVec 32), argv[j]? = some q →
    (s.sent q).map (showing q)
      = s.displayed q ++ (ofQueue q recs ++ ((s.held j).toList ++ s.queues q)).map (showing q)

theorem bytesOf_cons (q : BitVec 32) (m : Message) (rest : List (BitVec 32 × Message)) :
    bytesOf ((q, m) :: rest) = pbuf q m ++ bytesOf rest := by
  rw [bytesOf, List.map_cons, List.flatten_cons]
  rfl

theorem bytesOf_append (recs recs' : List (BitVec 32 × Message)) :
    bytesOf (recs ++ recs') = bytesOf recs ++ bytesOf recs' := by
  rw [bytesOf, List.map_append, List.flatten_append]
  rfl

theorem bytesOf_eq_nil {recs : List (BitVec 32 × Message)} (h : bytesOf recs = []) : recs = [] := by
  cases recs with
  | nil => rfl
  | cons r rest =>
    rw [bytesOf_cons, List.append_eq_nil_iff] at h
    have hlen := length_pbuf r.1 r.2
    rw [h.1, List.length_nil] at hlen
    simp only [mtextOffset] at hlen
    omega

/-- A record written behind the others, wherever the parent is in its turn. -/
theorem Holds.write {s : State} {recs : List (BitVec 32 × Message)} (h : Holds s recs)
    (q : BitVec 32) (m : Message) (held : ℕ → Option Message) :
    Holds { s with pipe := s.pipe ++ pbuf q m, held := held } (recs ++ [(q, m)]) := by
  have hlast : bytesOf [(q, m)] = pbuf q m := by
    rw [bytesOf_cons]
    exact List.append_nil _
  unfold Holds at h ⊢
  cases hpc : s.pc with
  | select =>
    simp only [hpc] at h ⊢
    rw [h, bytesOf_append, hlast]
  | terminal ready =>
    cases ready with
    | false =>
      simp only [hpc] at h ⊢
      rw [h, bytesOf_append, hlast]
    | true =>
      simp only [hpc] at h ⊢
      exact ⟨List.append_ne_nil_of_left_ne_nil h.1 _, by rw [h.2, bytesOf_append, hlast]⟩
  | header =>
    simp only [hpc] at h ⊢
    exact ⟨List.append_ne_nil_of_left_ne_nil h.1 _, by rw [h.2, bytesOf_append, hlast]⟩
  | body =>
    simp only [hpc] at h ⊢
    obtain ⟨q', m', rest, rfl, hh, hp⟩ := h
    refine ⟨q', m', rest ++ [(q, m)], rfl, hh, ?_⟩
    rw [hp, bytesOf_append, hlast, List.append_assoc]
  | display =>
    simp only [hpc] at h ⊢
    obtain ⟨q', m', rest, rfl, hh, hb, hp⟩ := h
    refine ⟨q', m', rest ++ [(q, m)], rfl, hh, hb, ?_⟩
    rw [hp, bytesOf_append, hlast]
  | failed => simp only [hpc] at h

theorem ofQueue_append (q : BitVec 32) (recs recs' : List (BitVec 32 × Message)) :
    ofQueue q (recs ++ recs') = ofQueue q recs ++ ofQueue q recs' := by
  rw [ofQueue, List.filter_append, List.map_append]
  rfl

theorem ofQueue_same (q : BitVec 32) (m : Message) (rest : List (BitVec 32 × Message)) :
    ofQueue q ((q, m) :: rest) = m :: ofQueue q rest := by
  rw [ofQueue, List.filter_cons_of_pos (by rw [decide_eq_true_eq]), List.map_cons]
  rfl

theorem ofQueue_ne {q q' : BitVec 32} (h : q' ≠ q) (m : Message)
    (rest : List (BitVec 32 × Message)) : ofQueue q ((q', m) :: rest) = ofQueue q rest := by
  rw [ofQueue, List.filter_cons_of_neg (by rw [decide_eq_true_eq]; exact h)]
  rfl

/-! ## Every step keeps the account -/

section

variable {argv : List (BitVec 32)} {s s' : State} {recs : List (BitVec 32 × Message)}

theorem inv_send {q : BitVec 32} {m : Message} (h : Inv argv s recs) (hm : m.mtext ≠ [])
    (hs : send s q m = some s') : Inv argv s' recs := by
  unfold send at hs
  split at hs
  · rename_i hok
    rw [Option.some.injEq] at hs
    subst hs
    refine ⟨h.holds, ?_, h.taken, h.inTransit, h.named, ?_⟩
    · intro q' m' hm'
      by_cases hq : q' = q
      · subst hq
        simp only [Function.update_self, List.mem_append, List.mem_singleton] at hm'
        rcases hm' with hm' | rfl
        · exact h.queued q' m' hm'
        · exact ⟨hm, hok.1⟩
      · simp only [Function.update_of_ne hq] at hm'
        exact h.queued q' m' hm'
    · intro j q' hj
      have hacc := h.account j q' hj
      by_cases hq : q' = q
      · subst hq
        simp only [Function.update_self, List.map_append, hacc, List.append_assoc]
        rfl
      · simp only [Function.update_of_ne hq]
        exact hacc
  · exact nomatch hs

/-- Distinct children have distinct queues. -/
theorem queue_ne {j j' : ℕ} {q q' : BitVec 32} (hnodup : argv.Nodup) (hj : argv[j]? = some q)
    (hj' : argv[j']? = some q') (hne : j' ≠ j) : q' ≠ q := by
  rintro rfl
  have hlt := (List.getElem?_eq_some_iff.mp hj').1
  exact hne ((List.getElem?_inj hlt hnodup).mp (hj'.trans hj.symm))

/-- A child takes the first message of its queue; no other child has that queue. -/
theorem inv_receive {j : ℕ} {q : BitVec 32} {m : Message} {rest : List Message}
    (hnodup : argv.Nodup) (h : Inv argv s recs) (hj : argv[j]? = some q) (hheld : s.held j = none)
    (hq : s.queues q = m :: rest) :
    Inv argv { s with
      queues := Function.update s.queues q rest, held := Function.update s.held j (some m) } recs := by
  refine ⟨h.holds, ?_, ?_, h.inTransit, h.named, ?_⟩
  · intro q' m' hm'
    apply h.queued q'
    by_cases hqq : q' = q
    · subst hqq
      simp only [Function.update_self] at hm'
      rw [hq]
      exact List.mem_cons_of_mem _ hm'
    · simp only [Function.update_of_ne hqq] at hm'
      exact hm'
  · intro j' m' hm'
    by_cases hjj : j' = j
    · subst hjj
      simp only [Function.update_self, Option.mem_some_iff] at hm'
      rw [← hm']
      exact h.queued q m (hq ▸ List.mem_cons_self)
    · simp only [Function.update_of_ne hjj] at hm'
      exact h.taken j' m' hm'
  · intro j' q' hj'
    have hacc := h.account j' q' hj'
    by_cases hjj : j' = j
    · subst hjj
      obtain rfl : q' = q := Option.some.inj (hj'.symm.trans hj)
      simp only [Function.update_self, Option.toList_some]
      rw [hacc, hheld, hq]
      rfl
    · have hqq : q' ≠ q := queue_ne hnodup hj hj' hjj
      simp only [Function.update_of_ne hqq, Function.update_of_ne hjj]
      exact hacc

/-- A child writes its record. -/
theorem inv_write {j : ℕ} {q : BitVec 32} {m : Message} (hnodup : argv.Nodup)
    (h : Inv argv s recs) (hj : argv[j]? = some q) (hheld : s.held j = some m) :
    Inv argv { s with pipe := s.pipe ++ pbuf q m, held := Function.update s.held j none }
      (recs ++ [(q, m)]) := by
  refine ⟨h.holds.write q m _, h.queued, ?_, ?_, h.named, ?_⟩
  · intro j' m' hm'
    by_cases hjj : j' = j
    · subst hjj
      simp only [Function.update_self] at hm'
      exact nomatch hm'
    · simp only [Function.update_of_ne hjj] at hm'
      exact h.taken j' m' hm'
  · intro r hr
    rw [List.mem_append, List.mem_singleton] at hr
    rcases hr with hr | rfl
    · exact h.inTransit r hr
    · exact ⟨h.taken j m hheld, List.mem_of_getElem? hj⟩
  · intro j' q' hj'
    have hacc := h.account j' q' hj'
    rw [ofQueue_append]
    by_cases hjj : j' = j
    · subst hjj
      obtain rfl : q' = q := Option.some.inj (hj'.symm.trans hj)
      simp only [Function.update_self]
      rw [hacc, hheld, ofQueue_same]
      simp only [ofQueue, List.filter_nil, List.map_nil, Option.toList_some, Option.toList_none,
        List.nil_append, List.append_assoc]
      rfl
    · have hqq : q ≠ q' := (queue_ne hnodup hj hj' hjj).symm
      simp only [Function.update_of_ne hjj]
      rw [ofQueue_ne hqq]
      simp only [ofQueue, List.filter_nil, List.map_nil, List.append_nil]
      exact hacc

theorem inv_select {tty : Bool} (h : Inv argv s recs) (hs : select s tty = some s') :
    Inv argv s' recs := by
  unfold select at hs
  split at hs
  · rename_i hok
    rw [Option.some.injEq] at hs
    subst hs
    refine ⟨?_, h.queued, h.taken, h.inTransit, h.named, h.account⟩
    have hpipe : s.pipe = bytesOf recs := by
      have hh := h.holds
      simp only [Holds, hok.1] at hh
      exact hh
    have hne : s.pipe ≠ [] → recs ≠ [] := by
      rintro hp rfl
      exact hp hpipe
    cases tty with
    | false => exact ⟨hne (hok.2.resolve_left Bool.false_ne_true), hpipe⟩
    | true =>
      cases hp : s.pipe.isEmpty with
      | true =>
        simp only [Holds, if_true, Bool.not_true]
        exact hpipe
      | false =>
        simp only [Holds, if_true, Bool.not_false]
        refine ⟨hne ?_, hpipe⟩
        intro hnil
        rw [hnil] at hp
        exact nomatch hp
  · exact nomatch hs

/-- The first record is displayed: what was in transit is shown. -/
theorem inv_display {q : BitVec 32} {m : Message} {rest : List (BitVec 32 × Message)}
    (h : Inv argv s ((q, m) :: rest)) (hpipe : s.pipe = bytesOf rest) :
    Inv argv { s with shown := s.shown ++ [showing q m], pc := .select } rest := by
  refine ⟨hpipe, h.queued, h.taken, fun r hr => h.inTransit r (List.mem_cons_of_mem _ hr), ?_, ?_⟩
  · intro e he
    rw [List.mem_append, List.mem_singleton] at he
    rcases he with he | rfl
    · exact h.named e he
    · exact (h.inTransit (q, m) List.mem_cons_self).2
  · intro j q' hj
    have hacc := h.account j q' hj
    by_cases hq : q = q'
    · subst hq
      rw [hacc, ofQueue_same]
      simp only [State.displayed, List.filter_append, List.append_assoc]
      rw [List.filter_cons_of_pos (by rw [decide_eq_true_eq]; rfl)]
      rfl
    · rw [hacc, ofQueue_ne hq]
      simp only [State.displayed, List.filter_append]
      rw [List.filter_cons_of_neg (by rw [decide_eq_true_eq]; exact hq), List.filter_nil,
        List.append_nil]

theorem inv_parent (h : Inv argv s recs) (hs : parent s = some s') : ∃ recs', Inv argv s' recs' := by
  have hh := h.holds
  unfold Holds at hh
  cases hpc : s.pc with
  | select => simp only [parent, hpc, reduceCtorEq] at hs
  | terminal ready =>
    simp only [parent, hpc, Option.some.injEq] at hs
    subst hs
    refine ⟨recs, ?_, h.queued, h.taken, h.inTransit, h.named, h.account⟩
    cases ready with
    | false =>
      simp only [hpc] at hh
      exact hh
    | true =>
      simp only [hpc] at hh
      exact hh
  | header =>
    simp only [hpc] at hh
    obtain ⟨hne, hpipe⟩ := hh
    -- the header of the first record is read, whole: a record is written in one piece
    obtain ⟨⟨q, m⟩, rest, rfl⟩ := List.exists_cons_of_ne_nil hne
    have hm := (h.inTransit (q, m) List.mem_cons_self).1
    obtain ⟨hheader, hdrop⟩ := hasHeader_storeAll s.pmsg q m (bytesOf rest) hm.2
    rw [bytesOf_cons] at hpipe
    simp only [parent, hpc] at hs
    split at hs
    · exact nomatch hs
    · rw [Option.some.injEq] at hs
      subst hs
      refine ⟨(q, m) :: rest, ?_, h.queued, h.taken, h.inTransit, h.named, h.account⟩
      simp only [Holds, hpipe]
      exact ⟨q, m, rest, rfl, hheader, hdrop⟩
  | body =>
    simp only [hpc] at hh
    obtain ⟨q, m, rest, rfl, hheader, hpipe⟩ := hh
    have hm := (h.inTransit (q, m) List.mem_cons_self).1
    have hcount := (hheader.count hm.2).1
    simp only [parent, hpc, hcount] at hs
    -- a message has at least one byte, so the second read is made
    rw [if_neg (fun h0 => hm.1 (List.length_eq_zero_iff.mp h0))] at hs
    split at hs
    · exact nomatch hs
    · rw [Option.some.injEq] at hs
      subst hs
      refine ⟨(q, m) :: rest, ?_, h.queued, h.taken, h.inTransit, h.named, h.account⟩
      simp only [Holds, hpipe, List.take_left, List.drop_left]
      refine ⟨q, m, rest, rfl, hheader.storeAll _, ?_, rfl⟩
      exact slice_storeAll s.pmsg mtextOffset m.mtext
  | display =>
    simp only [hpc] at hh
    obtain ⟨q, m, rest, rfl, hheader, hbody, hpipe⟩ := hh
    have hm := (h.inTransit (q, m) List.mem_cons_self).1
    simp only [parent, hpc, Option.some.injEq] at hs
    refine ⟨rest, ?_⟩
    -- what is displayed is the record, field by field
    rw [← hs, hheader.msqid, hheader.mtype, (hheader.count hm.2).2, hbody, hheader.len]
    exact inv_display h hpipe
  | failed => simp only [hpc] at hh

/-- A step of a child: it takes a message from its queue, or writes the one that it holds. -/
theorem child_cases {capacity j : ℕ} (hs : step capacity argv s (.child j) = some s') :
    ∃ q, argv[j]? = some q ∧
      ((∃ m rest, s.held j = none ∧ s.queues q = m :: rest ∧ s' = { s with
          queues := Function.update s.queues q rest, held := Function.update s.held j (some m) }) ∨
        ∃ m, s.held j = some m ∧
          s' = { s with pipe := s.pipe ++ pbuf q m, held := Function.update s.held j none }) := by
  simp only [step, Option.bind_eq_some_iff] at hs
  obtain ⟨q, hj, hs⟩ := hs
  refine ⟨q, hj, ?_⟩
  unfold childMon at hs
  cases hheld : s.held j with
  | none =>
    left
    simp only [hheld] at hs
    cases hq : s.queues q with
    | nil => simp only [hq, reduceCtorEq] at hs
    | cons m rest =>
      simp only [hq, Option.some.injEq] at hs
      exact ⟨m, rest, rfl, rfl, hs.symm⟩
  | some m =>
    right
    simp only [hheld] at hs
    split at hs
    · exact ⟨m, rfl, (Option.some.inj hs).symm⟩
    · exact nomatch hs

theorem inv_step {capacity : ℕ} {a : Act} (hnodup : argv.Nodup) (h : Inv argv s recs)
    (ha : NonEmpty s a) (hs : step capacity argv s a = some s') : ∃ recs', Inv argv s' recs' := by
  cases a with
  | send q m => exact ⟨recs, inv_send h ha hs⟩
  | select tty => exact ⟨recs, inv_select h hs⟩
  | parent => exact inv_parent h hs
  | child j =>
    obtain ⟨q, hj, ⟨m, rest, hheld, hq, rfl⟩ | ⟨m, hheld, rfl⟩⟩ := child_cases hs
    · exact ⟨recs, inv_receive hnodup h hj hheld hq⟩
    · exact ⟨_, inv_write hnodup h hj hheld⟩

end

theorem inv_of_reaches {capacity : ℕ} {argv : List (BitVec 32)} (hnodup : argv.Nodup) {s : State}
    (h : Reaches (selectMq capacity argv) NonEmpty s) : ∃ recs, Inv argv s recs := by
  refine h.invariant (I := fun s => ∃ recs, Inv argv s recs) ?_ ?_
  · rintro s ⟨hq, hheld, hpipe, hpc, hshown, hsent⟩
    refine ⟨[], ?_, ?_, ?_, nofun, ?_, ?_⟩
    · simp only [Holds, hpc]
      exact hpipe
    · intro q m hm
      rw [hq q] at hm
      exact nomatch hm
    · intro j m hm
      rw [hheld j] at hm
      exact nomatch hm
    · rw [hshown]
      exact nofun
    · intro j q _
      rw [hsent q, hheld j, hq q, State.displayed, hshown]
      rfl
  · rintro s a s' ⟨recs, hi⟩ ha hs
    exact inv_step hnodup hi ha hs

/-! ## Progress -/

/-- How far the parent is from the end of its turn. -/
def Pc.weight : Pc → ℕ
  | .select | .terminal _ => 3
  | .header => 2
  | .body => 5
  | .display => 4
  | .failed => 0

/-- The part of the work that lies with the child with number `j`. -/
def childWork (argv : List (BitVec 32)) (queues : BitVec 32 → List Message)
    (held : ℕ → Option Message) (j : ℕ) : ℕ :=
  2001 * ((argv[j]?).elim 0 fun q => (queues q).length) + 2000 * (held j).toList.length

/-- What lies with the children and in front of them. -/
def backlog (argv : List (BitVec 32)) (queues : BitVec 32 → List Message)
    (held : ℕ → Option Message) : ℕ :=
  ∑ j ∈ Finset.range argv.length, childWork argv queues held j

/-- What is left to do for the messages sent so far: the children's part, the bytes in the
pipe, and the parent's turn. -/
def left (argv : List (BitVec 32)) (s : State) : ℕ :=
  backlog argv s.queues s.held + 4 * s.pipe.length + s.pc.weight

theorem left_receive {argv : List (BitVec 32)} {s : State} {j : ℕ} {q : BitVec 32} {m : Message}
    {rest : List Message} (hj : argv[j]? = some q) (hheld : s.held j = none)
    (hq : s.queues q = m :: rest) :
    left argv { s with
        queues := Function.update s.queues q rest, held := Function.update s.held j (some m) }
      < left argv s := by
  have hlt : j < argv.length := (List.getElem?_eq_some_iff.mp hj).1
  simp only [left, backlog]
  apply Nat.add_lt_add_right
  apply Nat.add_lt_add_right
  refine Finset.sum_lt_sum ?_ ⟨j, Finset.mem_range.mpr hlt, ?_⟩
  · intro i _
    -- a queue named twice would get shorter for the other child too
    have hqueue : (argv[i]?).elim 0 (fun q' => (Function.update s.queues q rest q').length)
        ≤ (argv[i]?).elim 0 fun q' => (s.queues q').length := by
      cases argv[i]? with
      | none => exact Nat.le_refl _
      | some q' =>
        simp only [Option.elim_some]
        by_cases hqq : q' = q
        · rw [hqq, Function.update_self, hq, List.length_cons]
          omega
        · rw [Function.update_of_ne hqq]
    by_cases hij : i = j
    · subst hij
      simp only [childWork, hj, Option.elim_some, Function.update_self, hq, hheld,
        List.length_cons, Option.toList_some, Option.toList_none, List.length_nil]
      omega
    · simp only [childWork, Function.update_of_ne hij]
      omega
  · simp only [childWork, hj, Option.elim_some, Function.update_self, hq, hheld, List.length_cons,
      Option.toList_some, Option.toList_none, List.length_nil]
    omega

theorem left_write {argv : List (BitVec 32)} {s : State} {j : ℕ} {q : BitVec 32} {m : Message}
    (hj : argv[j]? = some q) (hheld : s.held j = some m) (hm : m.mtext.length ≤ MAX_MTEXT) :
    left argv { s with pipe := s.pipe ++ pbuf q m, held := Function.update s.held j none }
      < left argv s := by
  have hmem : j ∈ Finset.range argv.length :=
    Finset.mem_range.mpr (List.getElem?_eq_some_iff.mp hj).1
  have hothers : ∑ i ∈ (Finset.range argv.length).erase j,
        childWork argv s.queues (Function.update s.held j none) i
      = ∑ i ∈ (Finset.range argv.length).erase j, childWork argv s.queues s.held i := by
    refine Finset.sum_congr rfl fun i hi => ?_
    simp only [childWork, Function.update_of_ne (Finset.ne_of_mem_erase hi)]
  have hown : childWork argv s.queues (Function.update s.held j none) j + 2000
      = childWork argv s.queues s.held j := by
    simp only [childWork, Function.update_self, hheld, Option.toList_none, Option.toList_some,
      List.length_nil, List.length_cons]
  have hsum : backlog argv s.queues (Function.update s.held j none) + 2000
      = backlog argv s.queues s.held := by
    have hafter := Finset.add_sum_erase (Finset.range argv.length)
      (childWork argv s.queues (Function.update s.held j none)) hmem
    have hbefore := Finset.add_sum_erase (Finset.range argv.length)
      (childWork argv s.queues s.held) hmem
    rw [backlog, backlog]
    omega
  have hpipe : (s.pipe ++ pbuf q m).length = s.pipe.length + (mtextOffset + m.mtext.length) := by
    rw [List.length_append, length_pbuf]
  simp only [left, hpipe, mtextOffset]
  simp only [MAX_MTEXT] at hm
  omega

/-- A turn on the pipe is a finite number of steps, each of which brings its end nearer. -/
theorem left_parent (argv : List (BitVec 32)) {s s' : State} (hs : parent s = some s') :
    left argv s' ≤ left argv s ∧ ((∀ r, s.pc ≠ .terminal r) → left argv s' < left argv s) := by
  cases hpc : s.pc with
  | select => simp only [parent, hpc, reduceCtorEq] at hs
  | failed => simp only [parent, hpc, reduceCtorEq] at hs
  | terminal ready =>
    simp only [parent, hpc, Option.some.injEq] at hs
    subst hs
    refine ⟨?_, fun h => absurd rfl (h ready)⟩
    simp only [left, hpc]
    cases ready <;> simp only [Pc.weight, if_true, Bool.false_eq_true, if_false] <;> omega
  | header =>
    simp only [parent, hpc] at hs
    split at hs
    · exact nomatch hs
    · rename_i hne
      have hpos := List.length_pos_iff.mpr hne
      rw [Option.some.injEq] at hs
      subst hs
      have hlt : left argv { s with
          pmsg := storeAll s.pmsg 0 (s.pipe.take mtextOffset), pipe := s.pipe.drop mtextOffset,
          pc := .body } < left argv s := by
        simp only [left, hpc, Pc.weight, List.length_drop, mtextOffset]
        omega
      exact ⟨hlt.le, fun _ => hlt⟩
  | body =>
    simp only [parent, hpc] at hs
    split at hs
    · rw [Option.some.injEq] at hs
      subst hs
      -- a message with no text: the program fails, and that is its last step
      have hlt : left argv { s with pc := .failed } < left argv s := by
        simp only [left, hpc, Pc.weight]
        omega
      exact ⟨hlt.le, fun _ => hlt⟩
    · rename_i hcount
      split at hs
      · exact nomatch hs
      · rename_i hne
        have hpos := List.length_pos_iff.mpr hne
        rw [Option.some.injEq] at hs
        have hlt : left argv s' < left argv s := by
          rw [← hs]
          simp only [left, hpc, Pc.weight, List.length_drop]
          omega
        exact ⟨hlt.le, fun _ => hlt⟩
  | display =>
    simp only [parent, hpc, Option.some.injEq] at hs
    have hlt : left argv s' < left argv s := by
      rw [← hs]
      simp only [left, hpc, Pc.weight]
      omega
    exact ⟨hlt.le, fun _ => hlt⟩

/-- A step on account of the terminal. -/
def Act.onTerminal (s : State) : Act → Prop
  | .select tty => tty = true
  | .parent => ∃ r, s.pc = .terminal r
  | _ => False

/-- **Progress**: no step but a new message adds to what is left to do, and every step that
is not on account of the terminal takes from it. -/
theorem left_step {capacity : ℕ} {argv : List (BitVec 32)} {s s' : State}
    {recs : List (BitVec 32 × Message)} {a : Act} (hi : Inv argv s recs)
    (ha : ∀ q m, a ≠ .send q m) (hs : step capacity argv s a = some s') :
    left argv s' ≤ left argv s ∧ (¬a.onTerminal s → left argv s' < left argv s) := by
  cases a with
  | send q m => exact absurd rfl (ha q m)
  | select tty =>
    simp only [step, select] at hs
    split at hs
    · rename_i hok
      rw [Option.some.injEq] at hs
      subst hs
      cases tty with
      | true =>
        refine ⟨?_, fun h => absurd rfl h⟩
        simp only [left, hok.1, Pc.weight, if_true]
        exact Nat.le_refl _
      | false =>
        have hlt : left argv { s with pc := .header } < left argv s := by
          simp only [left, hok.1, Pc.weight]
          omega
        exact ⟨hlt.le, fun _ => hlt⟩
    · exact nomatch hs
  | parent =>
    obtain ⟨hle, hlt⟩ := left_parent argv hs
    exact ⟨hle, fun h => hlt fun r hr => h ⟨r, hr⟩⟩
  | child j =>
    have hlt : left argv s' < left argv s := by
      obtain ⟨q, hj, ⟨m, rest, hheld, hq, rfl⟩ | ⟨m, hheld, rfl⟩⟩ := child_cases hs
      · exact left_receive hj hheld hq
      · exact left_write hj hheld (hi.taken j m hheld).2
    exact ⟨hlt.le, fun _ => hlt⟩

/-- Nothing but the terminal or a new message can move the program. -/
def Quiet (capacity : ℕ) (argv : List (BitVec 32)) (s : State) : Prop :=
  (∀ j, step capacity argv s (.child j) = none) ∧ step capacity argv s (.select false) = none ∧
    step capacity argv s .parent = none

/-- When the program is quiet, every message sent has been displayed. -/
theorem Inv.complete {capacity : ℕ} {argv : List (BitVec 32)} {s : State}
    {recs : List (BitVec 32 × Message)} (hi : Inv argv s recs)
    (hcap : mtextOffset + MAX_MTEXT ≤ capacity) (hquiet : Quiet capacity argv s) {q : BitVec 32}
    (hq : q ∈ argv) : s.displayed q = (s.sent q).map (showing q) := by
  obtain ⟨hchild, hselect, hparent⟩ := hquiet
  have hh := hi.holds
  unfold Holds at hh
  -- nothing is in the pipe, or the parent could go on
  have hrecs : recs = [] ∧ s.pipe = [] := by
    cases hpc : s.pc with
    | select =>
      simp only [hpc] at hh
      have hnil : s.pipe = [] := by
        by_contra hne
        simp only [step, select] at hselect
        rw [if_pos ⟨hpc, Or.inr hne⟩] at hselect
        exact nomatch hselect
      exact ⟨bytesOf_eq_nil (hh.symm.trans hnil), hnil⟩
    | terminal ready => simp only [step, parent, hpc, reduceCtorEq] at hparent
    | display => simp only [step, parent, hpc, reduceCtorEq] at hparent
    | header =>
      simp only [hpc] at hh
      have hne : s.pipe ≠ [] := fun hnil => hh.1 (bytesOf_eq_nil (hh.2.symm.trans hnil))
      simp only [step, parent, hpc, if_neg hne, reduceCtorEq] at hparent
    | body =>
      simp only [hpc] at hh
      obtain ⟨q', m, rest, rfl, hheader, hpipe⟩ := hh
      have hm := (hi.inTransit (q', m) List.mem_cons_self).1
      have hne : s.pipe ≠ [] := fun hnil => hm.1 (List.append_eq_nil_iff.mp (hpipe.symm.trans hnil)).1
      simp only [step, parent, hpc, (hheader.count hm.2).1, if_neg hne] at hparent
      split at hparent <;> exact nomatch hparent
    | failed => simp only [hpc] at hh
  obtain ⟨rfl, hpipe⟩ := hrecs
  obtain ⟨j, hlt, hj⟩ := List.mem_iff_getElem.mp hq
  have hj' : argv[j]? = some q := List.getElem?_eq_some_iff.mpr ⟨hlt, hj⟩
  have hstuck := hchild j
  simp only [step, hj', Option.bind_some, childMon] at hstuck
  -- the child holds no message: an empty pipe has room for any
  have hheld : s.held j = none := by
    by_contra hsome
    obtain ⟨m, hm⟩ := Option.ne_none_iff_exists'.mp hsome
    have hroom : s.pipe.length + (pbuf q m).length ≤ capacity := by
      rw [hpipe, length_pbuf, List.length_nil, Nat.zero_add]
      exact Nat.le_trans (Nat.add_le_add_left (hi.taken j m hm).2 _) hcap
    simp only [hm, if_pos hroom, reduceCtorEq] at hstuck
  have hempty : s.queues q = [] := by
    simp only [hheld] at hstuck
    cases hqq : s.queues q with
    | nil => rfl
    | cons m rest => simp only [hqq, reduceCtorEq] at hstuck
  have hacc := hi.account j q hj'
  rw [hheld, hempty] at hacc
  rw [hacc]
  exact (List.append_nil _).symm

/-! ## What the program guarantees -/

/-- **Faithful multiplexing**: the parent has not failed; what it has displayed of each
queue is a beginning of what was sent to it, with the data that was sent, and it has
displayed nothing else; once nothing but new input can move the program it has displayed
everything; and every step towards that brings it nearer. -/
structure Faithful (capacity : ℕ) (argv : List (BitVec 32)) (s : State) : Prop where
  alive : s.pc ≠ .failed
  inOrder : ∀ q ∈ argv, s.displayed q <+: (s.sent q).map (showing q)
  named : ∀ e ∈ s.shown, e.msqid ∈ argv
  complete : mtextOffset + MAX_MTEXT ≤ capacity → Quiet capacity argv s →
    ∀ q ∈ argv, s.displayed q = (s.sent q).map (showing q)
  progress : ∀ a s', (∀ q m, a ≠ .send q m) → step capacity argv s a = some s' →
    left argv s' ≤ left argv s ∧ (¬a.onTerminal s → left argv s' < left argv s)

/-- Nothing sent yet. -/
def started : State :=
  { queues := fun _ => [], held := fun _ => none, pipe := [], pc := .select, pmsg := fun _ => 0
    shown := [], sent := fun _ => [] }

theorem started_init (capacity : ℕ) (argv : List (BitVec 32)) :
    (selectMq capacity argv).init started :=
  ⟨fun _ => rfl, fun _ => rfl, rfl, rfl, rfl, fun _ => rfl⟩

/-- **`select_mq` is faithful** in every run in which no message of no bytes is sent, when no
queue is named twice. -/
theorem select_mq_faithful (capacity : ℕ) (argv : List (BitVec 32)) (hnodup : argv.Nodup)
    (s : State) (h : Reaches (selectMq capacity argv) NonEmpty s) : Faithful capacity argv s := by
  obtain ⟨recs, hi⟩ := inv_of_reaches hnodup h
  refine ⟨?_, ?_, hi.named, ?_, ?_⟩
  · intro hpc
    have hh := hi.holds
    simp only [Holds, hpc] at hh
  · intro q hq
    obtain ⟨j, hlt, hj⟩ := List.mem_iff_getElem.mp hq
    rw [hi.account j q (List.getElem?_eq_some_iff.mpr ⟨hlt, hj⟩)]
    exact List.prefix_append _ _
  · intro hcap hquiet q hq
    exact hi.complete hcap hquiet hq
  · intro a s' ha hs
    exact left_step hi ha hs

/-- A message of one byte, from the queue to the display. -/
theorem select_mq_faithful_one_message :
    ∃ s, s.displayed 5 = [showing 5 ⟨1, [104]⟩] ∧ Faithful 65536 [5] s := by
  have hrun : ((selectMq 65536 [5]).runWith NonEmpty started [.send 5 ⟨1, [104]⟩, .child 0, .child 0,
      .select false, .parent, .parent, .parent]).map (fun s => s.displayed 5) =
        some [showing 5 ⟨1, [104]⟩] := by
    decide +kernel
  obtain ⟨s, hs, hshown⟩ := Option.map_eq_some_iff.mp hrun
  exact ⟨s, hshown, select_mq_faithful 65536 [5] (by decide) s
    (System.reaches_of_runWith _ (.init (started_init 65536 [5])) hs)⟩

/-- A message of no bytes makes the parent terminate with "EOF on pipe". -/
theorem select_mq_empty_message :
    ¬∀ s, Reachable (selectMq 65536 [5]) s → Faithful 65536 [5] s := by
  intro hall
  have hrun : ((selectMq 65536 [5]).run started
      [.send 5 ⟨1, []⟩, .child 0, .child 0, .select false, .parent, .parent]).map State.pc =
        some .failed := by
    decide +kernel
  obtain ⟨s, hs, hpc⟩ := Option.map_eq_some_iff.mp hrun
  exact (hall s (System.reachable_of_run _ (.init (started_init 65536 [5])) hs)).alive hpc

end Tlpi.SelectMq
