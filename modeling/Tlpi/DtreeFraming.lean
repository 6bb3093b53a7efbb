/-
`inotify/inotify_dtree.c`: `processInotifyEvents()`, from the bytes that `read()` gives to the
calls of `processNextInotifyEvent()`.

The loop walks over the records in its buffer. When an `IN_MOVED_FROM` is the last of them, it
moves that record to the front of the buffer, reads once more, with a timeout of two
milliseconds, and presents the record again. The result of that `read()` is added to the number
of bytes also when it is -1 (the test after it is of `errno`, not of the result), so after a
timeout the number is one too small; what the record is then cut by is never looked at.

`Accounts` is what the loop is for: a grammar of what is done with a sequence of events, each
handled once and in order. The buffer is memory that goes on behind the bytes that were read.
`got` is a history variable, how many bytes of the buffer were obtained by `read()`, and a
header that does not lie within them is a `stray` end of the loop.

The kernel, the file system and the handlers of the events are those of `Tlpi.DtreeWorld`; what
is queued on each of the descriptors that `reinitialize()` opens is arbitrary.
-/
import Tlpi.DtreeWorld
import Tlpi.InotifyWire
import Tlpi.Loop

set_option autoImplicit false

namespace Tlpi.DtreeFraming

open Tlpi.Descriptor Tlpi.Inotify Tlpi.InotifyWire Tlpi.Loop
open Tlpi.InotifyDtree (Consumed)
open Tlpi.DtreeWorld (State World Numbering counting processNextInotifyEvent)

/-! ## 1. The loop -/

abbrev INOTIFY_READ_BUF_LEN : ℕ := 100 * (HEADER + NAME_MAX + 1)

/-- What became of a call of `processNextInotifyEvent()`, and of a second `read()`. -/
inductive Item where
  /-- The event was consumed by its handler. -/
  | handled (ev : Event)
  /-- The two events were consumed as one rename. -/
  | renamed (ev nextEv : Event)
  /-- The event was put off. -/
  | hanging (ev : Event)
  /-- More events were read, or none before the alarm. -/
  | more
  | timeout
  | reinitialized (ev : Event)
  /-- The program ended. -/
  | exited (ev : Event)
deriving Repr, DecidableEq

/-- What the program runs with. -/
structure Setting where
  num : Numbering
  /-- The argument of the option `-b`, 0 if it is not given. -/
  readBufferSize : ℤ
  /-- What the buffer holds before anything is read. -/
  junk : Mem
  /-- What each call of `processNextInotifyEvent()` meets with. -/
  world : ℕ → World
  /-- How many events each `read()` returns, if so many are there and fit; `none` is a second
  `read()` that gets nothing before the alarm. -/
  choice : ℕ → Option ℕ

/-- The program and its input: what is queued on the inotify descriptor, and what will be on
those opened after it. -/
structure Prog where
  state : State
  queue : List Record
  feeds : List (List Record) := []
  calls : ℕ := 0
  reads : ℕ := 0
  log : List Item := []

/-- The local variables of `processInotifyEvents()`. -/
structure Frame where
  prog : Prog
  buf : Mem
  evp : ℕ
  numRead : ℤ
  firstTry : Bool
  got : ℕ

/-- How it ends. -/
inductive Ended where
  | returned (m : Prog)
  | exited (m : Prog)
  /-- A `read()` failed. -/
  | failed
  /-- A header was read beyond the bytes obtained. -/
  | stray

def bytesOf (rs : List Record) : List UInt8 := rs.flatMap encode

/-- How many records a `read()` of `count` bytes returns, when `n` are there. -/
def readable : ℕ → ℕ → List Record → ℕ
  | _, 0, _ => 0
  | _, _, [] => 0
  | count, n + 1, r :: queue => if r.size ≤ count then readable (count - r.size) n queue + 1 else 0

/-- The event at an offset, and its length. -/
def sizedAt (buf : Mem) (p : ℕ) : Event × ℕ := (eventAt buf p, HEADER + lenAt buf p)

/-- The event at `evp`, and the one behind it if the bytes go on. -/
def headers (x : Frame) : Option ((Event × ℕ) × Option (Event × ℕ)) :=
  let here := sizedAt x.buf x.evp
  if x.got < x.evp + HEADER then none
  -- the length left is as the loop computes it, from `numRead`, not from what was obtained
  else if (here.2 : ℤ) < x.numRead - x.evp then
    if x.got < x.evp + here.2 + HEADER then none
    else some (here, some (sizedAt x.buf (x.evp + here.2)))
  else some (here, none)

def Prog.called (m : Prog) (s : State) (item : Item) : Prog :=
  { m with state := s, calls := m.calls + 1, log := m.log ++ [item] }

/-- A call of `processNextInotifyEvent()` and its return value, `none` if the program ends. -/
def callNext (σ : Setting) (m : Prog) (here : Event × ℕ) (next : Option (Event × ℕ))
    (firstTry : Bool) : Prog × Option ℤ :=
  match processNextInotifyEvent σ.num (σ.world m.calls) m.state here.1 (next.map Prod.fst)
      firstTry with
  | (s, .events n) =>
    match n, next with
    -- the lengths of both events are returned, so the second is not presented
    | 2, some next => (m.called s (.renamed here.1 next.1), some (here.2 + next.2))
    | _, _ => (m.called s (.handled here.1), some here.2)
  | (s, .buffer) =>
    -- `reinitialize()` has closed the descriptor, and what was queued on it is gone
    ({ m.called s (.reinitialized here.1) with queue := m.feeds.headD [], feeds := m.feeds.tail },
      some INOTIFY_READ_BUF_LEN)
  | (s, .again) => (m.called s (.hanging here.1), some (-1))
  | (s, .exit) => (m.called s (.exited here.1), none)

/-- `for (j = 0; j < n; j++) buf[j] = evp[j];` -/
def shuffle (buf : Mem) (evp n : ℕ) : Mem :=
  (List.range n).foldl (fun buf j => store buf j (buf (evp + j))) buf

/-- The second `read()`, into the rest of the buffer. -/
def readMore (σ : Setting) (x : Frame) : Iter Frame Ended :=
  let numRead := (x.numRead - x.evp).toNat
  let buf := shuffle x.buf x.evp numRead
  match σ.choice x.prog.reads, x.prog.queue with
  -- events are there, or come in time; a rest too small for the first of them is `EINVAL`
  | some n, r :: queue =>
    let k := readable (INOTIFY_READ_BUF_LEN - numRead) (max 1 n) (r :: queue)
    let bs := bytesOf ((r :: queue).take k)
    if k = 0 then .done .failed
    else .next {
      prog := { x.prog with
        queue := (r :: queue).drop k, reads := x.prog.reads + 1, log := x.prog.log ++ [.more] }
      buf := storeAll buf numRead bs, evp := 0, numRead := numRead + bs.length, firstTry := false
      got := numRead + bs.length }
  | _, _ =>
    -- `EINTR`: the -1 is added to `numRead`
    .next {
      prog := { x.prog with reads := x.prog.reads + 1, log := x.prog.log ++ [.timeout] }
      buf := buf, evp := 0, numRead := numRead + (-1), firstTry := false, got := numRead }

/-- What follows a call. -/
def turn (σ : Setting) (x : Frame) : Prog × Option ℤ → Iter Frame Ended
  | (m, none) => .done (.exited m)
  | (m, some evLen) =>
    -- what is behind the record is presented for the first time
    if 0 < evLen then .next { x with prog := m, evp := x.evp + evLen.toNat, firstTry := true }
    else readMore σ { x with prog := m }

def body (σ : Setting) (x : Frame) : Iter Frame Ended :=
  if (x.evp : ℤ) < x.numRead then
    match headers x with
    | none => .done .stray
    | some (here, next) => turn σ x (callNext σ x.prog here next x.firstTry)
  else .done (.returned x.prog)

/-- The bytes that may still be read. -/
def Prog.unread (m : Prog) : ℕ :=
  (bytesOf m.queue).length + (m.feeds.map fun rs => (bytesOf rs).length).sum

/-- Every turn either leaves fewer bytes or is followed by a second try. -/
def size (x : Frame) : ℕ :=
  2 * ((x.numRead - x.evp).toNat + x.prog.unread) + x.firstTry.toNat

/-- The size of the first `read()`. -/
def Setting.count (σ : Setting) : ℕ :=
  if 0 < σ.readBufferSize then σ.readBufferSize.toNat else INOTIFY_READ_BUF_LEN

def processInotifyEvents (σ : Setting) (m : Prog) : Option Ended :=
  let k := readable σ.count (max 1 ((σ.choice m.reads).getD 1)) m.queue
  let bs := bytesOf (m.queue.take k)
  if k = 0 then some .failed
  else exec (body σ) size {
    prog := { m with queue := m.queue.drop k, reads := m.reads + 1 }
    buf := storeAll σ.junk 0 bs, evp := 0, numRead := bs.length, firstTry := true, got := bs.length }

/-- One more call, as long as there is something to read. -/
def again (σ : Setting) (m : Prog) : Iter Prog Ended :=
  if m.queue.isEmpty then .done (.returned m)
  else match processInotifyEvents σ m with
    | none => .blocked
    | some (.returned m') => .next m'
    | some e => .done e

/-! ## 2. What a sequence of events is to become -/

/-- A directory was moved from somewhere. -/
def MovedFrom (ev : Event) : Prop := ev.mask = IN_MOVED_FROM ||| IN_ISDIR

/-- The second event says where to. -/
def Paired (ev nextEv : Event) : Prop :=
  has nextEv.mask IN_MOVED_TO = true ∧ nextEv.cookie = ev.cookie

/-- What is done with the event at the head of a sequence, and what is left of the sequence. A
directory that was moved is handled with the event that follows, if that says where to; an
event that hangs at the end of the buffer is presented a second time, after a second `read()`
that got more events or none. -/
inductive Handles : List Event → List Item → List Event → Prop
  | alone {ev : Event} {rest : List Event} (h : ¬MovedFrom ev) :
    Handles (ev :: rest) [.handled ev] rest
  | renamed {ev nextEv : Event} {rest : List Event} (h : MovedFrom ev) (hnext : Paired ev nextEv) :
    Handles (ev :: nextEv :: rest) [.renamed ev nextEv] rest
  | movedOut {ev nextEv : Event} {rest : List Event} (h : MovedFrom ev)
    (hnext : ¬Paired ev nextEv) : Handles (ev :: nextEv :: rest) [.handled ev] (nextEv :: rest)
  | hanging {ev nextEv : Event} {rest rest' : List Event} {item : Item} (h : MovedFrom ev)
    (hnext : Handles (ev :: nextEv :: rest) [item] rest') :
    Handles (ev :: nextEv :: rest) [.hanging ev, .more, item] rest'
  | timeout {ev : Event} {rest : List Event} (h : MovedFrom ev) :
    Handles (ev :: rest) [.hanging ev, .timeout, .handled ev] rest

/-- An event on which the cache is rebuilt and the descriptor replaced. -/
inductive Restarts (ev : Event) : List Item → Prop
  | once : Restarts ev [.reinitialized ev]
  | hanging {item : Item} (h : MovedFrom ev) (hitem : item = .more ∨ item = .timeout) :
    Restarts ev [.hanging ev, item, .reinitialized ev]

/-- **What is done with all of it.** Every event is handled, in order and once, until one is met
on which the descriptor is replaced, where it goes on with what is queued on the new one; or
until the program ends because it has no more directories to monitor. -/
inductive Accounts : List Event → List (List Event) → List Item → Prop
  | done {feeds : List (List Event)} : Accounts [] feeds []
  | handles {evs evs' : List Event} {feeds : List (List Event)} {l l' : List Item}
    (h : Handles evs l evs') (hrest : Accounts evs' feeds l') : Accounts evs feeds (l ++ l')
  | restarts {ev : Event} {rest : List Event} {feeds : List (List Event)} {l l' : List Item}
    (h : Restarts ev l) (hrest : Accounts (feeds.headD []) feeds.tail l') :
    Accounts (ev :: rest) feeds (l ++ l')
  | exits {ev : Event} {rest : List Event} {feeds : List (List Event)} (h : ¬MovedFrom ev) :
    Accounts (ev :: rest) feeds [.exited ev]

/-! ## 3. What a call returns -/

/-- The branch of `processNextInotifyEvent()` for a directory that was moved is taken. -/
def TakesMovedFrom (mask : BitVec 32) : Prop :=
  ¬(has mask IN_ISDIR && has mask (IN_CREATE ||| IN_MOVED_TO)) = true ∧
    ¬has mask IN_DELETE_SELF = true ∧
    mask &&& (IN_MOVED_FROM ||| IN_ISDIR) = IN_MOVED_FROM ||| IN_ISDIR

instance (mask : BitVec 32) : Decidable (TakesMovedFrom mask) :=
  inferInstanceAs (Decidable (_ ∧ _ ∧ _))

/-- What the result of a call says of the events it was given. -/
def Outcome (ev : Event) (nextEv : Option Event) (firstTry : Bool) : Consumed → Prop
  | .events n =>
    (n = 1 ∧ (TakesMovedFrom ev.mask →
      (∀ next ∈ nextEv, ¬Paired ev next) ∧ (nextEv = none → firstTry = false))) ∨
    (n = 2 ∧ TakesMovedFrom ev.mask ∧ ∃ next ∈ nextEv, Paired ev next)
  | .buffer => True
  | .again => TakesMovedFrom ev.mask ∧ nextEv = none ∧ firstTry = true
  | .exit => ¬TakesMovedFrom ev.mask

section Outcome

variable {num : Numbering} {w : World} {s : State} {ev : Event} {nextEv : Option Event}
  {firstTry : Bool}

theorem outcome_movedOut (h : TakesMovedFrom ev.mask →
      (∀ next ∈ nextEv, ¬Paired ev next) ∧ (nextEv = none → firstTry = false)) (P : Pathname.Str) :
    Outcome ev nextEv firstTry (DtreeWorld.movedOut num w s P).2 := by
  rw [DtreeWorld.movedOut]
  split
  · exact .inl ⟨rfl, h⟩
  · trivial

theorem outcome_movedFrom (h : TakesMovedFrom ev.mask) (P : Pathname.Str) :
    Outcome ev nextEv firstTry (DtreeWorld.movedFrom num w s P ev nextEv firstTry).2 := by
  cases nextEv with
  | none =>
    rw [DtreeWorld.movedFrom]
    split
    · rename_i hfirst
      exact ⟨h, rfl, hfirst⟩
    · rename_i hfirst
      refine outcome_movedOut (fun _ => ⟨?_, fun _ => (Bool.not_eq_true _).mp hfirst⟩) _
      exact fun next hnext => nomatch hnext
  | some next =>
    have hpaired : (has next.mask IN_MOVED_TO && next.cookie == ev.cookie) = true ↔
        Paired ev next := by
      rw [Bool.and_eq_true, beq_iff_eq, Paired]
    rw [DtreeWorld.movedFrom]
    split
    · rename_i hpair
      split
      · trivial
      · exact .inr ⟨rfl, h, next, rfl, hpaired.mp hpair⟩
    · rename_i hpair
      refine outcome_movedOut (fun _ => ⟨?_, ?_⟩) _
      · intro next' hnext'
        rw [← Option.some.inj hnext', ← hpaired]
        exact hpair
      · exact fun hnone => nomatch hnone

theorem outcome_handleEvent (slot : ℕ) :
    Outcome ev nextEv firstTry (DtreeWorld.handleEvent num w s slot ev nextEv firstTry).2 := by
  have hone : ∀ {P : Prop}, ¬TakesMovedFrom ev.mask → (TakesMovedFrom ev.mask → P) :=
    fun hnot htakes => absurd htakes hnot
  rw [DtreeWorld.handleEvent]
  split
  · rename_i hmade
    exact .inl ⟨rfl, hone fun htakes => htakes.1 hmade⟩
  · rename_i hmade
    split
    · rename_i hdel
      have hnot : ¬TakesMovedFrom ev.mask := fun htakes => htakes.2.1 hdel
      rw [DtreeWorld.deleted]
      split
      · exact hnot
      · exact .inl ⟨rfl, hone hnot⟩
    · rename_i hdel
      split
      · rename_i hfrom
        -- the only branch that looks at the next event
        exact outcome_movedFrom ⟨hmade, hdel, hfrom⟩ _
      · rename_i hfrom
        have hnot : ¬TakesMovedFrom ev.mask := fun htakes => hfrom htakes.2.2
        split
        · trivial
        · split
          · exact .inl ⟨rfl, hone hnot⟩
          · split
            · rw [DtreeWorld.rootMoved]
              split
              · exact hnot
              · exact outcome_movedOut (hone hnot) _
            · exact .inl ⟨rfl, hone hnot⟩

theorem outcome_process :
    Outcome ev nextEv firstTry (processNextInotifyEvent num w s ev nextEv firstTry).2 := by
  rw [processNextInotifyEvent]
  split
  · split
    · trivial
    · exact outcome_handleEvent _
  · exact outcome_handleEvent _

end Outcome

/-! ## 4. The loop ends -/

theorem bytesOf_cons (r : Record) (rs : List Record) : bytesOf (r :: rs) = encode r ++ bytesOf rs :=
  rfl

theorem length_bytesOf_cons (r : Record) (rs : List Record) :
    (bytesOf (r :: rs)).length = r.size + (bytesOf rs).length := by
  rw [bytesOf_cons, List.length_append, length_encode]

/-- The buffer holds the records from `evp` to the end of what was obtained. -/
structure Holds (x : Frame) (rs : List Record) : Prop where
  bytes : slice x.buf x.evp (bytesOf rs).length = bytesOf rs
  got : x.got = x.evp + (bytesOf rs).length
  room : x.got ≤ INOTIFY_READ_BUF_LEN
  wf : ∀ r ∈ rs, r.WellFormed

theorem Holds.split {x : Frame} {r : Record} {rs : List Record} (h : Holds x (r :: rs)) :
    slice x.buf x.evp r.size = encode r ∧
      slice x.buf (x.evp + r.size) (bytesOf rs).length = bytesOf rs := by
  obtain ⟨hhead, htail⟩ := slice_eq_append h.bytes
  rw [length_encode] at hhead htail
  rw [length_bytesOf_cons, Nat.add_sub_cancel_left] at htail
  exact ⟨hhead, htail⟩

/-- The records behind the first one. -/
theorem Holds.tail {x : Frame} {r : Record} {rs : List Record} (h : Holds x (r :: rs)) :
    Holds { x with evp := x.evp + r.size } rs where
  bytes := h.split.2
  got := by
    rw [h.got, length_bytesOf_cons]
    exact (Nat.add_assoc _ _ _).symm
  room := h.room
  wf := fun r' hr' => h.wf r' (List.mem_cons_of_mem _ hr')

/-- What the program makes of a frame does not depend on its other variables. -/
theorem Holds.congr {x x' : Frame} {rs : List Record} (h : Holds x rs) (hbuf : x'.buf = x.buf)
    (hevp : x'.evp = x.evp) (hgot : x'.got = x.got) : Holds x' rs :=
  ⟨by rw [hbuf, hevp]; exact h.bytes, by rw [hgot, hevp]; exact h.got, by rw [hgot]; exact h.room,
    h.wf⟩

/-- An event and its length. -/
def sized (r : Record) : Event × ℕ := (r.ev, r.size)

theorem Holds.sizedAt {x : Frame} {r : Record} {rs : List Record} (h : Holds x (r :: rs)) :
    sizedAt x.buf x.evp = sized r := by
  obtain ⟨hlen, hev⟩ := recordAt_encode (h.wf r List.mem_cons_self) h.split.1
  rw [DtreeFraming.sizedAt, hlen, hev, sized, Record.size]

/-- The program after `reinitialize()`: it has another descriptor. -/
def Prog.restarted (m : Prog) (s : State) (ev : Event) : Prog :=
  { m.called s (.reinitialized ev) with queue := m.feeds.headD [], feeds := m.feeds.tail }

/-- What a call can do with the record `r`, when `rs` are behind it. -/
inductive Result (m : Prog) (r : Record) (rs : List Record) (firstTry : Bool) :
    Prog × Option ℤ → Prop
  | handled (s : State)
    (h : MovedFrom r.ev → (∀ r' ∈ rs.head?, ¬Paired r.ev r'.ev) ∧ (rs = [] → firstTry = false)) :
    Result m r rs firstTry (m.called s (.handled r.ev), some r.size)
  | renamed (s : State) {r' : Record} {rs' : List Record} (hrs : rs = r' :: rs')
    (h : MovedFrom r.ev) (hnext : Paired r.ev r'.ev) :
    Result m r rs firstTry
      (m.called s (.renamed r.ev r'.ev), some ((r.size : ℤ) + (r'.size : ℤ)))
  | restarted (s : State) :
    Result m r rs firstTry (m.restarted s r.ev, some INOTIFY_READ_BUF_LEN)
  | hanging (s : State) (h : MovedFrom r.ev) (hrs : rs = []) (hfirst : firstTry = true) :
    Result m r rs firstTry (m.called s (.hanging r.ev), some (-1))
  | exited (s : State) (h : ¬MovedFrom r.ev) :
    Result m r rs firstTry (m.called s (.exited r.ev), none)

def evsOf (rs : List Record) : List Event := rs.map Record.ev

/-- How many records may still be read. -/
def Prog.left (m : Prog) : ℕ := m.queue.length + (m.feeds.map List.length).sum

/-- All that is queued, or will be, is well formed and fits into the first `read()`. -/
def Prog.Sound (σ : Setting) (m : Prog) : Prop :=
  ∀ rs ∈ m.queue :: m.feeds, ∀ r ∈ rs, r.WellFormed ∧ r.size ≤ σ.count

/-- From `m` with `rs` in the buffer to `m'` with `rs'`: what was done in between is put in front
of what is done from there on. -/
structure Leads (σ : Setting) (m : Prog) (rs : List Record) (m' : Prog) (rs' : List Record) :
    Prop where
  log : ∃ l, m'.log = m.log ++ l ∧ ∀ l',
    Accounts (evsOf (rs' ++ m'.queue)) (m'.feeds.map evsOf) l' →
      Accounts (evsOf (rs ++ m.queue)) (m.feeds.map evsOf) (l ++ l')
  left : m'.left ≤ m.left
  sound : m.Sound σ → m'.Sound σ

/-- How a call may end that has `rs` in its buffer. -/
def Goes (σ : Setting) (m : Prog) (rs : List Record) : Ended → Prop
  | .returned m' => Leads σ m rs m' []
  | .exited m' => ∃ l, m'.log = m.log ++ l ∧
    Accounts (evsOf (rs ++ m.queue)) (m.feeds.map evsOf) l
  | .failed => False
  | .stray => False

section Call

variable {σ : Setting} {m m' : Prog} {rs rs' : List Record}

theorem Leads.refl (σ : Setting) (m : Prog) (rs : List Record) : Leads σ m rs m rs :=
  ⟨⟨[], (List.append_nil _).symm, fun _ h => h⟩, le_rfl, id⟩

theorem Leads.goes (h : Leads σ m rs m' rs') {e : Ended} (he : Goes σ m' rs' e) :
    Goes σ m rs e := by
  obtain ⟨l, hlog, haccounts⟩ := h.log
  cases e with
  | returned m'' =>
    obtain ⟨l', hlog', haccounts'⟩ := he.log
    refine ⟨⟨l ++ l', ?_, ?_⟩, he.left.trans h.left, fun hsound => he.sound (h.sound hsound)⟩
    · rw [hlog', hlog, List.append_assoc]
    · intro l'' hl''
      rw [List.append_assoc]
      exact haccounts _ (haccounts' _ hl'')
  | exited m'' =>
    obtain ⟨l', hlog', haccounts'⟩ := he
    refine ⟨l ++ l', ?_, haccounts _ haccounts'⟩
    rw [hlog', hlog, List.append_assoc]
  | failed => exact he
  | stray => exact he

/-- The record `r` is presented for the first time, or once more after a second `read()` that
got `rs`; `l` is what was done with it before. -/
def Presented (r : Record) (rs : List Record) (l : List Item) (firstTry : Bool) : Prop :=
  (l = [] ∧ firstTry = true) ∨
    (l = [.hanging r.ev, .more] ∧ firstTry = false ∧ MovedFrom r.ev ∧ rs ≠ [])

theorem Presented.handles {r : Record} {l : List Item} {firstTry : Bool} {item : Item}
    {queue : List Record} {rest : List Event} (hl : Presented r rs l firstTry)
    (h : Handles (evsOf (r :: rs ++ queue)) [item] rest) :
    Handles (evsOf (r :: rs ++ queue)) (l ++ [item]) rest := by
  rcases hl with ⟨rfl, -⟩ | ⟨rfl, -, hfrom, hrs⟩
  · exact h
  · cases rs with
    | nil => exact absurd rfl hrs
    | cons r' rs => exact .hanging hfrom h

theorem Presented.restarts {r : Record} {l : List Item} {firstTry : Bool}
    (hl : Presented r rs l firstTry) : Restarts r.ev (l ++ [.reinitialized r.ev]) := by
  rcases hl with ⟨rfl, -⟩ | ⟨rfl, -, hfrom, -⟩
  · exact .once
  · exact .hanging hfrom (.inl rfl)

end Call

/-! ## 8. All the calls -/

/-- How the program comes to wait for more events, or to its end. -/
def Finished (m : Prog) : Ended → Prop
  | .returned m' => m'.queue = [] ∧ ∃ l, m'.log = m.log ++ l ∧
    Accounts (evsOf m.queue) (m.feeds.map evsOf) l
  | .exited m' => ∃ l, m'.log = m.log ++ l ∧ Accounts (evsOf m.queue) (m.feeds.map evsOf) l
  | .failed => False
  | .stray => False

theorem Goes.finished {σ : Setting} {m : Prog} {e : Ended} (h : Goes σ m [] e)
    (hempty : ∀ m', e = .returned m' → m'.queue = []) : Finished m e := by
  cases e with
  | returned m' =>
    obtain ⟨l, hlog, haccounts⟩ := h.log
    have hqueue := hempty m' rfl
    refine ⟨hqueue, l, hlog, ?_⟩
    rw [← List.append_nil l]
    apply haccounts
    rw [hqueue]
    exact .done
  | exited m' => exact h
  | failed => exact h
  | stray => exact h

/-- The events that were handled. -/
def Item.events : Item → List Event
  | .handled ev => [ev]
  | .renamed ev nextEv => [ev, nextEv]
  | .exited ev => [ev]
  | _ => []

end Tlpi.DtreeFraming
