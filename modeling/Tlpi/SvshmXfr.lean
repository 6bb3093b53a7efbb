/-
`svshm/svshm_xfr_writer.c` and `svshm/svshm_xfr_reader.c`: a file sent through a shared
memory segment, the two programs taking turns by two semaphores.

## The shape of the argument

At any moment exactly one of them has the turn: a semaphore that is up, one of the
programs inside its segment, or the writer on its way out. `Inv` lists these phases, and
what each says about where the two programs can be; a step leads from a phase to a phase.
Within a phase both programs may still move without touching the turn (the reader on its
way to its reservation, the writer between its release and its next reservation), and
these moves are dealt with once for all phases (`waiting_step`, `looping_step`,
`ended_step`).

`Books` says where every byte is. Of the input, the part that the reader has written, then
the part that is in flight, then the part that the writer has not read, make up the whole.
What is in flight is decided by the phase. The running totals of the two sides are off by
what each of them has handled but not counted yet, and by what is in flight.

The writer looks at `shmp->cnt` twice after it has given the turn away, to test for the
end and to add to its total. This is sound because only the writer ever stores there:
`uncounted` speaks of the present `cnt`, whatever the reader does meanwhile.

The end is a transfer with `cnt == 0`. From then on the writer cannot go back to its loop
nor the reader to its own, and the writer's extra reservation waits for the reader's last
release, which is why nothing is removed too early.
-/
import Tlpi.BinarySems
import Tlpi.Descriptor
import Tlpi.Transition

set_option autoImplicit false

namespace Tlpi.SvshmXfr

open Tlpi.BinarySems Tlpi.Descriptor Tlpi.Transition

abbrev WRITE_SEM : ℕ := 0
abbrev READ_SEM : ℕ := 1

/-! ## The two programs -/

/-- Where the writer stands: the call or access it makes next. -/
inductive WPc where
  | reserve | read | store | release | test | incr
  | lastReserve | rmSem | shmdt | rmShm | done
deriving Repr, DecidableEq

/-- Where the reader stands. -/
inductive RPc where
  | semget | shmget | shmat
  | reserve | test | count | write | release | incr
  | shmdt | lastRelease | done
deriving Repr, DecidableEq

/-- The IPC objects, the locals of the two programs, and their standard input and output.
`got` is the return value of the writer's `read()` until it is stored in `shmp->cnt`. -/
structure State where
  sems : SemSet
  semRemoved : Bool
  cnt : ℕ
  buf : Mem
  shmRemoved : Bool
  wpc : WPc
  input : List UInt8
  got : ℕ
  wxfrs : BitVec 32
  wbytes : BitVec 32
  rpc : RPc
  output : List UInt8
  rxfrs : BitVec 32
  rbytes : BitVec 32

/-- The writer after its set-up, on IPC objects that may have existed before, and the
reader before its first call. -/
def setUp (input : List UInt8) (sems : SemSet) (cnt : ℕ) (buf : Mem) : State :=
  { sems := initSemInUse (initSemAvailable sems WRITE_SEM) READ_SEM
    semRemoved := false, cnt := cnt, buf := buf, shmRemoved := false
    wpc := .reserve, input := input, got := 0, wxfrs := 0, wbytes := 0
    rpc := .semget, output := [], rxfrs := 0, rbytes := 0 }

/-- A reservation, on a set that still exists. -/
def State.reserve (s : State) (semNum : ℕ) : Option State :=
  if s.semRemoved then none
  else (reserveSem s.sems semNum).map fun sems => { s with sems := sems }

def State.release (s : State) (semNum : ℕ) : Option State :=
  if s.semRemoved then none else some { s with sems := releaseSem s.sems semNum }

/-- One step of the writer. `k` is the kernel's choice of how many bytes `read()` returns
when there are any. -/
def writerStep (BUF_SIZE k : ℕ) (s : State) : Option State :=
  match s.wpc with
  | .reserve => (s.reserve WRITE_SEM).map fun s => { s with wpc := .read }
  | .read =>
    if s.input = [] then some { s with got := 0, wpc := .store }
    else if 1 ≤ k ∧ k ≤ BUF_SIZE ∧ k ≤ s.input.length then
      some { s with
        buf := storeAll s.buf 0 (s.input.take k), input := s.input.drop k, got := k, wpc := .store }
    else none
  | .store => some { s with cnt := s.got, wpc := .release }
  | .release => (s.release READ_SEM).map fun s => { s with wpc := .test }
  | .test => some { s with wpc := if s.cnt = 0 then .lastReserve else .incr }
  | .incr =>
    some { s with
      wxfrs := s.wxfrs + 1, wbytes := s.wbytes + BitVec.ofNat 32 s.cnt, wpc := .reserve }
  | .lastReserve => (s.reserve WRITE_SEM).map fun s => { s with wpc := .rmSem }
  | .rmSem => some { s with semRemoved := true, wpc := .shmdt }
  | .shmdt => some { s with wpc := .rmShm }
  | .rmShm => some { s with shmRemoved := true, wpc := .done }
  | .done => none

/-- One step of the reader. -/
def readerStep (s : State) : Option State :=
  match s.rpc with
  | .semget => if s.semRemoved then none else some { s with rpc := .shmget }
  | .shmget => if s.shmRemoved then none else some { s with rpc := .shmat }
  | .shmat => if s.shmRemoved then none else some { s with rpc := .reserve }
  | .reserve => (s.reserve READ_SEM).map fun s => { s with rpc := .test }
  | .test => some { s with rpc := if s.cnt = 0 then .shmdt else .count }
  | .count => some { s with rbytes := s.rbytes + BitVec.ofNat 32 s.cnt, rpc := .write }
  | .write => some { s with output := s.output ++ slice s.buf 0 s.cnt, rpc := .release }
  | .release => (s.release WRITE_SEM).map fun s => { s with rpc := .incr }
  | .incr => some { s with rxfrs := s.rxfrs + 1, rpc := .reserve }
  | .shmdt => some { s with rpc := .lastRelease }
  | .lastRelease => (s.release WRITE_SEM).map fun s => { s with rpc := .done }
  | .done => none

/-- Whose step is next; for the writer with the size of the piece that `read()` returns. -/
inductive Act where
  | writer (k : ℕ)
  | reader
deriving Repr, DecidableEq

def step (BUF_SIZE : ℕ) (s : State) : Act → Option State
  | .writer k => writerStep BUF_SIZE k s
  | .reader => readerStep s

/-- The two programs, on a given standard input of the writer. -/
def xfr (BUF_SIZE : ℕ) (input : List UInt8) : System State Act where
  init s := ∃ sems cnt buf, s = setUp input sems cnt buf
  step := step BUF_SIZE

/-! ## Turns -/

/-- Between `reserveSem(WRITE_SEM)` and `releaseSem(READ_SEM)`. -/
def WPc.inSegment : WPc → Bool
  | .read | .store | .release => true
  | _ => false

/-- Between `reserveSem(READ_SEM)` and `releaseSem(WRITE_SEM)`. -/
def RPc.inSegment : RPc → Bool
  | .test | .count | .write | .release | .shmdt | .lastRelease => true
  | _ => false

/-- On the way to `reserveSem(READ_SEM)`, or there. -/
def RPc.waiting : RPc → Bool
  | .semget | .shmget | .shmat | .reserve | .incr => true
  | _ => false

/-- After the extra reservation. -/
def WPc.closing : WPc → Bool
  | .rmSem | .shmdt | .rmShm | .done => true
  | _ => false

/-- The writer has sent a piece of some bytes and is between two reservations. -/
def Looping (s : State) : Prop := (s.wpc = .test ∨ s.wpc = .incr ∨ s.wpc = .reserve) ∧ s.cnt ≠ 0

/-- The writer has sent the piece of no bytes. -/
def Ended (s : State) : Prop := (s.wpc = .test ∨ s.wpc = .lastReserve) ∧ s.cnt = 0 ∧ s.input = []

/-- Nothing is removed, and the semaphores stand at these values. -/
structure Up (s : State) (w r : ℕ) : Prop where
  write : s.sems WRITE_SEM = w
  read : s.sems READ_SEM = r
  sem : s.semRemoved = false
  shm : s.shmRemoved = false

/-! ## Books -/

/-- The bytes that the writer has read and not added to its total. -/
def uncounted (s : State) : ℕ :=
  match s.wpc with
  | .store => s.got
  | .release | .test | .incr => s.cnt
  | _ => 0

/-- The reader's piece, between its place in the total and its place in the output. -/
def counted (s : State) : ℕ := if s.rpc = .write then s.cnt else 0

/-- Whether the reader has written a piece and not counted the transfer. -/
def untallied (s : State) : ℕ := if s.rpc = .release ∨ s.rpc = .incr then 1 else 0

/-- **Where every byte is**, with `f` in flight, and what the two sides have counted. -/
structure Books (input : List UInt8) (s : State) (f : List UInt8) : Prop where
  split : input = s.output ++ f ++ s.input
  wbytes : s.wbytes + BitVec.ofNat 32 (uncounted s) = BitVec.ofNat 32 (s.output.length + f.length)
  rbytes : s.rbytes = BitVec.ofNat 32 (s.output.length + counted s)
  xfrs : s.wxfrs + BitVec.ofNat 32 (min 1 (uncounted s))
    = s.rxfrs + BitVec.ofNat 32 (untallied s + min 1 f.length)

/-- A step that moves no byte and counts nothing keeps the books. -/
theorem Books.keep {input f : List UInt8} {s s' : State} (h : Books input s f)
    (hdata : (s'.output, s'.input, s'.wbytes, s'.rbytes, s'.wxfrs, s'.rxfrs)
      = (s.output, s.input, s.wbytes, s.rbytes, s.wxfrs, s.rxfrs))
    (hu : uncounted s' = uncounted s) (hc : counted s' = counted s)
    (ht : untallied s' = untallied s) : Books input s' f := by
  simp only [Prod.mk.injEq] at hdata
  obtain ⟨ho, hi, hwb, hrb, hwx, hrx⟩ := hdata
  refine ⟨?_, ?_, ?_, ?_⟩
  · rw [ho, hi]; exact h.split
  · rw [hwb, hu, ho]; exact h.wbytes
  · rw [hrb, ho, hc]; exact h.rbytes
  · rw [hwx, hu, hrx, ht]; exact h.xfrs

/-! ## The invariant -/

/-- **The phases of a transfer**, by who has the turn. -/
inductive Inv (input : List UInt8) (s : State) : Prop
  /-- The writer may take the next turn. -/
  | free (hup : Up s 1 0) (hw : s.wpc = .reserve ∨ Looping s) (hr : s.rpc.waiting)
      (hb : Books input s [])
  /-- The writer has it and has not called `read()`. -/
  | reading (hup : Up s 0 0) (hw : s.wpc = .read) (hr : s.rpc.waiting) (hb : Books input s [])
  /-- `read()` has returned. -/
  | storing (hup : Up s 0 0) (hw : s.wpc = .store) (hr : s.rpc.waiting)
      (hend : s.got = 0 → s.input = []) (hb : Books input s (slice s.buf 0 s.got))
  /-- `shmp->cnt` is set. -/
  | sending (hup : Up s 0 0) (hw : s.wpc = .release) (hr : s.rpc.waiting)
      (hend : s.cnt = 0 → s.input = []) (hb : Books input s (slice s.buf 0 s.cnt))
  /-- The reader may take its turn. -/
  | full (hup : Up s 0 1) (hw : Looping s ∨ Ended s) (hr : s.rpc.waiting)
      (hb : Books input s (slice s.buf 0 s.cnt))
  /-- The reader has it and looks at `shmp->cnt`. -/
  | testing (hup : Up s 0 0) (hw : Looping s ∨ Ended s) (hr : s.rpc = .test)
      (hb : Books input s (slice s.buf 0 s.cnt))
  /-- It has found some bytes. -/
  | taking (hup : Up s 0 0) (hw : Looping s) (hr : s.rpc = .count ∨ s.rpc = .write)
      (hb : Books input s (slice s.buf 0 s.cnt))
  /-- It has written them. -/
  | taken (hup : Up s 0 0) (hw : Looping s) (hr : s.rpc = .release) (hb : Books input s [])
  /-- It has found the end. -/
  | leaving (hup : Up s 0 0) (hw : Ended s) (hr : s.rpc = .shmdt ∨ s.rpc = .lastRelease)
      (hb : Books input s [])
  /-- The writer may take its extra turn. -/
  | left (hup : Up s 1 0) (hw : Ended s) (hr : s.rpc = .done) (hb : Books input s [])
  /-- It has taken it. -/
  | closing (hsem : s.sems WRITE_SEM = 0 ∧ s.sems READ_SEM = 0) (hw : s.wpc.closing)
      (hin : s.input = []) (hr : s.rpc = .done) (hb : Books input s [])

theorem inv_setUp (input : List UInt8) (sems : SemSet) (cnt : ℕ) (buf : Mem) :
    Inv input (setUp input sems cnt buf) := by
  refine .free ⟨?_, ?_, rfl, rfl⟩ (Or.inl rfl) rfl ⟨rfl, rfl, rfl, rfl⟩
  · simp only [setUp, initSemInUse, initSemAvailable]
    rw [Function.update_of_ne (by decide), Function.update_self]
  · simp only [setUp, initSemInUse]
    rw [Function.update_self]

/-! ## Moves of the turn -/

/-- A reservation takes the semaphore down by one and touches nothing else. -/
theorem Up.reserve {s s' : State} {w r semNum : ℕ} (hup : Up s w r)
    (h : s.reserve semNum = some s') :
    ∃ sems, s' = { s with sems := sems } ∧ s.sems semNum = sems semNum + 1 ∧
      ∀ j, j ≠ semNum → sems j = s.sems j := by
  rw [State.reserve, if_neg (Bool.eq_false_iff.mp hup.sem)] at h
  obtain ⟨sems, hs, rfl⟩ := Option.map_eq_some_iff.mp h
  exact ⟨sems, rfl, reserveSem_eq_some hs⟩

theorem Up.reserveWrite {s s' : State} {w r : ℕ} (hup : Up s w r)
    (h : s.reserve WRITE_SEM = some s') :
    ∃ sems, s' = { s with sems := sems } ∧ 0 < w ∧ Up { s with sems := sems } (w - 1) r := by
  obtain ⟨sems, rfl, hdown, hkeep⟩ := hup.reserve h
  rw [hup.write] at hdown
  refine ⟨sems, rfl, by omega, ⟨?_, ?_, hup.sem, hup.shm⟩⟩
  · rw [hdown, Nat.add_sub_cancel]
  · exact (hkeep READ_SEM (by decide)).trans hup.read

theorem Up.reserveRead {s s' : State} {w r : ℕ} (hup : Up s w r)
    (h : s.reserve READ_SEM = some s') :
    ∃ sems, s' = { s with sems := sems } ∧ 0 < r ∧ Up { s with sems := sems } w (r - 1) := by
  obtain ⟨sems, rfl, hdown, hkeep⟩ := hup.reserve h
  rw [hup.read] at hdown
  refine ⟨sems, rfl, by omega, ⟨?_, ?_, hup.sem, hup.shm⟩⟩
  · exact (hkeep WRITE_SEM (by decide)).trans hup.write
  · rw [hdown, Nat.add_sub_cancel]

theorem Up.releaseWrite {s s' : State} {w r : ℕ} (hup : Up s w r)
    (h : s.release WRITE_SEM = some s') :
    ∃ sems, s' = { s with sems := sems } ∧ Up { s with sems := sems } (w + 1) r := by
  rw [State.release, if_neg (Bool.eq_false_iff.mp hup.sem), Option.some.injEq] at h
  refine ⟨_, h.symm, ?_, ?_, hup.sem, hup.shm⟩
  · exact (releaseSem_same s.sems WRITE_SEM).trans (congrArg (· + 1) hup.write)
  · exact (releaseSem_of_ne s.sems (show READ_SEM ≠ WRITE_SEM by decide)).trans hup.read

theorem Up.releaseRead {s s' : State} {w r : ℕ} (hup : Up s w r)
    (h : s.release READ_SEM = some s') :
    ∃ sems, s' = { s with sems := sems } ∧ Up { s with sems := sems } w (r + 1) := by
  rw [State.release, if_neg (Bool.eq_false_iff.mp hup.sem), Option.some.injEq] at h
  refine ⟨_, h.symm, ?_, ?_, hup.sem, hup.shm⟩
  · exact (releaseSem_of_ne s.sems (show WRITE_SEM ≠ READ_SEM by decide)).trans hup.write
  · exact (releaseSem_same s.sems READ_SEM).trans (congrArg (· + 1) hup.read)

/-! ## Moves without the turn -/

theorem ofNat_one_add (n : ℕ) : BitVec.ofNat 32 (1 + n) = 1 + BitVec.ofNat 32 n :=
  BitVec.ofNat_add 1 n

/-- The reader on its way to its reservation: it attaches, or counts a transfer. -/
theorem waiting_step {input f : List UInt8} {s s' : State} (hr : s.rpc.waiting)
    (hnot : s.rpc ≠ .reserve) (h : readerStep s = some s') (hb : Books input s f) :
    ∃ rpc rxfrs, s' = { s with rpc := rpc, rxfrs := rxfrs } ∧ rpc.waiting ∧ Books input s' f := by
  cases hpc : s.rpc with
  | semget =>
    simp only [readerStep, hpc] at h
    split at h
    · exact nomatch h
    · rw [Option.some.injEq] at h
      refine ⟨.shmget, s.rxfrs, h.symm, rfl, h ▸ hb.keep rfl rfl ?_ ?_⟩ <;>
        simp only [counted, untallied, hpc, reduceCtorEq, or_self]
  | shmget =>
    simp only [readerStep, hpc] at h
    split at h
    · exact nomatch h
    · rw [Option.some.injEq] at h
      refine ⟨.shmat, s.rxfrs, h.symm, rfl, h ▸ hb.keep rfl rfl ?_ ?_⟩ <;>
        simp only [counted, untallied, hpc, reduceCtorEq, or_self]
  | shmat =>
    simp only [readerStep, hpc] at h
    split at h
    · exact nomatch h
    · rw [Option.some.injEq] at h
      refine ⟨.reserve, s.rxfrs, h.symm, rfl, h ▸ hb.keep rfl rfl ?_ ?_⟩ <;>
        simp only [counted, untallied, hpc, reduceCtorEq, or_self]
  | incr =>
    -- the transfer that was written is now counted
    simp only [readerStep, hpc, Option.some.injEq] at h
    subst h
    refine ⟨.reserve, s.rxfrs + 1, rfl, rfl, hb.split, hb.wbytes, ?_, ?_⟩
    · have hrb := hb.rbytes
      simp only [counted, hpc, reduceCtorEq, if_false] at hrb ⊢
      exact hrb
    · have hx := hb.xfrs
      simp only [untallied, hpc, reduceCtorEq, or_true, if_true, ofNat_one_add] at hx
      simp only [untallied, reduceCtorEq, or_self, if_false, Nat.zero_add, BitVec.add_assoc]
      exact hx
  | reserve => exact absurd hpc hnot
  | test => rw [hpc] at hr; exact nomatch hr
  | count => rw [hpc] at hr; exact nomatch hr
  | write => rw [hpc] at hr; exact nomatch hr
  | release => rw [hpc] at hr; exact nomatch hr
  | shmdt => rw [hpc] at hr; exact nomatch hr
  | lastRelease => rw [hpc] at hr; exact nomatch hr
  | done => rw [hpc] at hr; exact nomatch hr

/-- The writer after the release of a piece of some bytes: it counts the transfer. -/
theorem looping_step {BUF_SIZE k : ℕ} {input f : List UInt8} {s s' : State} (hw : Looping s)
    (hnot : s.wpc ≠ .reserve) (h : writerStep BUF_SIZE k s = some s') (hb : Books input s f) :
    ∃ wpc wxfrs wbytes, s' = { s with wpc := wpc, wxfrs := wxfrs, wbytes := wbytes } ∧
      Looping s' ∧ Books input s' f := by
  obtain ⟨hpc | hpc | hpc, hcnt⟩ := hw
  · simp only [writerStep, hpc, if_neg hcnt, Option.some.injEq] at h
    refine ⟨.incr, s.wxfrs, s.wbytes, h.symm, ?_, ?_⟩
    · subst h
      exact ⟨Or.inr (Or.inl rfl), hcnt⟩
    · subst h
      refine hb.keep rfl ?_ rfl rfl
      simp only [uncounted, hpc]
  · simp only [writerStep, hpc, Option.some.injEq] at h
    subst h
    have hu : uncounted s = s.cnt := by simp only [uncounted, hpc]
    have hone : min 1 s.cnt = 1 := by omega
    refine ⟨.reserve, _, _, rfl, ⟨Or.inr (Or.inr rfl), hcnt⟩, hb.split, ?_, hb.rbytes, ?_⟩
    · have hwb := hb.wbytes
      rw [hu] at hwb
      exact (BitVec.add_zero _).trans hwb
    · have hx := hb.xfrs
      rw [hu, hone] at hx
      exact (BitVec.add_zero _).trans hx
  · exact absurd hpc hnot

/-- The writer after the release of the piece of no bytes: it finds the end. -/
theorem ended_step {BUF_SIZE k : ℕ} {input f : List UInt8} {s s' : State} (hw : Ended s)
    (hnot : s.wpc ≠ .lastReserve) (h : writerStep BUF_SIZE k s = some s') (hb : Books input s f) :
    s' = { s with wpc := .lastReserve } ∧ Ended s' ∧ Books input s' f := by
  obtain ⟨hpc | hpc, hcnt, hin⟩ := hw
  · simp only [writerStep, hpc, if_pos hcnt, Option.some.injEq] at h
    subst h
    refine ⟨rfl, ⟨Or.inr rfl, hcnt, hin⟩, hb.keep rfl ?_ rfl rfl⟩
    simp only [uncounted, hpc, hcnt]
  · exact absurd hpc hnot

/-! ## Every step leads from a phase to a phase -/

/-- The writer takes the next turn, from either of the places it may be at. -/
theorem inv_writer_free {BUF_SIZE k : ℕ} {input : List UInt8} {s s' : State} (hup : Up s 1 0)
    (hw : s.wpc = .reserve ∨ Looping s) (hr : s.rpc.waiting) (hb : Books input s [])
    (h : writerStep BUF_SIZE k s = some s') : Inv input s' := by
  by_cases hpc : s.wpc = .reserve
  · simp only [writerStep, hpc, Option.map_eq_some_iff] at h
    obtain ⟨s₁, hs₁, rfl⟩ := h
    obtain ⟨sems, rfl, -, hup'⟩ := hup.reserveWrite hs₁
    refine .reading ⟨hup'.1, hup'.2, hup'.3, hup'.4⟩ rfl hr (hb.keep rfl ?_ rfl rfl)
    simp only [uncounted, hpc]
  · obtain ⟨_, _, _, rfl, hw', hb'⟩ := looping_step (hw.resolve_left hpc) hpc h hb
    exact .free ⟨hup.1, hup.2, hup.3, hup.4⟩ (Or.inr hw') hr hb'

/-- `read()`: a piece of the input, or the end of it. -/
theorem inv_writer_reading {BUF_SIZE k : ℕ} {input : List UInt8} {s s' : State} (hup : Up s 0 0)
    (hw : s.wpc = .read) (hr : s.rpc.waiting) (hb : Books input s [])
    (h : writerStep BUF_SIZE k s = some s') : Inv input s' := by
  have hu : uncounted s = 0 := by simp only [uncounted, hw]
  have hwb := hb.wbytes
  have hx := hb.xfrs
  rw [hu, List.length_nil, Nat.add_zero] at hwb
  rw [hu, List.length_nil, Nat.min_zero, Nat.add_zero] at hx
  simp only [writerStep, hw] at h
  split at h
  · rename_i hnil
    rw [Option.some.injEq] at h
    subst h
    refine .storing ⟨hup.1, hup.2, hup.3, hup.4⟩ rfl hr (fun _ => hnil) (hb.keep rfl ?_ rfl rfl)
    exact hu.symm
  · split at h
    · rename_i hne hk
      rw [Option.some.injEq] at h
      subst h
      -- the piece read is what `buf` now starts with
      have hpiece : slice (storeAll s.buf 0 (s.input.take k)) 0 k = s.input.take k := by
        have hlen : (s.input.take k).length = k := by rw [List.length_take]; omega
        have hslice := slice_storeAll s.buf 0 (s.input.take k)
        rwa [hlen] at hslice
      refine .storing ⟨hup.1, hup.2, hup.3, hup.4⟩ rfl hr (fun h0 => absurd h0 (by simp only; omega)) ?_
      simp only [hpiece]
      have hlen : (s.input.take k).length = k := by rw [List.length_take]; omega
      refine ⟨?_, ?_, hb.rbytes, ?_⟩
      · simp only [List.append_assoc, List.take_append_drop]
        have hsplit := hb.split
        rwa [List.append_nil] at hsplit
      · simp only [uncounted, hlen]
        rw [BitVec.ofNat_add, ← hwb, BitVec.add_zero]
      · simp only [uncounted, hlen]
        rw [BitVec.ofNat_add, ← BitVec.add_assoc]
        exact congrArg (· + BitVec.ofNat 32 (min 1 k)) ((BitVec.add_zero _).symm.trans hx)
    · exact nomatch h

/-- `shmp->cnt = ...` -/
theorem inv_writer_storing {BUF_SIZE k : ℕ} {input : List UInt8} {s s' : State} (hup : Up s 0 0)
    (hw : s.wpc = .store) (hr : s.rpc.waiting) (hend : s.got = 0 → s.input = [])
    (hb : Books input s (slice s.buf 0 s.got)) (h : writerStep BUF_SIZE k s = some s') :
    Inv input s' := by
  simp only [writerStep, hw, Option.some.injEq] at h
  subst h
  refine .sending ⟨hup.1, hup.2, hup.3, hup.4⟩ rfl hr hend (hb.keep rfl ?_ ?_ rfl)
  · simp only [uncounted, hw]
  · -- the reader is not between its total and its output, so `cnt` may change
    have hnot : s.rpc ≠ .write := by rintro hpc; rw [hpc] at hr; exact nomatch hr
    simp only [counted, if_neg hnot]

/-- `releaseSem(READ_SEM)`: the piece is in the reader's hands. -/
theorem inv_writer_sending {BUF_SIZE k : ℕ} {input : List UInt8} {s s' : State} (hup : Up s 0 0)
    (hw : s.wpc = .release) (hr : s.rpc.waiting) (hend : s.cnt = 0 → s.input = [])
    (hb : Books input s (slice s.buf 0 s.cnt)) (h : writerStep BUF_SIZE k s = some s') :
    Inv input s' := by
  simp only [writerStep, hw, Option.map_eq_some_iff] at h
  obtain ⟨s₁, hs₁, rfl⟩ := h
  obtain ⟨sems, rfl, hup'⟩ := hup.releaseRead hs₁
  refine .full ⟨hup'.1, hup'.2, hup'.3, hup'.4⟩ ?_ hr (hb.keep rfl ?_ rfl rfl)
  · by_cases hcnt : s.cnt = 0
    · exact Or.inr ⟨Or.inl rfl, hcnt, hend hcnt⟩
    · exact Or.inl ⟨Or.inl rfl, hcnt⟩
  · simp only [uncounted, hw]

/-- The writer cannot take a turn it does not have, wherever it stands between two. -/
theorem writer_outside {BUF_SIZE k : ℕ} {input f : List UInt8} {s s' : State} {r : ℕ}
    (hup : Up s 0 r) (hw : Looping s ∨ Ended s) (hb : Books input s f)
    (h : writerStep BUF_SIZE k s = some s') :
    ∃ wpc wxfrs wbytes, s' = { s with wpc := wpc, wxfrs := wxfrs, wbytes := wbytes } ∧
      (Looping s → Looping s') ∧ (Ended s → Ended s') ∧ Books input s' f := by
  have hblocked : ∀ s₁, s.reserve WRITE_SEM ≠ some s₁ := by
    intro s₁ hs₁
    obtain ⟨_, -, hpos, -⟩ := hup.reserveWrite hs₁
    omega
  rcases hw with hl | he
  · by_cases hpc : s.wpc = .reserve
    · simp only [writerStep, hpc, Option.map_eq_some_iff] at h
      obtain ⟨s₁, hs₁, -⟩ := h
      exact absurd hs₁ (hblocked s₁)
    · obtain ⟨a, b, c, hs, hl', hb'⟩ := looping_step hl hpc h hb
      exact ⟨a, b, c, hs, fun _ => hl', fun he => absurd he.2.1 hl.2, hb'⟩
  · by_cases hpc : s.wpc = .lastReserve
    · simp only [writerStep, hpc, Option.map_eq_some_iff] at h
      obtain ⟨s₁, hs₁, -⟩ := h
      exact absurd hs₁ (hblocked s₁)
    · obtain ⟨hs, he', hb'⟩ := ended_step he hpc h hb
      exact ⟨_, s.wxfrs, s.wbytes, hs, fun hl => absurd he.2.1 hl.2, fun _ => he', hb'⟩

/-- The extra turn. -/
theorem inv_writer_left {BUF_SIZE k : ℕ} {input : List UInt8} {s s' : State} (hup : Up s 1 0)
    (hw : Ended s) (hr : s.rpc = .done) (hb : Books input s [])
    (h : writerStep BUF_SIZE k s = some s') : Inv input s' := by
  by_cases hpc : s.wpc = .lastReserve
  · simp only [writerStep, hpc, Option.map_eq_some_iff] at h
    obtain ⟨s₁, hs₁, rfl⟩ := h
    obtain ⟨sems, rfl, -, hup'⟩ := hup.reserveWrite hs₁
    refine .closing ⟨hup'.1, hup'.2⟩ rfl hw.2.2 hr (hb.keep rfl ?_ rfl rfl)
    simp only [uncounted, hpc]
  · obtain ⟨rfl, hw', hb'⟩ := ended_step hw hpc h hb
    exact .left ⟨hup.1, hup.2, hup.3, hup.4⟩ hw' hr hb'

theorem closing_cases {w : WPc} (h : w.closing = true) :
    w = .rmSem ∨ w = .shmdt ∨ w = .rmShm ∨ w = .done := by
  revert h
  cases w <;> decide

/-- The clean-up. -/
theorem inv_writer_closing {BUF_SIZE k : ℕ} {input : List UInt8} {s s' : State}
    (hsem : s.sems WRITE_SEM = 0 ∧ s.sems READ_SEM = 0) (hw : s.wpc.closing) (hin : s.input = [])
    (hr : s.rpc = .done) (hb : Books input s []) (h : writerStep BUF_SIZE k s = some s') :
    Inv input s' := by
  have hkeep : ∀ s₁ : State, s₁.sems = s.sems → s₁.wpc.closing → s₁.rpc = s.rpc → s₁.cnt = s.cnt →
      (s₁.output, s₁.input, s₁.wbytes, s₁.rbytes, s₁.wxfrs, s₁.rxfrs)
        = (s.output, s.input, s.wbytes, s.rbytes, s.wxfrs, s.rxfrs) → Inv input s₁ := by
    intro s₁ hs hw₁ hr₁ hc₁ hdata
    have hzero : ∀ t : State, t.wpc.closing → uncounted t = 0 := by
      intro t ht
      rcases closing_cases ht with hpc | hpc | hpc | hpc <;> simp only [uncounted, hpc]
    have hin₁ : s₁.input = s.input := by
      simp only [Prod.mk.injEq] at hdata
      exact hdata.2.1
    refine .closing (hs ▸ hsem) hw₁ (hin₁.trans hin) (hr₁.trans hr) (hb.keep hdata ?_ ?_ ?_)
    · rw [hzero s₁ hw₁, hzero s hw]
    · rw [counted, counted, hr₁, hc₁]
    · rw [untallied, untallied, hr₁]
  rcases closing_cases hw with hpc | hpc | hpc | hpc <;>
    simp only [writerStep, hpc, Option.some.injEq, reduceCtorEq] at h <;>
    subst h <;>
    exact hkeep _ rfl rfl rfl rfl rfl

theorem inv_writer {BUF_SIZE k : ℕ} {input : List UInt8} {s s' : State} (hi : Inv input s)
    (h : writerStep BUF_SIZE k s = some s') : Inv input s' := by
  cases hi with
  | free hup hw hr hb => exact inv_writer_free hup hw hr hb h
  | reading hup hw hr hb => exact inv_writer_reading hup hw hr hb h
  | storing hup hw hr hend hb => exact inv_writer_storing hup hw hr hend hb h
  | sending hup hw hr hend hb => exact inv_writer_sending hup hw hr hend hb h
  | full hup hw hr hb =>
    obtain ⟨_, _, _, rfl, hl, he, hb'⟩ := writer_outside hup hw hb h
    exact .full ⟨hup.1, hup.2, hup.3, hup.4⟩ (hw.imp hl he) hr hb'
  | testing hup hw hr hb =>
    obtain ⟨_, _, _, rfl, hl, he, hb'⟩ := writer_outside hup hw hb h
    exact .testing ⟨hup.1, hup.2, hup.3, hup.4⟩ (hw.imp hl he) hr hb'
  | taking hup hw hr hb =>
    obtain ⟨_, _, _, rfl, hl, -, hb'⟩ := writer_outside hup (Or.inl hw) hb h
    exact .taking ⟨hup.1, hup.2, hup.3, hup.4⟩ (hl hw) hr hb'
  | taken hup hw hr hb =>
    obtain ⟨_, _, _, rfl, hl, -, hb'⟩ := writer_outside hup (Or.inl hw) hb h
    exact .taken ⟨hup.1, hup.2, hup.3, hup.4⟩ (hl hw) hr hb'
  | leaving hup hw hr hb =>
    obtain ⟨_, _, _, rfl, -, he, hb'⟩ := writer_outside hup (Or.inr hw) hb h
    exact .leaving ⟨hup.1, hup.2, hup.3, hup.4⟩ (he hw) hr hb'
  | left hup hw hr hb => exact inv_writer_left hup hw hr hb h
  | closing hsem hw hin hr hb => exact inv_writer_closing hsem hw hin hr hb h

/-- A waiting reader, in a phase whose turn it cannot take. -/
theorem reader_waiting {input f : List UInt8} {s s' : State} {w : ℕ} (hup : Up s w 0)
    (hr : s.rpc.waiting) (hb : Books input s f) (h : readerStep s = some s') :
    ∃ rpc rxfrs, s' = { s with rpc := rpc, rxfrs := rxfrs } ∧ rpc.waiting ∧ Books input s' f := by
  by_cases hpc : s.rpc = .reserve
  · simp only [readerStep, hpc, Option.map_eq_some_iff] at h
    obtain ⟨s₁, hs₁, -⟩ := h
    obtain ⟨_, -, hpos, -⟩ := hup.reserveRead hs₁
    omega
  · exact waiting_step hr hpc h hb

/-- The reader takes its turn, or is still on its way. -/
theorem inv_reader_full {input : List UInt8} {s s' : State} (hup : Up s 0 1)
    (hw : Looping s ∨ Ended s) (hr : s.rpc.waiting) (hb : Books input s (slice s.buf 0 s.cnt))
    (h : readerStep s = some s') : Inv input s' := by
  by_cases hpc : s.rpc = .reserve
  · simp only [readerStep, hpc, Option.map_eq_some_iff] at h
    obtain ⟨s₁, hs₁, rfl⟩ := h
    obtain ⟨sems, rfl, -, hup'⟩ := hup.reserveRead hs₁
    refine .testing ⟨hup'.1, hup'.2, hup'.3, hup'.4⟩ hw rfl (hb.keep rfl rfl ?_ ?_)
    · simp only [counted, hpc, reduceCtorEq]
    · simp only [untallied, hpc, reduceCtorEq, or_self]
  · obtain ⟨_, _, rfl, hr', hb'⟩ := waiting_step hr hpc h hb
    exact .full ⟨hup.1, hup.2, hup.3, hup.4⟩ hw hr' hb'

/-- `if (shmp->cnt == 0)`, in the reader. -/
theorem inv_reader_testing {input : List UInt8} {s s' : State} (hup : Up s 0 0)
    (hw : Looping s ∨ Ended s) (hr : s.rpc = .test) (hb : Books input s (slice s.buf 0 s.cnt))
    (h : readerStep s = some s') : Inv input s' := by
  simp only [readerStep, hr, Option.some.injEq] at h
  subst h
  rcases hw with hl | he
  · simp only [if_neg hl.2]
    refine .taking ⟨hup.1, hup.2, hup.3, hup.4⟩ hl (Or.inl rfl) (hb.keep rfl rfl ?_ ?_)
    · simp only [counted, hr, reduceCtorEq]
    · simp only [untallied, hr, reduceCtorEq, or_self]
  · -- nothing is in flight at the end
    have hnil : slice s.buf 0 s.cnt = [] := by rw [he.2.1, slice_zero]
    rw [hnil] at hb
    simp only [if_pos he.2.1]
    refine .leaving ⟨hup.1, hup.2, hup.3, hup.4⟩ he (Or.inl rfl) (hb.keep rfl rfl ?_ ?_)
    · simp only [counted, hr, reduceCtorEq]
    · simp only [untallied, hr, reduceCtorEq, or_self]

/-- `bytes += shmp->cnt` and `write()`. -/
theorem inv_reader_taking {input : List UInt8} {s s' : State} (hup : Up s 0 0) (hw : Looping s)
    (hr : s.rpc = .count ∨ s.rpc = .write) (hb : Books input s (slice s.buf 0 s.cnt))
    (h : readerStep s = some s') : Inv input s' := by
  rcases hr with hpc | hpc
  · simp only [readerStep, hpc, Option.some.injEq] at h
    subst h
    have hrb := hb.rbytes
    have hx := hb.xfrs
    simp only [counted, hpc, reduceCtorEq, if_false, Nat.add_zero] at hrb
    simp only [untallied, hpc, reduceCtorEq, or_self, if_false] at hx
    refine .taking ⟨hup.1, hup.2, hup.3, hup.4⟩ hw (Or.inr rfl) ⟨hb.split, hb.wbytes, ?_, ?_⟩
    · simp only [counted, if_true]
      rw [hrb, ← BitVec.ofNat_add]
    · simp only [untallied, reduceCtorEq, or_self, if_false]
      exact hx
  · simp only [readerStep, hpc, Option.some.injEq] at h
    subst h
    have hlen := length_slice s.buf 0 s.cnt
    have hone : min 1 s.cnt = 1 := by have := hw.2; omega
    have hwb := hb.wbytes
    have hrb := hb.rbytes
    have hx := hb.xfrs
    rw [hlen] at hwb
    simp only [counted, hpc, if_true] at hrb
    simp only [untallied, hpc, reduceCtorEq, or_self, if_false, hlen, hone, Nat.zero_add] at hx
    refine .taken ⟨hup.1, hup.2, hup.3, hup.4⟩ hw rfl ⟨?_, ?_, ?_, ?_⟩
    · simp only [List.append_nil]
      exact hb.split
    · simp only [List.length_append, hlen, List.length_nil, Nat.add_zero]
      exact hwb
    · simp only [counted, reduceCtorEq, if_false, List.length_append, hlen, Nat.add_zero]
      exact hrb
    · simp only [untallied, true_or, if_true, List.length_nil, Nat.min_zero, Nat.add_zero]
      exact hx

theorem inv_reader {input : List UInt8} {s s' : State} (hi : Inv input s)
    (h : readerStep s = some s') : Inv input s' := by
  cases hi with
  | free hup hw hr hb =>
    obtain ⟨_, _, rfl, hr', hb'⟩ := reader_waiting hup hr hb h
    exact .free ⟨hup.1, hup.2, hup.3, hup.4⟩ hw hr' hb'
  | reading hup hw hr hb =>
    obtain ⟨_, _, rfl, hr', hb'⟩ := reader_waiting hup hr hb h
    exact .reading ⟨hup.1, hup.2, hup.3, hup.4⟩ hw hr' hb'
  | storing hup hw hr hend hb =>
    obtain ⟨_, _, rfl, hr', hb'⟩ := reader_waiting hup hr hb h
    exact .storing ⟨hup.1, hup.2, hup.3, hup.4⟩ hw hr' hend hb'
  | sending hup hw hr hend hb =>
    obtain ⟨_, _, rfl, hr', hb'⟩ := reader_waiting hup hr hb h
    exact .sending ⟨hup.1, hup.2, hup.3, hup.4⟩ hw hr' hend hb'
  | full hup hw hr hb => exact inv_reader_full hup hw hr hb h
  | testing hup hw hr hb => exact inv_reader_testing hup hw hr hb h
  | taking hup hw hr hb => exact inv_reader_taking hup hw hr hb h
  | taken hup hw hr hb =>
    -- the turn goes back to the writer
    simp only [readerStep, hr, Option.map_eq_some_iff] at h
    obtain ⟨s₁, hs₁, rfl⟩ := h
    obtain ⟨sems, rfl, hup'⟩ := hup.releaseWrite hs₁
    refine .free ⟨hup'.1, hup'.2, hup'.3, hup'.4⟩ (Or.inr hw) rfl (hb.keep rfl rfl ?_ ?_)
    · simp only [counted, hr, reduceCtorEq]
    · simp only [untallied, hr, reduceCtorEq, true_or, or_true]
  | leaving hup hw hr hb =>
    rcases hr with hr | hr
    · simp only [readerStep, hr, Option.some.injEq] at h
      subst h
      refine .leaving ⟨hup.1, hup.2, hup.3, hup.4⟩ hw (Or.inr rfl) (hb.keep rfl rfl ?_ ?_)
      · simp only [counted, hr, reduceCtorEq]
      · simp only [untallied, hr, reduceCtorEq, or_self]
    · simp only [readerStep, hr, Option.map_eq_some_iff] at h
      obtain ⟨s₁, hs₁, rfl⟩ := h
      obtain ⟨sems, rfl, hup'⟩ := hup.releaseWrite hs₁
      refine .left ⟨hup'.1, hup'.2, hup'.3, hup'.4⟩ hw rfl (hb.keep rfl rfl ?_ ?_)
      · simp only [counted, hr, reduceCtorEq]
      · simp only [untallied, hr, reduceCtorEq, or_self]
  | left hup hw hr hb => simp only [readerStep, hr, reduceCtorEq] at h
  | closing hsem hw hin hr hb => simp only [readerStep, hr, reduceCtorEq] at h

theorem inv_of_reachable {BUF_SIZE : ℕ} {input : List UInt8} {s : State}
    (h : Reachable (xfr BUF_SIZE input) s) : Inv input s := by
  refine h.invariant ?_ ?_
  · rintro s ⟨sems, cnt, buf, rfl⟩
    exact inv_setUp input sems cnt buf
  · intro s a s' hi _ hs
    cases a with
    | writer k => exact inv_writer hi hs
    | reader => exact inv_reader hi hs

/-! ## What the protocol guarantees -/

theorem Inv.exclusive {input : List UInt8} {s : State} (h : Inv input s) :
    ¬(s.wpc.inSegment ∧ s.rpc.inSegment) ∧ s.sems WRITE_SEM + s.sems READ_SEM ≤ 1 := by
  have hwait : s.rpc.waiting → ¬s.rpc.inSegment := by
    cases s.rpc <;> decide
  have hloop : Looping s ∨ Ended s → ¬s.wpc.inSegment := by
    rintro (⟨hpc | hpc | hpc, -⟩ | ⟨hpc | hpc, -⟩) <;> rw [hpc] <;> decide
  have hsum : ∀ w r, Up s w r → w + r ≤ 1 → s.sems WRITE_SEM + s.sems READ_SEM ≤ 1 := by
    intro w r hup hle
    rw [hup.write, hup.read]
    exact hle
  cases h with
  | free hup hw hr hb => exact ⟨fun h => hwait hr h.2, hsum _ _ hup (by decide)⟩
  | reading hup hw hr hb => exact ⟨fun h => hwait hr h.2, hsum _ _ hup (by decide)⟩
  | storing hup hw hr hend hb => exact ⟨fun h => hwait hr h.2, hsum _ _ hup (by decide)⟩
  | sending hup hw hr hend hb => exact ⟨fun h => hwait hr h.2, hsum _ _ hup (by decide)⟩
  | full hup hw hr hb => exact ⟨fun h => hwait hr h.2, hsum _ _ hup (by decide)⟩
  | testing hup hw hr hb => exact ⟨fun h => hloop hw h.1, hsum _ _ hup (by decide)⟩
  | taking hup hw hr hb => exact ⟨fun h => hloop (Or.inl hw) h.1, hsum _ _ hup (by decide)⟩
  | taken hup hw hr hb => exact ⟨fun h => hloop (Or.inl hw) h.1, hsum _ _ hup (by decide)⟩
  | leaving hup hw hr hb =>
    exact ⟨fun h => hloop (Or.inr hw) h.1, hsum _ _ hup (by decide)⟩
  | left hup hw hr hb => exact ⟨fun h => hloop (Or.inr hw) h.1, hsum _ _ hup (by decide)⟩
  | closing hsem hw hin hr hb =>
    refine ⟨fun h => ?_, by rw [hsem.1, hsem.2]; omega⟩
    rw [hr] at h
    exact Bool.false_ne_true h.2

theorem Inv.books {input : List UInt8} {s : State} (h : Inv input s) : ∃ f, Books input s f := by
  cases h <;> exact ⟨_, by assumption⟩

/-- Something is removed only when the writer is closing, and then the reader is done. -/
theorem Inv.removed {input : List UInt8} {s : State} (h : Inv input s)
    (hrem : s.semRemoved = true ∨ s.shmRemoved = true) : s.rpc = .done := by
  have hup : ∀ w r, ¬Up s w r := by
    intro w r hup
    rw [hup.sem, hup.shm] at hrem
    exact hrem.elim Bool.false_ne_true Bool.false_ne_true
  cases h with
  | closing hsem hw hin hr hb => exact hr
  | free h => exact absurd h (hup _ _)
  | reading h => exact absurd h (hup _ _)
  | storing h => exact absurd h (hup _ _)
  | sending h => exact absurd h (hup _ _)
  | full h => exact absurd h (hup _ _)
  | testing h => exact absurd h (hup _ _)
  | taking h => exact absurd h (hup _ _)
  | taken h => exact absurd h (hup _ _)
  | leaving h => exact absurd h (hup _ _)
  | left h => exact absurd h (hup _ _)

/-- When both have terminated everything has arrived and the totals agree. -/
theorem Inv.finished {input : List UInt8} {s : State} (h : Inv input s) (hw : s.wpc = .done)
    (hr : s.rpc = .done) :
    s.output = input ∧ s.wxfrs = s.rxfrs ∧ s.wbytes = s.rbytes := by
  have hu : uncounted s = 0 := by simp only [uncounted, hw]
  have hc : counted s = 0 := by simp only [counted, hr, reduceCtorEq, if_false]
  have ht : untallied s = 0 := by simp only [untallied, hr, reduceCtorEq, or_self, if_false]
  have hclosing : s.input = [] ∧ Books input s [] := by
    have hnot : ∀ w : WPc, s.wpc = w → w ≠ .done → False := fun w h₁ h₂ => h₂ (h₁ ▸ hw)
    have hloop : ¬(Looping s ∨ Ended s) := by
      rintro (⟨hpc | hpc | hpc, -⟩ | ⟨hpc | hpc, -⟩) <;> exact hnot _ hpc nofun
    cases h with
    | closing hsem hw hin hr hb => exact ⟨hin, hb⟩
    | free _ hpc => exact (hpc.elim (fun h => hnot _ h nofun) fun h => hloop (Or.inl h)).elim
    | reading _ hpc => exact (hnot _ hpc nofun).elim
    | storing _ hpc => exact (hnot _ hpc nofun).elim
    | sending _ hpc => exact (hnot _ hpc nofun).elim
    | full _ hpc => exact absurd hpc hloop
    | testing _ hpc => exact absurd hpc hloop
    | taking _ hpc => exact absurd (Or.inl hpc) hloop
    | taken _ hpc => exact absurd (Or.inl hpc) hloop
    | leaving _ hpc => exact absurd (Or.inr hpc) hloop
    | left _ hpc => exact absurd (Or.inr hpc) hloop
  obtain ⟨hin, hb⟩ := hclosing
  have hsplit := hb.split
  have hwb := hb.wbytes
  have hrb := hb.rbytes
  have hx := hb.xfrs
  rw [hin, List.append_nil, List.append_nil] at hsplit
  rw [hu, List.length_nil, Nat.add_zero] at hwb
  rw [hc, Nat.add_zero] at hrb
  rw [hu, ht, List.length_nil, Nat.min_zero, Nat.add_zero] at hx
  refine ⟨hsplit.symm, ?_, ?_⟩
  · exact (BitVec.add_zero _).symm.trans (hx.trans (BitVec.add_zero _))
  · rw [hrb, ← hwb]
    exact (BitVec.add_zero _).symm

/-- A reserve of a semaphore that is not 0 does not wait. -/
theorem Up.reserves {s : State} {w r : ℕ} (hup : Up s w r) {semNum : ℕ}
    (hpos : 0 < s.sems semNum) : ∃ s', s.reserve semNum = some s' := by
  rw [State.reserve, if_neg (Bool.eq_false_iff.mp hup.sem), reserveSem, if_pos hpos]
  exact ⟨_, rfl⟩

/-- A release never waits. -/
theorem Up.releases {s : State} {w r : ℕ} (hup : Up s w r) (semNum : ℕ) :
    ∃ s', s.release semNum = some s' := by
  rw [State.release, if_neg (Bool.eq_false_iff.mp hup.sem)]
  exact ⟨_, rfl⟩

/-- **No deadlock**: unless both programs have terminated, one of them can go on. -/
theorem xfr_progress {BUF_SIZE : ℕ} (hsize : 0 < BUF_SIZE) {input : List UInt8} {s : State}
    (h : Reachable (xfr BUF_SIZE input) s) (hdone : ¬(s.wpc = .done ∧ s.rpc = .done)) :
    ∃ a s', step BUF_SIZE s a = some s' := by
  -- the phase tells whose turn it is: the one who holds the segment, or who may reserve it
  cases inv_of_reachable h with
  | free hup hw hr hb =>
    refine ⟨.writer 0, ?_⟩
    rcases hw with hpc | ⟨hpc | hpc | hpc, -⟩ <;> simp only [step, writerStep, hpc]
    · obtain ⟨s', hs'⟩ := hup.reserves (hup.write ▸ Nat.one_pos)
      exact ⟨_, by rw [hs']; rfl⟩
    · exact ⟨_, rfl⟩
    · exact ⟨_, rfl⟩
    · obtain ⟨s', hs'⟩ := hup.reserves (hup.write ▸ Nat.one_pos)
      exact ⟨_, by rw [hs']; rfl⟩
  | reading hup hw hr hb =>
    refine ⟨.writer 1, ?_⟩
    simp only [step, writerStep, hw]
    -- `read()` gets the end of file, or at least one byte
    by_cases hnil : s.input = []
    · exact ⟨_, if_pos hnil⟩
    · have hlen := List.length_pos_iff.mpr hnil
      rw [if_neg hnil, if_pos ⟨Nat.le_refl _, hsize, hlen⟩]
      exact ⟨_, rfl⟩
  | storing hup hw hr hend hb =>
    refine ⟨.writer 0, ?_⟩
    simp only [step, writerStep, hw]
    exact ⟨_, rfl⟩
  | sending hup hw hr hend hb =>
    refine ⟨.writer 0, ?_⟩
    simp only [step, writerStep, hw]
    obtain ⟨s', hs'⟩ := hup.releases READ_SEM
    exact ⟨_, by rw [hs']; rfl⟩
  | full hup hw hr hb =>
    refine ⟨.reader, ?_⟩
    -- the reader may still have to get the semaphores and the segment
    cases hpc : s.rpc <;> rw [hpc] at hr <;>
      simp only [RPc.waiting, Bool.false_eq_true] at hr <;>
      simp only [step, readerStep, hpc, hup.sem, hup.shm, Bool.false_eq_true, if_false]
    case reserve =>
      obtain ⟨s', hs'⟩ := hup.reserves (hup.read ▸ Nat.one_pos)
      exact ⟨_, by rw [hs']; rfl⟩
    all_goals exact ⟨_, rfl⟩
  | testing hup hw hr hb =>
    refine ⟨.reader, ?_⟩
    simp only [step, readerStep, hr]
    exact ⟨_, rfl⟩
  | taking hup hw hr hb =>
    refine ⟨.reader, ?_⟩
    rcases hr with hr | hr <;> simp only [step, readerStep, hr] <;> exact ⟨_, rfl⟩
  | taken hup hw hr hb =>
    refine ⟨.reader, ?_⟩
    simp only [step, readerStep, hr]
    obtain ⟨s', hs'⟩ := hup.releases WRITE_SEM
    exact ⟨_, by rw [hs']; rfl⟩
  | leaving hup hw hr hb =>
    refine ⟨.reader, ?_⟩
    rcases hr with hr | hr <;> simp only [step, readerStep, hr]
    · exact ⟨_, rfl⟩
    · obtain ⟨s', hs'⟩ := hup.releases WRITE_SEM
      exact ⟨_, by rw [hs']; rfl⟩
  | left hup hw hr hb =>
    refine ⟨.writer 0, ?_⟩
    obtain ⟨hpc | hpc, -⟩ := hw <;> simp only [step, writerStep, hpc]
    · exact ⟨_, rfl⟩
    · obtain ⟨s', hs'⟩ := hup.reserves (hup.write ▸ Nat.one_pos)
      exact ⟨_, by rw [hs']; rfl⟩
  | closing hsem hw hin hr hb =>
    refine ⟨.writer 0, ?_⟩
    rcases closing_cases hw with hpc | hpc | hpc | hpc
    · simp only [step, writerStep, hpc]
      exact ⟨_, rfl⟩
    · simp only [step, writerStep, hpc]
      exact ⟨_, rfl⟩
    · simp only [step, writerStep, hpc]
      exact ⟨_, rfl⟩
    · exact absurd ⟨hpc, hr⟩ hdone

/-- **The transfer protocol**, in every state of every interleaving and for every chunking of
the input: the two segments exclude each other and at most one semaphore is up; what the
reader has written is the beginning of the input; when both programs have terminated it is
all of it and the totals agree; nothing is removed before the reader's last access. -/
theorem xfr_protocol (BUF_SIZE : ℕ) (input : List UInt8) (s : State)
    (h : Reachable (xfr BUF_SIZE input) s) :
    (¬(s.wpc.inSegment ∧ s.rpc.inSegment) ∧ s.sems WRITE_SEM + s.sems READ_SEM ≤ 1) ∧
      s.output <+: input ∧
      (s.wpc = .done → s.rpc = .done →
        s.output = input ∧ s.wxfrs = s.rxfrs ∧ s.wbytes = s.rbytes) ∧
      (s.semRemoved ∨ s.shmRemoved → s.rpc = .done) := by
  have hi := inv_of_reachable h
  obtain ⟨f, hb⟩ := hi.books
  refine ⟨hi.exclusive, ⟨f ++ s.input, ?_⟩, hi.finished, hi.removed⟩
  rw [← List.append_assoc]
  exact hb.split.symm

/-- Three bytes in pieces of two and one, to the end of both programs. -/
theorem xfr_protocol_three_bytes :
    ∃ s, Reachable (xfr 1024 [1, 2, 3]) s ∧ s.wpc = .done ∧ s.rpc = .done ∧ s.output = [1, 2, 3] ∧
      s.wxfrs = s.rxfrs ∧ s.wbytes = s.rbytes := by
  let w := Act.writer
  let r := Act.reader
  have hrun : ((xfr 1024 [1, 2, 3]).run (setUp [1, 2, 3] (fun _ => 0) 0 fun _ => 0)
      [w 0, r, w 2, w 0, r, w 0, r, r, r, w 0, r, w 0, r, r, w 0, w 1, r, w 0, w 0, r, r, w 0, r, r, r,
        r, w 0, w 0, w 0, w 0, w 0, w 0, r, r, r, r, w 0, w 0, w 0, w 0]).map
      (fun s => (s.wpc, s.rpc)) = some (.done, .done) := by decide +kernel
  obtain ⟨s, hs, hpc⟩ := Option.map_eq_some_iff.mp hrun
  rw [Prod.mk.injEq] at hpc
  have hreach : Reachable (xfr 1024 [1, 2, 3]) s :=
    System.reachable_of_run _ (.init ⟨_, _, _, rfl⟩) hs
  exact ⟨s, hreach, hpc.1, hpc.2, (xfr_protocol 1024 [1, 2, 3] s hreach).2.2.1 hpc.1 hpc.2⟩

/-! ## The transfer comes to its end -/

/-- How many steps the writer takes before it waits for the next turn with nothing to send, and six for
the reader's turn when it is about to hand over a piece of some bytes. -/
def WPc.rank (got cnt : ℕ) : WPc → ℕ
  | .reserve => 9
  | .read => 8
  | .store => if got = 0 then 7 else 19
  | .release => if cnt = 0 then 6 else 18
  | .test => if cnt = 0 then 5 else 11
  | .incr => 10
  | .lastReserve => 4
  | .rmSem => 3
  | .shmdt => 2
  | .rmShm => 1
  | .done => 0

def RPc.rank (cnt : ℕ) : RPc → ℕ
  | .semget => 7
  | .shmget => 6
  | .shmat => 5
  | .reserve => 4
  | .test => if cnt = 0 then 3 else 9
  | .count => 8
  | .write => 7
  | .release => 6
  | .incr => 5
  | .shmdt => 2
  | .lastRelease => 1
  | .done => 0

/-- Each byte still to be read may take a turn of either side. -/
def State.budget (s : State) : ℕ :=
  12 * s.input.length + s.wpc.rank s.got s.cnt + s.rpc.rank s.cnt +
    if s.cnt = 0 then 0 else 6 * s.sems READ_SEM

theorem reserve_cases {s s' : State} {semNum : ℕ} (h : s.reserve semNum = some s') :
    ∃ sems, s' = { s with sems := sems } ∧ s.sems semNum = sems semNum + 1 ∧
      ∀ j, j ≠ semNum → sems j = s.sems j := by
  rw [State.reserve, Option.ite_none_left_eq_some] at h
  obtain ⟨sems, hs, rfl⟩ := Option.map_eq_some_iff.mp h.2
  exact ⟨sems, rfl, reserveSem_eq_some hs⟩

theorem release_cases {s s' : State} {semNum : ℕ} (h : s.release semNum = some s') :
    ∃ sems, s' = { s with sems := sems } ∧ sems semNum = s.sems semNum + 1 ∧
      ∀ j, j ≠ semNum → sems j = s.sems j := by
  rw [State.release, Option.ite_none_left_eq_some, Option.some.injEq] at h
  exact ⟨_, h.2.symm, releaseSem_same s.sems semNum, fun _ hj => releaseSem_of_ne s.sems hj⟩

/-- `shmp->cnt` is not set while the reader has a turn to take, or has taken it. -/
theorem Inv.not_reading {input : List UInt8} {s : State} (h : Inv input s) (hpc : s.wpc = .store) :
    s.sems READ_SEM = 0 ∧ s.rpc ≠ .test := by
  have hloop : ¬(Looping s ∨ Ended s) := by
    rintro (⟨hc | hc | hc, -⟩ | ⟨hc | hc, -⟩) <;> rw [hpc] at hc <;> cases hc
  have hwait : s.rpc.waiting = true → s.rpc ≠ .test := fun hr hc => by
    rw [hc] at hr
    cases hr
  cases h with
  | free hup _ hr => exact ⟨hup.read, hwait hr⟩
  | reading hup _ hr => exact ⟨hup.read, hwait hr⟩
  | storing hup _ hr => exact ⟨hup.read, hwait hr⟩
  | sending hup _ hr => exact ⟨hup.read, hwait hr⟩
  | full _ hw => exact absurd hw hloop
  | testing _ hw => exact absurd hw hloop
  | taking _ hw => exact absurd (.inl hw) hloop
  | taken _ hw => exact absurd (.inl hw) hloop
  | leaving _ hw => exact absurd (.inr hw) hloop
  | left _ hw => exact absurd (.inr hw) hloop
  | closing hsem _ _ hr => exact ⟨hsem.2, by rw [hr]; nofun⟩

theorem writer_budget {BUF_SIZE k : ℕ} {input : List UInt8} {s s' : State} (hi : Inv input s)
    (h : writerStep BUF_SIZE k s = some s') : s'.budget < s.budget := by
  cases hpc : s.wpc with
  | reserve | lastReserve =>
    simp only [writerStep, hpc, Option.map_eq_some_iff] at h
    obtain ⟨s₁, hs₁, rfl⟩ := h
    obtain ⟨sems, rfl, -, hkeep⟩ := reserve_cases hs₁
    have hread := hkeep READ_SEM (by decide)
    simp only [State.budget, hpc, hread, WPc.rank]
    omega
  | read =>
    simp only [writerStep, hpc] at h
    split at h
    · obtain rfl := Option.some.inj h
      simp only [State.budget, hpc, WPc.rank, if_true]
      omega
    · rw [Option.ite_none_right_eq_some] at h
      obtain ⟨⟨hone, -, hlen⟩, h⟩ := h
      obtain rfl := Option.some.inj h
      have hk : k ≠ 0 := by omega
      simp only [State.budget, hpc, WPc.rank, if_neg hk, List.length_drop]
      omega
  | store =>
    obtain ⟨hread, htest⟩ := hi.not_reading hpc
    simp only [writerStep, hpc, Option.some.injEq] at h
    rw [← h]
    have hrpc : s.rpc.rank s.got = s.rpc.rank s.cnt := by
      cases hr : s.rpc with
      | test => exact absurd hr htest
      | _ => rfl
    simp only [State.budget, hpc, hread, WPc.rank, hrpc]
    split <;> omega
  | release =>
    simp only [writerStep, hpc, Option.map_eq_some_iff] at h
    obtain ⟨s₁, hs₁, rfl⟩ := h
    obtain ⟨sems, rfl, hup, -⟩ := release_cases hs₁
    simp only [State.budget, hpc, hup, WPc.rank]
    split <;> omega
  | test =>
    simp only [writerStep, hpc, Option.some.injEq] at h
    rw [← h]
    by_cases hcnt : s.cnt = 0
    · simp only [State.budget, hpc, if_pos hcnt, WPc.rank]
      omega
    · simp only [State.budget, hpc, if_neg hcnt, WPc.rank]
      omega
  | incr | rmSem | shmdt | rmShm =>
    simp only [writerStep, hpc, Option.some.injEq] at h
    rw [← h]
    simp only [State.budget, hpc, WPc.rank]
    omega
  | done => simp only [writerStep, hpc, reduceCtorEq] at h

theorem reader_budget {s s' : State} (h : readerStep s = some s') : s'.budget < s.budget := by
  cases hpc : s.rpc with
  | semget | shmget | shmat =>
    simp only [readerStep, hpc, Option.ite_none_left_eq_some, Option.some.injEq] at h
    rw [← h.2]
    simp only [State.budget, hpc, RPc.rank]
    omega
  | reserve =>
    -- the turn that was paid for when the piece was handed over
    simp only [readerStep, hpc, Option.map_eq_some_iff] at h
    obtain ⟨s₁, hs₁, rfl⟩ := h
    obtain ⟨sems, rfl, hdown, -⟩ := reserve_cases hs₁
    simp only [State.budget, hpc, hdown, RPc.rank]
    split <;> omega
  | test =>
    simp only [readerStep, hpc, Option.some.injEq] at h
    rw [← h]
    by_cases hcnt : s.cnt = 0
    · simp only [State.budget, hpc, if_pos hcnt, RPc.rank]
      omega
    · simp only [State.budget, hpc, if_neg hcnt, RPc.rank]
      omega
  | release | lastRelease =>
    simp only [readerStep, hpc, Option.map_eq_some_iff] at h
    obtain ⟨s₁, hs₁, rfl⟩ := h
    obtain ⟨sems, rfl, -, hkeep⟩ := release_cases hs₁
    have hread := hkeep READ_SEM (by decide)
    simp only [State.budget, hpc, hread, RPc.rank]
    omega
  | count | write | incr | shmdt =>
    simp only [readerStep, hpc, Option.some.injEq] at h
    rw [← h]
    simp only [State.budget, hpc, RPc.rank]
    omega
  | done => simp only [readerStep, hpc, reduceCtorEq] at h

/-- **The transfer comes to its end**: whatever the input, and however `read()` divides it and the two
programs take turns, a run has at most twelve steps for each byte and a few more; and where no step is
left, both programs have terminated, the reader has written the whole input, and the totals agree. -/
theorem transfer_ends {BUF_SIZE : ℕ} (hsize : 0 < BUF_SIZE) {input : List UInt8} {s s' : State}
    (hinit : (xfr BUF_SIZE input).init s) (as : List Act)
    (hrun : (xfr BUF_SIZE input).run s as = some s') :
    as.length ≤ 12 * input.length + 16 ∧
      ((∀ a, step BUF_SIZE s' a = none) → s'.wpc = .done ∧ s'.rpc = .done ∧ s'.output = input ∧
        s'.wxfrs = s'.rxfrs ∧ s'.wbytes = s'.rbytes) := by
  have hstart : s.budget = 12 * input.length + 16 := by
    obtain ⟨sems, cnt, buf, rfl⟩ := hinit
    simp only [State.budget, setUp, initSemInUse, Function.update_self, WPc.rank, RPc.rank]
    split <;> omega
  have hreach := System.reachable_of_run as (.init hinit) hrun
  obtain ⟨hi', hle⟩ := System.runWith_measure (S := xfr BUF_SIZE input) (I := Inv input)
    (m := State.budget) (fun s a s' hi _ hs => by
      cases a with
      | writer k => exact ⟨inv_writer hi hs, writer_budget hi hs⟩
      | reader => exact ⟨inv_reader hi hs, reader_budget hs⟩)
    as (inv_of_reachable (.init hinit)) hrun
  refine ⟨by omega, fun hrest => ?_⟩
  have hdone : s'.wpc = .done ∧ s'.rpc = .done := by
    by_contra hno
    obtain ⟨a, s'', hs⟩ := xfr_progress hsize hreach hno
    rw [hrest a] at hs
    cases hs
  exact ⟨hdone.1, hdone.2, hi'.finished hdone.1 hdone.2⟩

/-- One byte, on a set of semaphores that was in use before. -/
theorem transfer_ends_one_byte : ∃ s : State, s.wpc = .done ∧ s.rpc = .done ∧ s.output = [7] ∧
    s.wxfrs = s.rxfrs ∧ s.wbytes = s.rbytes := by
  let w := Act.writer
  let r := Act.reader
  have hrun : ((xfr 1024 [7]).run (setUp [7] (fun _ => 5) 3 fun _ => 0)
      [w 0, r, w 1, w 0, r, w 0, r, r, r, w 0, r, r, r, r, w 0, w 0, w 0, w 0, w 0, w 0, r, r, r, r,
        w 0, w 0, w 0, w 0]).map (fun s => (s.wpc, s.rpc)) = some (.done, .done) := by decide +kernel
  obtain ⟨s, hs, hpc⟩ := Option.map_eq_some_iff.mp hrun
  rw [Prod.mk.injEq] at hpc
  refine ⟨s, (transfer_ends (by decide) ⟨_, _, _, rfl⟩ _ hs).2 fun a => ?_⟩
  cases a with
  | writer k => simp only [step, writerStep, hpc.1]
  | reader => simp only [step, readerStep, hpc.2]

end Tlpi.SvshmXfr
