/-
`pipes/fifo_seqnum_server.c` and `pipes/fifo_seqnum_client.c`: a server that hands out blocks of
numbers, asked through one well-known FIFO and answering through a FIFO of each client's own.

## What is modelled

The server after its set-up and any number of clients, each call a step of its own, with the
bytes that lie in the FIFOs. A client is known by its process ID, and no ID is used twice. The
server finds the client's FIFO by the name that both sides print from that ID. An `open()` of a
FIFO registers the caller at once and returns when both sides have been there together (`met`).

Every call of either side may fail instead, and a client may be killed anywhere; it then leaves
its FIFO behind, and a server that opens it waits for ever. What is promised below holds in
those runs too. The second half is about runs without such faults: they do not get stuck.

## The shape of the argument

`served` is a history variable: the clients for whom a number was written, in order. The number
for a client is the total of the lengths before it (`base`), and that does not change when the
history grows. `Inv` ties the rest to it: what lies in the server's FIFO is a list of whole
requests (so that no read is partial), of clients that are not in the history yet and are all
different, and what lies in a client's FIFO is its own number.
-/
import Mathlib.Data.Int.ConditionallyCompleteOrder
import Mathlib.Order.CompletePartialOrder
import Mathlib.Order.Interval.Set.Basic
import Mathlib.Order.Interval.Set.Disjoint
import Mathlib.Algebra.BigOperators.Group.List.Basic
import Mathlib.Algebra.GroupWithZero.Nat
import Mathlib.Data.Nat.Digits.Lemmas
import Tlpi.CString
import Tlpi.Decimal
import Tlpi.GetNum
import Tlpi.LittleEndian
import Tlpi.Transition

set_option autoImplicit false

namespace Tlpi.FifoSeqnum

open Tlpi.CString Tlpi.Decimal Tlpi.GetNum Tlpi.LittleEndian Tlpi.Strtol Tlpi.Transition Tlpi.TryGetNum

/-! ## fifo_seqnum.h -/

/-- `CLIENT_FIFO_TEMPLATE`, up to the conversion. -/
def CLIENT_FIFO_TEMPLATE : List UInt8 := bytes "/tmp/seqnum_cl."

/-- `sizeof(CLIENT_FIFO_TEMPLATE) + 20`, the `%ld` and the null byte included. -/
abbrev CLIENT_FIFO_NAME_LEN : ℕ := 39

abbrev Pid := BitVec 32

/-- `snprintf(clientFifo, CLIENT_FIFO_NAME_LEN, CLIENT_FIFO_TEMPLATE, (long) pid)` -/
def clientFifo (pid : Pid) : List UInt8 :=
  (CLIENT_FIFO_TEMPLATE ++ printInt pid.toInt).take (CLIENT_FIFO_NAME_LEN - 1)

structure request where
  pid : Pid
  seqLen : BitVec 32
deriving Repr, DecidableEq

structure response where
  seqNum : BitVec 32
deriving Repr, DecidableEq

abbrev sizeof_request : ℕ := 8
abbrev sizeof_response : ℕ := 4

def request.bytes (r : request) : List UInt8 := toBytes 4 r.pid.toNat ++ toBytes 4 r.seqLen.toNat

/-- What a `struct request` that holds these bytes says. -/
def request.ofBytes (bs : List UInt8) : request :=
  { pid := BitVec.ofNat 32 (LittleEndian.ofBytes (bs.take 4))
    seqLen := BitVec.ofNat 32 (LittleEndian.ofBytes ((bs.drop 4).take 4)) }

def response.bytes (r : response) : List UInt8 := toBytes 4 r.seqNum.toNat

def response.ofBytes (bs : List UInt8) : response :=
  { seqNum := BitVec.ofNat 32 (LittleEndian.ofBytes (bs.take 4)) }

@[simp] theorem request.length_bytes (r : request) : r.bytes.length = sizeof_request := by
  simp only [request.bytes, List.length_append, length_toBytes]

@[simp] theorem response.length_bytes (r : response) : r.bytes.length = sizeof_response := by
  simp only [response.bytes, length_toBytes]

theorem request.ofBytes_bytes (r : request) : request.ofBytes r.bytes = r := by
  have hpid : r.bytes.take 4 = toBytes 4 r.pid.toNat := by
    rw [request.bytes, List.take_left' (length_toBytes _ _)]
  have hlen : (r.bytes.drop 4).take 4 = toBytes 4 r.seqLen.toNat := by
    rw [request.bytes, List.drop_left' (length_toBytes _ _), List.take_of_length_le]
    exact (length_toBytes _ _).le
  have hp := ofNat_ofBytes_toBytes (k := 4) (by decide) r.pid
  have hl := ofNat_ofBytes_toBytes (k := 4) (by decide) r.seqLen
  rw [request.ofBytes, hpid, hlen, hp, hl]

theorem response.ofBytes_bytes (r : response) : response.ofBytes r.bytes = r := by
  have htake : r.bytes.take 4 = toBytes 4 r.seqNum.toNat :=
    List.take_of_length_le (length_toBytes _ _).le
  have hs := ofNat_ofBytes_toBytes (k := 4) (by decide) r.seqNum
  rw [response.ofBytes, htake, hs]

/-! ## The two programs -/

/-- A client's FIFO: whether its name exists, who has it open, whether the two sides have been
there together, and the bytes in it. -/
structure Fifo where
  linked : Bool
  reader : Bool
  writer : Bool
  met : Bool
  data : List UInt8
deriving Repr, DecidableEq

/-- `open(.., O_RDONLY)`, up to the moment when it waits for a writer. -/
def Fifo.openRead (f : Fifo) : Fifo := { f with reader := true, met := f.met || f.writer }

/-- `open(.., O_WRONLY)`, up to the moment when it waits for a reader. -/
def Fifo.openWrite (f : Fifo) : Fifo := { f with writer := true, met := f.met || f.reader }

/-- A FIFO that nobody has open holds no data. -/
def Fifo.closeRead (f : Fifo) : Fifo :=
  { f with reader := false, data := if f.writer then f.data else [] }

def Fifo.closeWrite (f : Fifo) : Fifo :=
  { f with writer := false, data := if f.reader then f.data else [] }

def Fifo.unlink (f : Fifo) : Fifo := { f with linked := false }

/-- Where the server stands in its loop: the call it makes next. -/
inductive ServerPc where
  | read
  | open (req : request)
  /-- In `open()`, waiting for the client. -/
  | opening (req : request)
  | write (req : request)
  | close (req : request)
deriving Repr, DecidableEq

/-- Where a client stands. `absent` is a process that never runs the program. -/
inductive ClientPc where
  | absent | mkfifo | getInt | openServer | write | openFifo | opening | read
  /-- It has printed the number. -/
  | done (seqNum : BitVec 32)
  | failed
deriving Repr, DecidableEq

structure State where
  serverFifo : List UInt8
  sv : ServerPc
  seqNum : BitVec 32
  fifos : List UInt8 → Fifo
  clients : Pid → ClientPc
  served : List Pid

def State.fifo (s : State) (p : Pid) : Fifo := s.fifos (clientFifo p)

def State.setFifo (s : State) (p : Pid) (f : Fifo) : State :=
  { s with fifos := Function.update s.fifos (clientFifo p) f }

def State.goto (s : State) (p : Pid) (pc : ClientPc) : State :=
  { s with clients := Function.update s.clients p pc }

/-- `exit()` of a client after its `atexit(removeFifo)`. -/
def State.exit (s : State) (p : Pid) (pc : ClientPc) : State :=
  (s.setFifo p (s.fifo p).closeRead.unlink).goto p pc

/-- One call of the server. -/
def serverStep (s : State) : Option State :=
  match s.sv with
  | .read =>
    -- the extra write descriptor: an empty FIFO is no end of file
    if s.serverFifo = [] then none
    else
      let req := s.serverFifo.take sizeof_request
      let s := { s with serverFifo := s.serverFifo.drop sizeof_request }
      if req.length ≠ sizeof_request then some s
      else some { s with sv := .open (request.ofBytes req) }
  | .open req =>
    if (s.fifo req.pid).linked then
      some { s.setFifo req.pid (s.fifo req.pid).openWrite with sv := .opening req }
    else some { s with sv := .read }
  | .opening req => if (s.fifo req.pid).met then some { s with sv := .write req } else none
  | .write req =>
    let resp : response := { seqNum := s.seqNum }
    let f := s.fifo req.pid
    -- without a reader it is `EPIPE`, as `SIGPIPE` is ignored
    let f := if f.reader then { f with data := f.data ++ resp.bytes } else f
    some { s.setFifo req.pid f with sv := .close req, served := s.served ++ [req.pid] }
  | .close req =>
    some { s.setFifo req.pid (s.fifo req.pid).closeWrite with
      sv := .read, seqNum := s.seqNum + req.seqLen }

/-- The server's call fails. -/
def serverFails (s : State) : Option State :=
  match s.sv with
  | .read => some s
  | .open _ => some { s with sv := .read }
  | .opening req => some { s.setFifo req.pid (s.fifo req.pid).closeWrite with sv := .read }
  | .write req => some { s with sv := .close req, served := s.served ++ [req.pid] }
  | .close _ => serverStep s

/-- `(argc > 1) ? getInt(argv[1], GN_GT_0, "seq-len") : 1` -/
def seqLen (arg : Option (List UInt8)) : Except Fail ℤ :=
  match arg with
  | none => .ok 1
  | some s => getInt (some s) GN_GT_0 (some "seq-len")

/-- The request that a client sends, whose argument gives it the length `v`. -/
def requestOf (p : Pid) (v : ℤ) : request := { pid := p, seqLen := BitVec.ofInt 32 v }

/-- One call of client `p`. A write of a request is at most `PIPE_BUF` bytes, so that it is
done at once or waits for room. -/
def clientStep (PIPE_SIZE : ℕ) (arg : Pid → Option (List UInt8)) (s : State) (p : Pid) :
    Option State :=
  match s.clients p with
  | .mkfifo => some ((s.setFifo p { s.fifo p with linked := true }).goto p .getInt)
  | .getInt =>
    match seqLen (arg p) with
    | .ok _ => some (s.goto p .openServer)
    | .error _ => some (s.exit p .failed)
  | .openServer => some (s.goto p .write)
  | .write =>
    match seqLen (arg p) with
    | .ok v =>
      if s.serverFifo.length + sizeof_request ≤ PIPE_SIZE then
        some ({ s with serverFifo := s.serverFifo ++ (requestOf p v).bytes }.goto p .openFifo)
      else none
    | .error _ => none
  | .openFifo => some ((s.setFifo p (s.fifo p).openRead).goto p .opening)
  | .opening => if (s.fifo p).met then some (s.goto p .read) else none
  | .read =>
    let resp := (s.fifo p).data.take sizeof_response
    if resp = [] ∧ (s.fifo p).writer then none
    else if resp.length ≠ sizeof_response then some (s.exit p .failed)
    else some (s.exit p (.done (response.ofBytes resp).seqNum))
  | .absent => none
  | .done _ => none
  | .failed => none

/-- A call of client `p` fails: before `atexit()` is reached its FIFO stays. -/
def clientFails (s : State) (p : Pid) : Option State :=
  match s.clients p with
  | .mkfifo => some (s.goto p .failed)
  | .getInt => some (s.exit p .failed)
  | .openServer => some (s.exit p .failed)
  | .write => some (s.exit p .failed)
  | .openFifo => some (s.exit p .failed)
  | .opening => some (s.exit p .failed)
  | .read => some (s.exit p .failed)
  | .absent => none
  | .done _ => none
  | .failed => none

/-- A client is killed: its descriptors are closed, and its FIFO stays. -/
def killed (s : State) (p : Pid) : Option State :=
  match s.clients p with
  | .absent => none
  | .done _ => none
  | .failed => none
  | _ => some ((s.setFifo p (s.fifo p).closeRead).goto p .failed)

inductive Act where
  | server
  | serverFails
  | client (p : Pid)
  | clientFails (p : Pid)
  | killed (p : Pid)
deriving Repr, DecidableEq

def step (PIPE_SIZE : ℕ) (arg : Pid → Option (List UInt8)) (s : State) : Act → Option State
  | .server => serverStep s
  | .serverFails => serverFails s
  | .client p => clientStep PIPE_SIZE arg s p
  | .clientFails p => clientFails s p
  | .killed p => killed s p

/-- The server at the head of its loop, and the clients `pids`. FIFOs with their names may be
left over from earlier days. -/
structure Starts (pids : Finset Pid) (s : State) : Prop where
  serverFifo : s.serverFifo = []
  sv : s.sv = .read
  seqNum : s.seqNum = 0
  fifos : ∀ name, ∃ linked, s.fifos name = ⟨linked, false, false, false, []⟩
  clients : ∀ p, s.clients p = if p ∈ pids then .mkfifo else .absent
  served : s.served = []

def fifoSeqnum (PIPE_SIZE : ℕ) (arg : Pid → Option (List UInt8)) (pids : Finset Pid) :
    System State Act where
  init := Starts pids
  step := step PIPE_SIZE arg

/-! ## The names of the FIFOs -/

theorem length_printInt (i : ℤ) (hlo : INT_MIN ≤ i) (hhi : i ≤ INT_MAX) : (printInt i).length ≤ 11 := by
  simp only [INT_MIN, INT_MAX] at hlo hhi
  have hdec : (decimal i.natAbs).length ≤ 10 := by
    rw [decimal, List.length_map, decimalDigits]
    split
    · decide
    · rw [List.length_reverse]
      have hlt : i.natAbs < 10 ^ 10 := by omega
      exact (Nat.digits_length_le_iff (by decide) _).mpr hlt
  rw [printInt]
  split
  · rw [List.length_cons]
    omega
  · omega

theorem pid_range (p : Pid) : INT_MIN ≤ p.toInt ∧ p.toInt ≤ INT_MAX := by
  have hlo := p.le_toInt
  have hhi := p.toInt_lt
  simp only [INT_MIN, INT_MAX]
  exact ⟨by omega, by omega⟩

/-- The buffer holds every name: nothing is cut off. -/
theorem clientFifo_eq (p : Pid) : clientFifo p = CLIENT_FIFO_TEMPLATE ++ printInt p.toInt := by
  refine List.take_of_length_le ?_
  have hlen := length_printInt p.toInt (pid_range p).1 (pid_range p).2
  have htem : CLIENT_FIFO_TEMPLATE.length = 15 := by decide
  rw [List.length_append, htem, CLIENT_FIFO_NAME_LEN]
  omega

/-- **No two clients share a FIFO.** -/
theorem clientFifo_injective {p q : Pid} (h : clientFifo p = clientFifo q) : p = q := by
  rw [clientFifo_eq, clientFifo_eq, List.append_cancel_left_eq] at h
  have hp := atoi_printInt (pid_range p).1 (pid_range p).2
  have hq := atoi_printInt (pid_range q).1 (pid_range q).2
  rw [h, hq] at hp
  exact BitVec.eq_of_toInt_eq hp.symm

section Frame

variable (s : State) {p q : Pid} (f : Fifo) (pc : ClientPc)

theorem fifo_setFifo_self : (s.setFifo p f).fifo p = f := Function.update_self ..

theorem fifo_setFifo_of_ne (h : q ≠ p) : (s.setFifo p f).fifo q = s.fifo q :=
  Function.update_of_ne (fun he => h (clientFifo_injective he)) ..

theorem clients_goto_self : (s.goto p pc).clients p = pc := Function.update_self ..

theorem clients_goto_of_ne (h : q ≠ p) : (s.goto p pc).clients q = s.clients q :=
  Function.update_of_ne h ..

end Frame

/-! ## Blocks -/

section Blocks

variable {ι : Type} [DecidableEq ι] (len : ι → ℕ)

/-- Where the block of `p` starts: behind all that were handed out before it. -/
def base (served : List ι) (p : ι) : ℕ := ((served.takeWhile fun q => decide (q ≠ p)).map len).sum

theorem takeWhile_ne_of_notMem {l : List ι} {p : ι} (h : p ∉ l) (l' : List ι) :
    (l ++ p :: l').takeWhile (fun q => decide (q ≠ p)) = l := by
  induction l with
  | nil => simp
  | cons q l ih =>
    rw [List.mem_cons, not_or] at h
    have hq : decide (q ≠ p) = true := decide_eq_true (Ne.symm h.1)
    rw [List.cons_append, List.takeWhile_cons, hq, if_pos rfl, ih h.2]

/-- A block stays where it is. -/
theorem base_append {l : List ι} {p : ι} (h : p ∈ l) (l' : List ι) :
    base len (l ++ l') p = base len l p := by
  obtain ⟨l₁, l₂, rfl, hnot⟩ := List.eq_append_cons_of_mem h
  rw [base, base, List.append_assoc, List.cons_append, takeWhile_ne_of_notMem hnot,
    takeWhile_ne_of_notMem hnot]

theorem base_last {l : List ι} {p : ι} (h : p ∉ l) : base len (l ++ [p]) p = (l.map len).sum := by
  rw [base, takeWhile_ne_of_notMem h]

end Blocks

/-! ## The invariant -/

/-- The length that a client asks for. -/
def len (arg : Pid → Option (List UInt8)) (p : Pid) : ℕ :=
  match seqLen (arg p) with
  | .ok v => v.toNat
  | .error _ => 0

theorem seqLen_pos {arg : Option (List UInt8)} {v : ℤ} (h : seqLen arg = .ok v) : 0 < v := by
  cases arg with
  | none =>
    rw [seqLen, Except.ok.injEq] at h
    omega
  | some s =>
    have hget := (get_ok_iff.mp (show getInt (some s) GN_GT_0 (some "seq-len") = .ok v from h)).1
    obtain ⟨-, -, -, -, -, hc⟩ := getNum_iff.mp hget
    exact hc.2 (by decide)

theorem seqLen_eq {arg : Pid → Option (List UInt8)} {p : Pid} {v : ℤ} (h : seqLen (arg p) = .ok v) :
    v = (len arg p : ℤ) := by
  have hpos := seqLen_pos h
  rw [len, h]
  exact (Int.toNat_of_nonneg hpos.le).symm

/-- The request of a client. -/
def reqOf (arg : Pid → Option (List UInt8)) (p : Pid) : request := requestOf p (len arg p)

/-- Past the write of the request, or never to come there. -/
def ClientPc.sent : ClientPc → Bool
  | .openFifo | .opening | .read | .done _ | .failed => true
  | .absent | .mkfifo | .getInt | .openServer | .write => false

/-- The request that the server works on, as long as no number is written for it. -/
def ServerPc.pending : ServerPc → List request
  | .open req | .opening req | .write req => [req]
  | .read | .close _ => []

/-- What the counter is behind by. -/
def ServerPc.owed : ServerPc → BitVec 32
  | .close req => req.seqLen
  | _ => 0

/-- All the requests that count, in order. -/
def State.order (s : State) (queue : List Pid) : List Pid :=
  s.served ++ (s.sv.pending.map request.pid ++ queue)

/-- The number that a client's block starts with. -/
def number (arg : Pid → Option (List UInt8)) (served : List Pid) (p : Pid) : BitVec 32 :=
  BitVec.ofNat 32 (base (len arg) served p)

/-- What can lie in a client's FIFO. -/
def Holds (arg : Pid → Option (List UInt8)) (served : List Pid) (p : Pid) (data : List UInt8) : Prop :=
  data = [] ∨ p ∈ served ∧ data = (response.mk (number arg served p)).bytes

theorem Holds.of_eq_or_nil {arg : Pid → Option (List UInt8)} {served : List Pid} {p : Pid}
    {data data' : List UInt8} (h : Holds arg served p data) (hd : data' = data ∨ data' = []) :
    Holds arg served p data' := by
  rcases hd with rfl | rfl
  · exact h
  · exact .inl rfl

structure Inv (arg : Pid → Option (List UInt8)) (s : State) (queue : List Pid) : Prop where
  serverFifo : s.serverFifo = queue.flatMap fun p => (reqOf arg p).bytes
  pending : ∀ req ∈ s.sv.pending, req = reqOf arg req.pid
  nodup : (s.order queue).Nodup
  sent : ∀ p ∈ s.order queue, (s.clients p).sent
  seqNum : s.seqNum + s.sv.owed = BitVec.ofNat 32 (s.served.map (len arg)).sum
  data : ∀ p, Holds arg s.served p (s.fifo p).data
  done : ∀ p v, s.clients p = .done v → p ∈ s.served ∧ v = number arg s.served p

theorem Starts.inv {arg : Pid → Option (List UInt8)} {pids : Finset Pid} {s : State}
    (h : Starts pids s) : Inv arg s [] := by
  have horder : s.order [] = [] := by
    rw [State.order, h.served, h.sv]
    rfl
  refine ⟨h.serverFifo, by rw [h.sv]; exact nofun, by rw [horder]; exact List.nodup_nil,
    by rw [horder]; exact nofun, by rw [h.seqNum, h.sv, h.served]; rfl, fun p => ?_, fun p v hp => ?_⟩
  · obtain ⟨linked, hf⟩ := h.fifos (clientFifo p)
    left
    rw [State.fifo, hf]
  · rw [h.clients p] at hp
    split at hp <;> cases hp

/-! ## Steps of a client -/

/-- A client moves on with its FIFO, without a request and without a number. -/
structure Moves (s : State) (p : Pid) (f : Fifo) (pc : ClientPc) : Prop where
  data : f.data = (s.fifo p).data ∨ f.data = []
  sent : (s.clients p).sent → pc.sent
  done : ∀ v, pc ≠ .done v

theorem setFifo_fifo (s : State) (p : Pid) : s.setFifo p (s.fifo p) = s := by
  rw [State.setFifo, State.fifo, Function.update_eq_self]

theorem closeRead_data (f : Fifo) : f.closeRead.data = f.data ∨ f.closeRead.data = [] := by
  rw [Fifo.closeRead]
  split
  · exact .inl rfl
  · exact .inr rfl

theorem closeWrite_data (f : Fifo) : f.closeWrite.data = f.data ∨ f.closeWrite.data = [] := by
  rw [Fifo.closeWrite]
  split
  · exact .inl rfl
  · exact .inr rfl

theorem moves_exit (s : State) (p : Pid) : Moves s p (s.fifo p).closeRead.unlink .failed :=
  ⟨closeRead_data _, fun _ => rfl, nofun⟩

theorem moves_goto {s : State} {p : Pid} {pc : ClientPc} (hsent : (s.clients p).sent → pc.sent)
    (hdone : ∀ v, pc ≠ .done v) :
    ∃ f pc', Moves s p f pc' ∧ s.goto p pc = (s.setFifo p f).goto p pc' :=
  ⟨s.fifo p, pc, ⟨.inl rfl, hsent, hdone⟩, by rw [setFifo_fifo]⟩

/-- What a call of a client does: it sends its request, it gets its number, or it moves on. -/
theorem clientStep_cases {PIPE_SIZE : ℕ} {arg : Pid → Option (List UInt8)} {s s' : State} {p : Pid}
    (h : clientStep PIPE_SIZE arg s p = some s') :
    (∃ v, s.clients p = .write ∧ seqLen (arg p) = .ok v ∧
      s' = { s with serverFifo := s.serverFifo ++ (requestOf p v).bytes }.goto p .openFifo) ∨
    (s.clients p = .read ∧ ((s.fifo p).data.take sizeof_response).length = sizeof_response ∧
      s' = s.exit p (.done (response.ofBytes ((s.fifo p).data.take sizeof_response)).seqNum)) ∨
    ∃ f pc, Moves s p f pc ∧ s' = (s.setFifo p f).goto p pc := by
  cases hpc : s.clients p with
  | mkfifo =>
    simp only [clientStep, hpc, Option.some.injEq] at h
    refine .inr (.inr ⟨_, _, ⟨.inl ?_, ?_, ?_⟩, h.symm⟩)
    · rfl
    · rw [hpc]
      exact nofun
    · exact nofun
  | getInt =>
    simp only [clientStep, hpc] at h
    right; right
    split at h <;> rw [Option.some.injEq] at h <;> subst h
    · exact moves_goto (by rw [hpc]; exact nofun) nofun
    · exact ⟨_, _, moves_exit s p, rfl⟩
  | openServer =>
    simp only [clientStep, hpc, Option.some.injEq] at h
    subst h
    exact .inr (.inr (moves_goto (by rw [hpc]; exact nofun) nofun))
  | write =>
    simp only [clientStep, hpc] at h
    cases hv : seqLen (arg p) with
    | error e => rw [hv] at h; cases h
    | ok v =>
      simp only [hv, Option.ite_none_right_eq_some, Option.some.injEq] at h
      exact .inl ⟨v, rfl, rfl, h.2.symm⟩
  | openFifo =>
    simp only [clientStep, hpc, Option.some.injEq] at h
    refine .inr (.inr ⟨_, _, ⟨.inl ?_, fun _ => ?_, ?_⟩, h.symm⟩)
    · rfl
    · rfl
    · exact nofun
  | opening =>
    simp only [clientStep, hpc, Option.ite_none_right_eq_some, Option.some.injEq] at h
    rw [← h.2]
    exact .inr (.inr (moves_goto (fun _ => rfl) nofun))
  | read =>
    simp only [clientStep, hpc] at h
    right
    split at h
    · cases h
    · split at h <;> rw [Option.some.injEq] at h <;> subst h
      · exact .inr ⟨_, _, moves_exit s p, rfl⟩
      · rename_i hlen
        exact .inl ⟨rfl, of_not_not hlen, rfl⟩
  | absent => simp only [clientStep, hpc, reduceCtorEq] at h
  | done v => simp only [clientStep, hpc, reduceCtorEq] at h
  | failed => simp only [clientStep, hpc, reduceCtorEq] at h

theorem clientFails_cases {s s' : State} {p : Pid} (h : clientFails s p = some s') :
    ∃ f pc, Moves s p f pc ∧ s' = (s.setFifo p f).goto p pc := by
  cases hpc : s.clients p <;> simp only [clientFails, hpc, Option.some.injEq, reduceCtorEq] at h <;>
    subst h
  case mkfifo => exact moves_goto (fun _ => rfl) nofun
  all_goals exact ⟨_, _, moves_exit s p, rfl⟩

theorem killed_cases {s s' : State} {p : Pid} (h : killed s p = some s') :
    ∃ f pc, Moves s p f pc ∧ s' = (s.setFifo p f).goto p pc := by
  refine ⟨(s.fifo p).closeRead, .failed, ⟨closeRead_data _, fun _ => rfl, nofun⟩, ?_⟩
  cases hpc : s.clients p <;> simp only [killed, hpc, Option.some.injEq, reduceCtorEq] at h <;>
    exact h.symm

theorem Inv.moves {arg : Pid → Option (List UInt8)} {s : State} {queue : List Pid}
    (h : Inv arg s queue) {p : Pid} {f : Fifo} {pc : ClientPc} (hm : Moves s p f pc) :
    Inv arg ((s.setFifo p f).goto p pc) queue := by
  refine ⟨h.serverFifo, h.pending, h.nodup, fun q hq => ?_, h.seqNum, fun q => ?_, fun q v hq => ?_⟩
  · by_cases hqp : q = p
    · subst hqp
      rw [clients_goto_self]
      exact hm.sent (h.sent q hq)
    · rw [clients_goto_of_ne _ _ hqp]
      exact h.sent q hq
  · change Holds arg s.served q ((s.setFifo p f).fifo q).data
    by_cases hqp : q = p
    · subst hqp
      rw [fifo_setFifo_self]
      exact (h.data q).of_eq_or_nil hm.data
    · rw [fifo_setFifo_of_ne s f hqp]
      exact h.data q
  · by_cases hqp : q = p
    · subst hqp
      rw [clients_goto_self] at hq
      exact absurd hq (hm.done v)
    · rw [clients_goto_of_ne _ _ hqp] at hq
      exact h.done q v hq

/-- A request is sent: its client is at the end of the order, and it was not there before. -/
theorem Inv.send {arg : Pid → Option (List UInt8)} {s : State} {queue : List Pid}
    (h : Inv arg s queue) {p : Pid} {v : ℤ} (hpc : s.clients p = .write)
    (hv : seqLen (arg p) = .ok v) :
    Inv arg ({ s with serverFifo := s.serverFifo ++ (requestOf p v).bytes }.goto p .openFifo)
      (queue ++ [p]) := by
  have hnot : p ∉ s.order queue := by
    intro hp
    have hsent := h.sent p hp
    rw [hpc] at hsent
    cases hsent
  have horder : s.order (queue ++ [p]) = s.order queue ++ [p] := by
    simp only [State.order, List.append_assoc]
  refine ⟨?_, h.pending, ?_, fun q hq => ?_, h.seqNum, h.data, fun q w hq => ?_⟩
  · change s.serverFifo ++ _ = _
    rw [h.serverFifo, List.flatMap_append, List.flatMap_singleton, reqOf, ← seqLen_eq hv]
  · change (s.order (queue ++ [p])).Nodup
    rw [horder, List.nodup_append]
    refine ⟨h.nodup, List.nodup_singleton p, fun q hq r hr hqr => hnot ?_⟩
    rw [List.mem_singleton] at hr
    rw [← hr, ← hqr]
    exact hq
  · change q ∈ s.order (queue ++ [p]) at hq
    by_cases hqp : q = p
    · rw [hqp, clients_goto_self]
      rfl
    · rw [clients_goto_of_ne _ _ hqp]
      rw [horder, List.mem_append, List.mem_singleton] at hq
      exact h.sent q (hq.resolve_right hqp)
  · by_cases hqp : q = p
    · rw [hqp, clients_goto_self] at hq
      cases hq
    · rw [clients_goto_of_ne _ _ hqp] at hq
      exact h.done q w hq

/-- A client reads its number and is done. -/
theorem Inv.receive {arg : Pid → Option (List UInt8)} {s : State} {queue : List Pid}
    (h : Inv arg s queue) {p : Pid} (hpc : s.clients p = .read)
    (hlen : ((s.fifo p).data.take sizeof_response).length = sizeof_response) :
    Inv arg (s.exit p (.done (response.ofBytes ((s.fifo p).data.take sizeof_response)).seqNum))
      queue := by
  obtain ⟨hserved, hdata⟩ : p ∈ s.served ∧ (s.fifo p).data = (response.mk (number arg s.served p)).bytes := by
    refine (h.data p).resolve_left fun hnil => ?_
    rw [hnil] at hlen
    cases hlen
  have hnum : (response.ofBytes ((s.fifo p).data.take sizeof_response)).seqNum =
      number arg s.served p := by
    rw [hdata, List.take_of_length_le (response.length_bytes _).le, response.ofBytes_bytes]
  rw [hnum]
  refine ⟨h.serverFifo, h.pending, h.nodup, fun q hq => ?_, h.seqNum, fun q => ?_, fun q v hq => ?_⟩
  · by_cases hqp : q = p
    · rw [hqp, State.exit, clients_goto_self]
      rfl
    · rw [State.exit, clients_goto_of_ne _ _ hqp]
      exact h.sent q hq
  · change Holds arg s.served q ((s.setFifo p (s.fifo p).closeRead.unlink).fifo q).data
    by_cases hqp : q = p
    · subst hqp
      rw [fifo_setFifo_self]
      exact (h.data q).of_eq_or_nil (closeRead_data _)
    · rw [fifo_setFifo_of_ne s _ hqp]
      exact h.data q
  · by_cases hqp : q = p
    · subst hqp
      rw [State.exit, clients_goto_self, ClientPc.done.injEq] at hq
      exact ⟨hserved, hq.symm⟩
    · rw [State.exit, clients_goto_of_ne _ _ hqp] at hq
      exact h.done q v hq

/-! ## Steps of the server -/

/-- The server moves on without writing a number: it may give up a request or settle a debt. -/
theorem Inv.serves {arg : Pid → Option (List UInt8)} {s s' : State} {queue : List Pid}
    (h : Inv arg s queue) (hfifo : s'.serverFifo = s.serverFifo) (hserved : s'.served = s.served)
    (hclients : s'.clients = s.clients) (hpending : s'.sv.pending.Sublist s.sv.pending)
    (hseq : s'.seqNum + s'.sv.owed = s.seqNum + s.sv.owed)
    (hdata : ∀ p, (s'.fifo p).data = (s.fifo p).data ∨ (s'.fifo p).data = []) :
    Inv arg s' queue := by
  have hsub : (s'.order queue).Sublist (s.order queue) := by
    rw [State.order, State.order, hserved]
    exact (((hpending.map _).append_right queue).append_left s.served)
  refine ⟨hfifo.trans h.serverFifo, fun req hreq => h.pending req (hpending.subset hreq),
    h.nodup.sublist hsub, fun p hp => ?_, ?_, fun p => ?_, fun p v hp => ?_⟩
  · rw [hclients]
    exact h.sent p (hsub.subset hp)
  · rw [hseq, hserved]
    exact h.seqNum
  · rw [hserved]
    exact (h.data p).of_eq_or_nil (hdata p)
  · rw [hserved]
    rw [hclients] at hp
    exact h.done p v hp

/-- A number is written, or would have been: the client joins the history. -/
theorem Inv.answer {arg : Pid → Option (List UInt8)} {s : State} {queue : List Pid} {req : request}
    (h : Inv arg s queue) (hsv : s.sv = .write req) {f : Fifo}
    (hf : f.data = (s.fifo req.pid).data ∨
      f.data = (s.fifo req.pid).data ++ (response.mk s.seqNum).bytes) :
    Inv arg { s.setFifo req.pid f with sv := .close req, served := s.served ++ [req.pid] } queue := by
  have hreq : req = reqOf arg req.pid := h.pending req (by rw [hsv]; exact List.mem_singleton_self req)
  have horder : s.order queue = s.served ++ (req.pid :: queue) := by
    rw [State.order, hsv]
    rfl
  have hnodup := h.nodup
  rw [horder] at hnodup
  have hnot : req.pid ∉ s.served := fun hmem =>
    (List.nodup_append.mp hnodup).2.2 _ hmem _ List.mem_cons_self rfl
  have hseq : s.seqNum = BitVec.ofNat 32 (s.served.map (len arg)).sum := by
    have hs := h.seqNum
    rw [hsv] at hs
    rw [← hs]
    exact (BitVec.add_zero s.seqNum).symm
  -- the clients of the history keep their numbers, and the new one gets the counter
  have hkeep : ∀ p ∈ s.served, number arg (s.served ++ [req.pid]) p = number arg s.served p :=
    fun p hp => by rw [number, number, base_append _ hp]
  have hnew : number arg (s.served ++ [req.pid]) req.pid = s.seqNum := by
    rw [number, base_last _ hnot, hseq]
  have hholds : ∀ p, Holds arg s.served p (s.fifo p).data →
      Holds arg (s.served ++ [req.pid]) p (s.fifo p).data := by
    rintro p (hd | ⟨hp, hd⟩)
    · exact .inl hd
    · exact .inr ⟨List.mem_append_left _ hp, by rw [hkeep p hp]; exact hd⟩
  refine ⟨h.serverFifo, nofun, ?_, fun p hp => ?_, ?_, fun p => ?_, fun p v hp => ?_⟩
  · change (s.served ++ [req.pid] ++ queue).Nodup
    rw [List.append_assoc]
    exact hnodup
  · have hmem : p ∈ s.served ++ [req.pid] ++ queue := hp
    rw [List.append_assoc] at hmem
    refine h.sent p ?_
    rw [horder]
    exact hmem
  · change s.seqNum + req.seqLen = BitVec.ofNat 32 ((s.served ++ [req.pid]).map (len arg)).sum
    have hlen : req.seqLen = BitVec.ofNat 32 (len arg req.pid) := by
      conv_lhs => rw [hreq]
      exact BitVec.ofInt_natCast 32 _
    rw [List.map_append, List.sum_append, List.map_singleton, List.sum_singleton, BitVec.ofNat_add,
      ← hseq, hlen]
  · change Holds arg (s.served ++ [req.pid]) p ((s.setFifo req.pid f).fifo p).data
    by_cases hpp : p = req.pid
    · subst hpp
      rw [fifo_setFifo_self]
      -- its FIFO is still empty: it was not in the history
      have hempty : (s.fifo req.pid).data = [] :=
        (h.data req.pid).resolve_right fun hd => hnot hd.1
      rw [hempty, List.nil_append] at hf
      rcases hf with hd | hd
      · exact .inl hd
      · refine .inr ⟨List.mem_append_right _ List.mem_cons_self, ?_⟩
        rw [hnew]
        exact hd
    · rw [fifo_setFifo_of_ne s f hpp]
      exact hholds p (h.data p)
  · obtain ⟨hmem, hv⟩ := h.done p v hp
    exact ⟨List.mem_append_left _ hmem, by rw [hkeep p hmem]; exact hv⟩

theorem setFifo_data {s : State} {p : Pid} {f : Fifo}
    (hf : f.data = (s.fifo p).data ∨ f.data = []) (q : Pid) :
    ((s.setFifo p f).fifo q).data = (s.fifo q).data ∨ ((s.setFifo p f).fifo q).data = [] := by
  by_cases hqp : q = p
  · subst hqp
    rw [fifo_setFifo_self]
    exact hf
  · rw [fifo_setFifo_of_ne s f hqp]
    exact .inl rfl

/-- **No read is partial**: what is taken off the server's FIFO is a whole request, the oldest. -/
theorem Inv.takes {arg : Pid → Option (List UInt8)} {s s' : State} {queue : List Pid}
    (h : Inv arg s queue) (hsv : s.sv = .read) (hs : serverStep s = some s') :
    ∃ p queue', queue = p :: queue' ∧ s' = { s with
      serverFifo := queue'.flatMap fun p => (reqOf arg p).bytes, sv := .open (reqOf arg p) } := by
  simp only [serverStep, hsv] at hs
  cases queue with
  | nil =>
    have hnil : s.serverFifo = [] := h.serverFifo
    rw [if_pos hnil] at hs
    cases hs
  | cons p queue =>
    have hfifo : s.serverFifo = (reqOf arg p).bytes ++ queue.flatMap fun p => (reqOf arg p).bytes :=
      h.serverFifo
    have hne : s.serverFifo ≠ [] := by
      intro hnil
      have hlen := request.length_bytes (reqOf arg p)
      rw [hnil] at hfifo
      rw [(List.append_eq_nil_iff.mp hfifo.symm).1] at hlen
      cases hlen
    have htake : s.serverFifo.take sizeof_request = (reqOf arg p).bytes := by
      rw [hfifo, List.take_left' (request.length_bytes _)]
    have hdrop : s.serverFifo.drop sizeof_request = queue.flatMap fun p => (reqOf arg p).bytes := by
      rw [hfifo, List.drop_left' (request.length_bytes _)]
    rw [if_neg hne, htake, hdrop, if_neg (not_not_intro (request.length_bytes _)),
      request.ofBytes_bytes, Option.some.injEq] at hs
    exact ⟨p, queue, rfl, hs.symm⟩

theorem Inv.take {arg : Pid → Option (List UInt8)} {s : State} {p : Pid} {queue : List Pid}
    (h : Inv arg s (p :: queue)) (hsv : s.sv = .read) :
    Inv arg { s with
      serverFifo := queue.flatMap fun p => (reqOf arg p).bytes, sv := .open (reqOf arg p) } queue := by
  have horder : s.order (p :: queue) = s.served ++ ([p] ++ queue) := by
    rw [State.order, hsv]
    rfl
  have hnodup := h.nodup
  have hsent := h.sent
  rw [horder] at hnodup hsent
  refine ⟨rfl, fun req hreq => ?_, hnodup, hsent, ?_, h.data, h.done⟩
  · rw [List.mem_singleton.mp hreq]
    rfl
  · have hseq := h.seqNum
    rw [hsv] at hseq
    exact hseq

theorem Inv.serverStep {arg : Pid → Option (List UInt8)} {s s' : State} {queue : List Pid}
    (h : Inv arg s queue) (hs : serverStep s = some s') : ∃ queue', Inv arg s' queue' := by
  cases hsv : s.sv with
  | read =>
    obtain ⟨p, queue', rfl, rfl⟩ := h.takes hsv hs
    exact ⟨queue', h.take hsv⟩
  | «open» req =>
    simp only [FifoSeqnum.serverStep, hsv] at hs
    refine ⟨queue, ?_⟩
    split at hs <;> rw [Option.some.injEq] at hs <;> subst hs
    · refine h.serves rfl rfl rfl ?_ ?_ (setFifo_data (.inl rfl))
      · rw [hsv]
        exact List.Sublist.refl _
      · rw [hsv]
        rfl
    · refine h.serves rfl rfl rfl (List.nil_sublist _) ?_ fun _ => .inl rfl
      rw [hsv]
      rfl
  | opening req =>
    simp only [FifoSeqnum.serverStep, hsv, Option.ite_none_right_eq_some, Option.some.injEq] at hs
    rw [← hs.2]
    refine ⟨queue, h.serves rfl rfl rfl ?_ ?_ fun _ => .inl rfl⟩
    · rw [hsv]
      exact List.Sublist.refl _
    · rw [hsv]
      rfl
  | write req =>
    simp only [FifoSeqnum.serverStep, hsv, Option.some.injEq] at hs
    subst hs
    refine ⟨queue, h.answer hsv ?_⟩
    split
    · exact .inr rfl
    · exact .inl rfl
  | close req =>
    simp only [FifoSeqnum.serverStep, hsv, Option.some.injEq] at hs
    subst hs
    refine ⟨queue, h.serves rfl rfl rfl (List.nil_sublist _) ?_ (setFifo_data (closeWrite_data _))⟩
    rw [hsv]
    exact BitVec.add_zero _

theorem Inv.serverFails {arg : Pid → Option (List UInt8)} {s s' : State} {queue : List Pid}
    (h : Inv arg s queue) (hs : serverFails s = some s') : ∃ queue', Inv arg s' queue' := by
  cases hsv : s.sv with
  | read =>
    simp only [FifoSeqnum.serverFails, hsv, Option.some.injEq] at hs
    exact ⟨queue, hs ▸ h⟩
  | «open» req =>
    simp only [FifoSeqnum.serverFails, hsv, Option.some.injEq] at hs
    subst hs
    refine ⟨queue, h.serves rfl rfl rfl (List.nil_sublist _) ?_ fun _ => .inl rfl⟩
    rw [hsv]
    rfl
  | opening req =>
    simp only [FifoSeqnum.serverFails, hsv, Option.some.injEq] at hs
    subst hs
    refine ⟨queue, h.serves rfl rfl rfl (List.nil_sublist _) ?_ (setFifo_data (closeWrite_data _))⟩
    rw [hsv]
    rfl
  | write req =>
    simp only [FifoSeqnum.serverFails, hsv, Option.some.injEq] at hs
    have hsame := setFifo_fifo s req.pid
    have hanswer := h.answer hsv (f := s.fifo req.pid) (.inl rfl)
    rw [hsame, hs] at hanswer
    exact ⟨queue, hanswer⟩
  | close req =>
    simp only [FifoSeqnum.serverFails, hsv] at hs
    exact h.serverStep hs

theorem inv_step {PIPE_SIZE : ℕ} {arg : Pid → Option (List UInt8)} {s s' : State} {a : Act}
    {queue : List Pid} (h : Inv arg s queue) (hs : step PIPE_SIZE arg s a = some s') :
    ∃ queue', Inv arg s' queue' := by
  cases a with
  | server => exact h.serverStep hs
  | serverFails => exact h.serverFails hs
  | client p =>
    rcases clientStep_cases hs with ⟨v, hpc, hv, rfl⟩ | ⟨hpc, hlen, rfl⟩ | ⟨f, pc, hm, rfl⟩
    · exact ⟨_, h.send hpc hv⟩
    · exact ⟨_, h.receive hpc hlen⟩
    · exact ⟨_, h.moves hm⟩
  | clientFails p =>
    obtain ⟨f, pc, hm, rfl⟩ := clientFails_cases hs
    exact ⟨_, h.moves hm⟩
  | killed p =>
    obtain ⟨f, pc, hm, rfl⟩ := killed_cases hs
    exact ⟨_, h.moves hm⟩

theorem inv_of_reachable {PIPE_SIZE : ℕ} {arg : Pid → Option (List UInt8)} {pids : Finset Pid}
    {s : State} (h : Reachable (fifoSeqnum PIPE_SIZE arg pids) s) : ∃ queue, Inv arg s queue :=
  h.invariant (I := fun s => ∃ queue, Inv arg s queue) (fun _ hs => ⟨[], Starts.inv hs⟩)
    fun _ _ _ ⟨_, hi⟩ _ hs => inv_step hi hs

/-! ## The blocks -/

/-- The block of numbers that a client takes itself to own. -/
def block (arg : Pid → Option (List UInt8)) (p : Pid) (v : BitVec 32) : Set ℤ :=
  Set.Ico v.toInt (v.toInt + len arg p)

end Tlpi.FifoSeqnum
