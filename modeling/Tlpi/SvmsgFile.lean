/-
`svmsg/svmsg_file_server.c` and `svmsg/svmsg_file_client.c`: a concurrent file server over System V
message queues.

## What is modelled

The parent of the server, a child for each request it has taken, and any number of clients, each
call a step of its own. A message queue is a list that `msgsnd()` extends, if there is room in it,
and `msgrcv()` shortens; the identifiers of queues that were removed are not given out again. Every
call of every process may fail, and a client may be killed; its queue then stays.

A `read()` of the child gets between one byte and a full buffer, as the kernel likes.

## The shape of the argument

Two histories are kept: `log`, what was ever put into a queue, and `rcvd`, what a client has taken
out of its own. `Serves` says what the log looks like from where the child stands, whatever the
client does; `Channel` says that what was received and what still lies in the queue make up the
log. What a client prints can be read off what it has received, which begins the log of the one
child that has its request.
-/
import Mathlib.Algebra.BigOperators.Group.List.Basic
import Mathlib.Algebra.GroupWithZero.Nat
import Mathlib.Data.List.Nodup
import Mathlib.Logic.Function.Basic
import Tlpi.CString
import Tlpi.Transition

set_option autoImplicit false

namespace Tlpi.SvmsgFile

open Tlpi.CString Tlpi.Transition

/-! ## svmsg_file.h -/

abbrev PATH_MAX : ℕ := 4096

structure requestMsg where
  clientId : ℕ
  pathname : List UInt8
deriving Repr, DecidableEq

/-- The size of the 'mtext' part: an `int` and the buffer. -/
abbrev REQ_MSG_SIZE : ℕ := 4 + PATH_MAX

abbrev RESP_MSG_SIZE : ℕ := 8192

structure responseMsg where
  mtype : ℕ
  data : List UInt8
deriving Repr, DecidableEq

abbrev RESP_MT_FAILURE : ℕ := 1
abbrev RESP_MT_DATA : ℕ := 2
abbrev RESP_MT_END : ℕ := 3

/-! ## The programs -/

/-- Where the parent of the server stands. -/
inductive ServerPc where
  | msgrcv
  | fork (req : requestMsg)
  /-- It has left its loop and removed its queue. -/
  | done
deriving Repr, DecidableEq

/-- Where a child stands in `serveRequest()`. -/
inductive ChildPc where
  | open
  /-- To send the failure response. -/
  | refuse
  /-- To read from the file, of which this is left. -/
  | read (rest : List UInt8)
  | send (chunk rest : List UInt8)
  /-- To send the message of type `RESP_MT_END`. -/
  | «end»
  | exited
deriving Repr, DecidableEq

inductive ClientPc where
  | start | getServer | getQueue | send | first
  /-- `totBytes` is a `ssize_t`; each message adds up to a buffer, so that it would take 2^50 of them. -/
  | more (totBytes : ℕ) (numMsgs : BitVec 32)
  /-- "Received %ld bytes (%d messages)" -/
  | done (totBytes : ℕ) (numMsgs : BitVec 32)
  /-- It has displayed the message of the server. -/
  | refused (text : List UInt8)
  | failed
deriving Repr, DecidableEq

/-- The children are numbered in the order of their requests, `forked`. -/
structure State where
  serverQueue : List requestMsg
  sv : ServerPc
  forked : List requestMsg
  children : ℕ → ChildPc
  queues : ℕ → Option (List responseMsg)
  used : List ℕ
  clientId : ℕ → Option ℕ
  clients : ℕ → ClientPc
  /-- Every message ever put into a queue. -/
  log : ℕ → List responseMsg
  /-- Every message a client has received. -/
  rcvd : ℕ → List responseMsg
  /-- Whether a call of a child has failed. -/
  faulty : ℕ → Bool

def State.goto (s : State) (c : ℕ) (pc : ClientPc) : State :=
  { s with clients := Function.update s.clients c pc }

def State.child (s : State) (k : ℕ) (pc : ChildPc) : State :=
  { s with children := Function.update s.children k pc }

def State.fault (s : State) (k : ℕ) : State := { s with faulty := Function.update s.faulty k true }

/-- `exit()` of a client, with the handler `removeQueue()` if there is a queue. -/
def State.exit (s : State) (c : ℕ) (pc : ClientPc) : State :=
  match s.clientId c with
  | none => s.goto c pc
  | some id => { s with queues := Function.update s.queues id none }.goto c pc

/-- `msgsnd()` on a private queue: it blocks, or the queue is gone, or it is done. -/
inductive Sending where
  | blocks
  | error
  | ok (s : State)

/-- The bytes in a queue. -/
def cbytes (ms : List responseMsg) : ℕ := (ms.map fun m => m.data.length).sum

def State.msgsnd (msg_qbytes : ℕ) (s : State) (id : ℕ) (m : responseMsg) : Sending :=
  match s.queues id with
  | none => .error
  | some ms =>
    if cbytes ms + m.data.length ≤ msg_qbytes ∧ ms.length < msg_qbytes then
      .ok { s with
        queues := Function.update s.queues id (some (ms ++ [m]))
        log := Function.update s.log id (s.log id ++ [m]) }
    else .blocks

def failureMsg : responseMsg := ⟨RESP_MT_FAILURE, bytes "Couldn't open" ++ [0]⟩

def dataMsg (chunk : List UInt8) : responseMsg := ⟨RESP_MT_DATA, chunk⟩

def endMsg : responseMsg := ⟨RESP_MT_END, []⟩

/-- One call of child `k`. `files` is what `open()` and `read()` make of a pathname, and `n` the
kernel's choice of how many bytes `read()` returns when there are any. -/
def childStep (msg_qbytes : ℕ) (files : List UInt8 → Option (List UInt8)) (n : ℕ) (s : State) (k : ℕ) :
    Option State :=
  match s.forked[k]? with
  | none => none
  | some req =>
    match s.children k with
    | .open =>
      match files (str req.pathname) with
      | none => some (s.child k .refuse)
      | some content => some (s.child k (.read content))
    | .refuse =>
      match s.msgsnd msg_qbytes req.clientId failureMsg with
      | .blocks => none
      | .error => some ((s.fault k).child k .exited)
      | .ok s => some (s.child k .exited)
    | .read rest =>
      if rest = [] then some (s.child k .end)
      else if 1 ≤ n ∧ n ≤ RESP_MSG_SIZE ∧ n ≤ rest.length then
        some (s.child k (.send (rest.take n) (rest.drop n)))
      else none
    | .send chunk rest =>
      match s.msgsnd msg_qbytes req.clientId (dataMsg chunk) with
      | .blocks => none
      | .error => some ((s.fault k).child k .end)
      | .ok s => some (s.child k (.read rest))
    | .end =>
      match s.msgsnd msg_qbytes req.clientId endMsg with
      | .blocks => none
      | .error => some ((s.fault k).child k .exited)
      | .ok s => some (s.child k .exited)
    | .exited => none

/-- A call of child `k` fails. -/
def childFails (s : State) (k : ℕ) : Option State :=
  match s.forked[k]? with
  | none => none
  | some _ =>
    match s.children k with
    | .open => some ((s.fault k).child k .refuse)
    | .refuse => some ((s.fault k).child k .exited)
    | .read _ => some ((s.fault k).child k .end)
    | .send _ _ => some ((s.fault k).child k .end)
    | .end => some ((s.fault k).child k .exited)
    | .exited => none

/-- One call of the server's parent. -/
def serverStep (s : State) : Option State :=
  match s.sv with
  | .msgrcv =>
    match s.serverQueue with
    | [] => none
    | req :: rest => some { s with serverQueue := rest, sv := .fork req }
  | .fork req => some { s with sv := .msgrcv, forked := s.forked ++ [req] }
  | .done => none

/-- `msgrcv()` or `fork()` fails: the server removes its queue and exits. -/
def serverFails (s : State) : Option State :=
  match s.sv with
  | .done => none
  | _ => some { s with sv := .done, serverQueue := [] }

/-- `strncpy(dst, src, n)` -/
def strncpy (src : List UInt8) (n : ℕ) : List UInt8 :=
  src.take n ++ List.replicate (n - src.length) 0

/-- The request of a client. -/
def request (id : ℕ) (argv1 : CStr) : requestMsg :=
  { clientId := id, pathname := strncpy argv1.1 (PATH_MAX - 1) ++ [0] }

/-- `msgrcv(clientId, &resp, RESP_MSG_SIZE, 0, 0)` of client `c`: the oldest message. -/
def State.msgrcv (s : State) (c : ℕ) : Option (responseMsg × State) :=
  match s.clientId c with
  | none => none
  | some id =>
    match s.queues id with
    | none => none
    | some [] => none
    | some (m :: ms) =>
      some (m, { s with
        queues := Function.update s.queues id (some ms)
        rcvd := Function.update s.rcvd c (s.rcvd c ++ [m]) })

/-- The head of the loop over the messages, with the output and the `exit()` behind it. -/
def State.loop (s : State) (c : ℕ) (resp : responseMsg) (totBytes : ℕ) (numMsgs : BitVec 32) : State :=
  if resp.mtype = RESP_MT_DATA then s.goto c (.more totBytes numMsgs)
  else s.exit c (.done totBytes numMsgs)

/-- One call of client `c`. `newId` is the kernel's choice for a new queue. -/
def clientStep (msg_qbytes : ℕ) (argv1 : ℕ → CStr) (newId : ℕ) (s : State) (c : ℕ) : Option State :=
  match s.clients c with
  | .start =>
    if (argv1 c).1.length > PATH_MAX - 1 then some (s.goto c .failed) else some (s.goto c .getServer)
  | .getServer => if s.sv = .done then some (s.goto c .failed) else some (s.goto c .getQueue)
  | .getQueue =>
    if newId ∈ s.used then none
    else
      some ({ s with
        queues := Function.update s.queues newId (some [])
        used := newId :: s.used
        clientId := Function.update s.clientId c (some newId) }.goto c .send)
  | .send =>
    match s.clientId c with
    | none => none
    | some id =>
      if s.sv = .done then some (s.exit c .failed)
      else if (s.serverQueue.length + 1) * REQ_MSG_SIZE ≤ msg_qbytes then
        some ({ s with serverQueue := s.serverQueue ++ [request id (argv1 c)] }.goto c .first)
      else none
  | .first =>
    match s.msgrcv c with
    | none => none
    | some (resp, s) =>
      if resp.mtype = RESP_MT_FAILURE then some (s.exit c (.refused (str resp.data)))
      else some (s.loop c resp resp.data.length 1)
  | .more totBytes numMsgs =>
    match s.msgrcv c with
    | none => none
    | some (resp, s) => some (s.loop c resp (totBytes + resp.data.length) (numMsgs + 1))
  | .done _ _ => none
  | .refused _ => none
  | .failed => none

/-- A call of client `c` fails. -/
def clientFails (s : State) (c : ℕ) : Option State :=
  match s.clients c with
  | .done _ _ => none
  | .refused _ => none
  | .failed => none
  | _ => some (s.exit c .failed)

/-- A client is killed: its queue stays. -/
def killed (s : State) (c : ℕ) : Option State :=
  match s.clients c with
  | .done _ _ => none
  | .refused _ => none
  | .failed => none
  | _ => some (s.goto c .failed)

inductive Act where
  | server
  | serverFails
  | child (k n : ℕ)
  | childFails (k : ℕ)
  | client (c newId : ℕ)
  | clientFails (c : ℕ)
  | killed (c : ℕ)
deriving Repr, DecidableEq

def step (msg_qbytes : ℕ) (files : List UInt8 → Option (List UInt8)) (argv1 : ℕ → CStr) (s : State) :
    Act → Option State
  | .server => serverStep s
  | .serverFails => serverFails s
  | .child k n => childStep msg_qbytes files n s k
  | .childFails k => childFails s k
  | .client c newId => clientStep msg_qbytes argv1 newId s c
  | .clientFails c => clientFails s c
  | .killed c => killed s c

/-- The server at the head of its loop, and nothing sent yet. -/
def started : State :=
  { serverQueue := [], sv := .msgrcv, forked := [], children := fun _ => .open
    queues := fun _ => none, used := [], clientId := fun _ => none, clients := fun _ => .start
    log := fun _ => [], rcvd := fun _ => [], faulty := fun _ => false }

def svmsgFile (msg_qbytes : ℕ) (files : List UInt8 → Option (List UInt8)) (argv1 : ℕ → CStr) :
    System State Act where
  init s := s = started
  step := step msg_qbytes files argv1

/-! ## What a child sends -/

/-- Of a file, the pieces that went out and what is left. -/
structure Sent (file : Option (List UInt8)) (chunks : List (List UInt8)) (rest : List UInt8) : Prop where
  file : file = some (chunks.flatten ++ rest)
  sizes : ∀ chunk ∈ chunks, 1 ≤ chunk.length ∧ chunk.length ≤ RESP_MSG_SIZE

/-- **The log of a queue, from where its child stands.** A failing call, `faulty`, is the only way
to stop early, or to be refused a file that is there. -/
inductive Serves (file : Option (List UInt8)) (faulty : Bool) (log : List responseMsg) : ChildPc → Prop
  | open (hlog : log = []) : Serves file faulty log .open
  | refuse (hlog : log = []) (hwhy : file = none ∨ faulty) : Serves file faulty log .refuse
  | refused (hlog : log = [failureMsg]) (hwhy : file = none ∨ faulty) : Serves file faulty log .exited
  | read {chunks : List (List UInt8)} {rest : List UInt8} (hlog : log = chunks.map dataMsg)
      (hsent : Sent file chunks rest) : Serves file faulty log (.read rest)
  | send {chunks : List (List UInt8)} {chunk rest : List UInt8} (hlog : log = chunks.map dataMsg)
      (hsent : Sent file chunks (chunk ++ rest))
      (hsize : 1 ≤ chunk.length ∧ chunk.length ≤ RESP_MSG_SIZE) : Serves file faulty log (.send chunk rest)
  | end {chunks : List (List UInt8)} {rest : List UInt8} (hlog : log = chunks.map dataMsg)
      (hsent : Sent file chunks rest) (hwhy : rest = [] ∨ faulty) : Serves file faulty log .end
  | finished {chunks : List (List UInt8)} {rest : List UInt8}
      (hlog : log = chunks.map dataMsg ++ [endMsg]) (hsent : Sent file chunks rest)
      (hwhy : rest = [] ∨ faulty) : Serves file faulty log .exited
  | lost {chunks : List (List UInt8)} (hlog : log = chunks.map dataMsg)
      (hsent : log = [] ∨ ∃ rest, Sent file chunks rest) : Serves file faulty log .exited

/-- What can be in a log at all. -/
inductive Shape (file : Option (List UInt8)) (faulty : Prop) (log : List responseMsg) : Prop
  | refused (hlog : log = [failureMsg]) (hwhy : file = none ∨ faulty)
  | data {chunks : List (List UInt8)} (hlog : log = chunks.map dataMsg)
  | finished {chunks : List (List UInt8)} {rest : List UInt8}
      (hlog : log = chunks.map dataMsg ++ [endMsg]) (hsent : Sent file chunks rest)
      (hwhy : rest = [] ∨ faulty)

theorem Serves.shape {file : Option (List UInt8)} {faulty : Bool} {log : List responseMsg}
    {pc : ChildPc} (h : Serves file faulty log pc) : Shape file faulty log := by
  cases h with
  | «open» hlog => exact .data (show log = [].map dataMsg from hlog)
  | refuse hlog hwhy => exact .data (show log = [].map dataMsg from hlog)
  | refused hlog hwhy => exact .refused hlog hwhy
  | read hlog hsent => exact .data hlog
  | send hlog hsent hsize => exact .data hlog
  | «end» hlog hsent hwhy => exact .data hlog
  | finished hlog hsent hwhy => exact .finished hlog hsent hwhy
  | lost hlog hsent => exact .data hlog

/-! ## What a client receives -/

/-- **What a client has received, from where it stands.** -/
inductive Receives (file : Option (List UInt8)) (faulty : Prop) (rcvd : List responseMsg) :
    ClientPc → Prop
  | start (hrcvd : rcvd = []) : Receives file faulty rcvd .start
  | getServer (hrcvd : rcvd = []) : Receives file faulty rcvd .getServer
  | getQueue (hrcvd : rcvd = []) : Receives file faulty rcvd .getQueue
  | send (hrcvd : rcvd = []) : Receives file faulty rcvd .send
  | first (hrcvd : rcvd = []) : Receives file faulty rcvd .first
  | more {chunks : List (List UInt8)} (hne : chunks ≠ []) (hrcvd : rcvd = chunks.map dataMsg) :
      Receives file faulty rcvd (.more chunks.flatten.length (BitVec.ofNat 32 chunks.length))
  | done {chunks : List (List UInt8)} {rest : List UInt8} (hrcvd : rcvd = chunks.map dataMsg ++ [endMsg])
      (hsent : Sent file chunks rest) (hwhy : rest = [] ∨ faulty) :
      Receives file faulty rcvd (.done chunks.flatten.length (BitVec.ofNat 32 (chunks.length + 1)))
  | refused (hrcvd : rcvd = [failureMsg]) (hwhy : file = none ∨ faulty) :
      Receives file faulty rcvd (.refused (bytes "Couldn't open"))
  | failed : Receives file faulty rcvd .failed

theorem Receives.mono {file : Option (List UInt8)} {faulty faulty' : Prop} {rcvd : List responseMsg}
    {pc : ClientPc} (h : Receives file faulty rcvd pc) (hf : faulty → faulty') :
    Receives file faulty' rcvd pc := by
  cases h with
  | start hrcvd => exact .start hrcvd
  | getServer hrcvd => exact .getServer hrcvd
  | getQueue hrcvd => exact .getQueue hrcvd
  | send hrcvd => exact .send hrcvd
  | first hrcvd => exact .first hrcvd
  | more hne hrcvd => exact .more hne hrcvd
  | done hrcvd hsent hwhy => exact .done hrcvd hsent (hwhy.imp_right hf)
  | refused hrcvd hwhy => exact .refused hrcvd (hwhy.imp_right hf)
  | failed => exact .failed

/-- Before its first message. -/
def ClientPc.unserved : ClientPc → Bool
  | .start | .getServer | .getQueue | .send | .first => true
  | _ => false

theorem Receives.eq_nil {file : Option (List UInt8)} {faulty : Prop} {rcvd : List responseMsg}
    {pc : ClientPc} (h : Receives file faulty rcvd pc) (hpc : pc.unserved) : rcvd = [] := by
  cases h with
  | start hrcvd => exact hrcvd
  | getServer hrcvd => exact hrcvd
  | getQueue hrcvd => exact hrcvd
  | send hrcvd => exact hrcvd
  | first hrcvd => exact hrcvd
  | more hne hrcvd => cases hpc
  | done hrcvd hsent hwhy => cases hpc
  | refused hrcvd hwhy => cases hpc
  | failed => cases hpc

theorem Receives.of_more {file : Option (List UInt8)} {faulty : Prop} {rcvd : List responseMsg}
    {tot : ℕ} {num : BitVec 32} (h : Receives file faulty rcvd (.more tot num)) :
    ∃ chunks : List (List UInt8), chunks ≠ [] ∧ rcvd = chunks.map dataMsg ∧
      tot = chunks.flatten.length ∧ num = BitVec.ofNat 32 chunks.length := by
  cases h with
  | more hne hrcvd => exact ⟨_, hne, hrcvd, rfl, rfl⟩

/-- Messages that carry data begin a log: what comes next is data, or the end. -/
theorem Shape.next {file : Option (List UInt8)} {faulty : Prop} {log : List responseMsg}
    (h : Shape file faulty log) {chunks : List (List UInt8)} {m : responseMsg} {ms : List responseMsg}
    (hlog : chunks.map dataMsg ++ m :: ms = log) :
    (chunks = [] ∧ m = failureMsg ∧ (file = none ∨ faulty)) ∨ (∃ chunk, m = dataMsg chunk) ∨
      (m = endMsg ∧ ∃ rest, Sent file chunks rest ∧ (rest = [] ∨ faulty)) := by
  have hinj : Function.Injective dataMsg := fun a b hab => by
    rw [dataMsg, dataMsg, responseMsg.mk.injEq] at hab
    exact hab.2
  cases h with
  | refused hlog' hwhy =>
    rw [hlog'] at hlog
    left
    cases chunks with
    | nil =>
      rw [List.map_nil, List.nil_append, List.cons.injEq] at hlog
      exact ⟨rfl, hlog.1, hwhy⟩
    | cons chunk chunks =>
      rw [List.map_cons, List.cons_append, List.cons.injEq] at hlog
      have hlen := congrArg List.length hlog.2
      rw [List.length_append, List.length_cons, List.length_nil] at hlen
      omega
  | @data chunks' hlog' =>
    right; left
    have hmem : m ∈ chunks'.map dataMsg := by
      rw [← hlog', ← hlog]
      exact List.mem_append_right _ List.mem_cons_self
    obtain ⟨chunk, -, hm⟩ := List.mem_map.mp hmem
    exact ⟨chunk, hm.symm⟩
  | @finished chunks' rest hlog' hsent hwhy =>
    right
    rw [hlog'] at hlog
    cases ms using List.reverseRecOn with
    | nil =>
      -- the last message of the log
      have hboth := List.append_inj' hlog rfl
      rw [List.map_inj_right hinj] at hboth
      rw [List.cons.injEq] at hboth
      right
      rw [hboth.1]
      exact ⟨hboth.2.1, rest, hsent, hwhy⟩
    | append_singleton ms m' =>
      rw [← List.cons_append, ← List.append_assoc] at hlog
      have hboth := List.append_inj' hlog rfl
      left
      have hmem : m ∈ chunks'.map dataMsg := by
        rw [← hboth.1]
        exact List.mem_append_right _ List.mem_cons_self
      obtain ⟨chunk, -, hm⟩ := List.mem_map.mp hmem
      exact ⟨chunk, hm.symm⟩

/-! ## Who serves whom -/

/-- The request that the parent holds. -/
def ServerPc.pending : ServerPc → List requestMsg
  | .fork req => [req]
  | .msgrcv | .done => []

/-- All requests in the hands of the server, in the order of their arrival. -/
def State.requests (s : State) : List requestMsg := s.forked ++ (s.sv.pending ++ s.serverQueue)

/-- Before the private queue is made. -/
def ClientPc.early : ClientPc → Bool
  | .start | .getServer | .getQueue => true
  | _ => false

/-- Past the request, or never to come there. -/
def ClientPc.sent : ClientPc → Bool
  | .first | .more _ _ | .done _ _ | .refused _ | .failed => true
  | _ => false

/-- Past the check of the pathname. -/
def ClientPc.checked : ClientPc → Bool
  | .start | .failed => false
  | _ => true

/-- A call of the child that serves client `c` has failed. -/
def Faulty (s : State) (c : ℕ) : Prop :=
  ∃ k req, s.clientId c = some req.clientId ∧ s.forked[k]? = some req ∧ s.faulty k

/-- A request in the hands of the server is that of the client whose queue it names. -/
structure Asked (argv1 : ℕ → CStr) (clientId : ℕ → Option ℕ) (clients : ℕ → ClientPc) (req : requestMsg)
    (c : ℕ) : Prop where
  id : clientId c = some req.clientId
  request : req = request req.clientId (argv1 c)
  fits : (argv1 c).1.length ≤ PATH_MAX - 1
  sent : (clients c).sent

/-- **The invariant**, but for what each client has received. -/
structure Base (files : List UInt8 → Option (List UInt8)) (argv1 : ℕ → CStr) (s : State) : Prop where
  used : ∀ c id, s.clientId c = some id → id ∈ s.used
  owner : ∀ c c' id, s.clientId c = some id → s.clientId c' = some id → c = c'
  early : ∀ c, (s.clients c).early → s.clientId c = none
  checked : ∀ c, (s.clients c).checked → (argv1 c).1.length ≤ PATH_MAX - 1
  nodup : (s.requests.map requestMsg.clientId).Nodup
  asked : ∀ req ∈ s.requests, ∃ c, Asked argv1 s.clientId s.clients req c
  serves : ∀ k req, s.forked[k]? = some req →
    Serves (files (str req.pathname)) (s.faulty k) (s.log req.clientId) (s.children k)
  fresh : ∀ k, s.forked.length ≤ k → s.children k = .open
  silent : ∀ id, id ∉ s.forked.map requestMsg.clientId → s.log id = []
  channel : ∀ c id ms, s.clientId c = some id → s.queues id = some ms → s.rcvd c ++ ms = s.log id

structure Inv (files : List UInt8 → Option (List UInt8)) (argv1 : ℕ → CStr) (s : State) : Prop where
  base : Base files argv1 s
  receives : ∀ c, Receives (files (argv1 c).1) (Faulty s c) (s.rcvd c) (s.clients c)

/-- The child opens the file that the client has named. -/
theorem str_request (id : ℕ) {argv1 : CStr} (h : argv1.1.length ≤ PATH_MAX - 1) :
    str (request id argv1).pathname = argv1.1 := by
  rw [request, strncpy, List.take_of_length_le h]
  cases hn : PATH_MAX - 1 - argv1.1.length with
  | zero =>
    rw [List.replicate_zero, List.append_nil]
    exact str_append argv1.2 []
  | succ n =>
    rw [List.replicate_succ, List.append_assoc]
    exact str_append argv1.2 _

theorem inv_started (files : List UInt8 → Option (List UInt8)) (argv1 : ℕ → CStr) :
    Inv files argv1 started :=
  ⟨⟨nofun, nofun, fun _ _ => rfl, nofun, List.nodup_nil, nofun, nofun, fun _ _ => rfl, fun _ _ => rfl,
    nofun⟩, fun _ => .start rfl⟩

section Steps

variable {files : List UInt8 → Option (List UInt8)} {argv1 : ℕ → CStr} {s : State}

/-! ### Clients -/

theorem clients_goto_self (s : State) (c : ℕ) (pc : ClientPc) : (s.goto c pc).clients c = pc :=
  Function.update_self ..

theorem clients_goto_of_ne (s : State) {c c' : ℕ} (pc : ClientPc) (h : c' ≠ c) :
    (s.goto c pc).clients c' = s.clients c' :=
  Function.update_of_ne h ..

/-- A client goes on to another place. -/
theorem Base.goto (h : Base files argv1 s) {c : ℕ} {pc : ClientPc}
    (hearly : pc.early → s.clientId c = none) (hsent : (s.clients c).sent → pc.sent)
    (hchecked : pc.checked → (argv1 c).1.length ≤ PATH_MAX - 1) : Base files argv1 (s.goto c pc) := by
  refine ⟨h.used, h.owner, fun c' hc' => ?_, fun c' hc' => ?_, h.nodup, fun req hreq => ?_, h.serves,
    h.fresh, h.silent, h.channel⟩
  · by_cases hcc : c' = c
    · subst hcc
      rw [clients_goto_self] at hc'
      exact hearly hc'
    · rw [clients_goto_of_ne _ _ hcc] at hc'
      exact h.early c' hc'
  · by_cases hcc : c' = c
    · subst hcc
      rw [clients_goto_self] at hc'
      exact hchecked hc'
    · rw [clients_goto_of_ne _ _ hcc] at hc'
      exact h.checked c' hc'
  · obtain ⟨c', hid, hr, hfits, hs⟩ := h.asked req hreq
    refine ⟨c', hid, hr, hfits, ?_⟩
    by_cases hcc : c' = c
    · subst hcc
      rw [clients_goto_self]
      exact hsent hs
    · rw [clients_goto_of_ne _ _ hcc]
      exact hs

/-- A private queue is removed. -/
theorem Base.remove (h : Base files argv1 s) (id : ℕ) :
    Base files argv1 { s with queues := Function.update s.queues id none } := by
  refine ⟨h.used, h.owner, h.early, h.checked, h.nodup, h.asked, h.serves, h.fresh, h.silent,
    fun c id' ms hc hms => h.channel c id' ms hc ?_⟩
  simp only at hms
  by_cases hid : id' = id
  · subst hid
    rw [Function.update_self] at hms
    cases hms
  · rwa [Function.update_of_ne hid] at hms

/-- What `exit()` changes: a queue at most, and where the client is. -/
theorem exit_eq (s : State) (c : ℕ) (pc : ClientPc) :
    s.exit c pc = s.goto c pc ∨
      ∃ id, s.exit c pc = { s with queues := Function.update s.queues id none }.goto c pc := by
  unfold State.exit
  split
  · exact .inl rfl
  · rename_i id hid
    exact .inr ⟨id, rfl⟩

theorem Base.exit (h : Base files argv1 s) {c : ℕ} {pc : ClientPc}
    (hearly : pc.early → s.clientId c = none) (hsent : (s.clients c).sent → pc.sent)
    (hchecked : pc.checked → (argv1 c).1.length ≤ PATH_MAX - 1) : Base files argv1 (s.exit c pc) := by
  rcases exit_eq s c pc with he | ⟨id, he⟩ <;> rw [he]
  · exact h.goto hearly hsent hchecked
  · exact (h.remove id).goto hearly hsent hchecked

/-- The client gets a queue with an identifier that nobody had. -/
theorem Base.getQueue (h : Base files argv1 s) {c newId : ℕ} (hpc : s.clients c = .getQueue)
    (hnew : newId ∉ s.used) (hrcvd : s.rcvd c = []) :
    Base files argv1 ({ s with
      queues := Function.update s.queues newId (some [])
      used := newId :: s.used
      clientId := Function.update s.clientId c (some newId) }.goto c .send) := by
  have hnone : s.clientId c = none := h.early c (by rw [hpc]; rfl)
  have hused : ∀ c' id, s.clientId c' = some id → id ≠ newId := fun c' id hc' he =>
    hnew (he ▸ h.used c' id hc')
  -- no request is about the new queue
  have hreqs : ∀ req ∈ s.requests, req.clientId ≠ newId := fun req hreq => by
    obtain ⟨c', hid, -⟩ := h.asked req hreq
    exact hused c' _ hid
  refine ⟨fun c' id hc' => ?_, fun c₁ c₂ id h₁ h₂ => ?_, fun c' hc' => ?_, fun c' hc' => ?_, h.nodup,
    fun req hreq => ?_, h.serves, h.fresh, h.silent, fun c' id ms hc' hms => ?_⟩
  · simp only [State.goto] at hc' ⊢
    by_cases hcc : c' = c
    · subst hcc
      rw [Function.update_self, Option.some.injEq] at hc'
      rw [hc']
      exact List.mem_cons_self
    · rw [Function.update_of_ne hcc] at hc'
      exact List.mem_cons_of_mem _ (h.used c' id hc')
  · simp only [State.goto] at h₁ h₂
    by_cases hc₁ : c₁ = c <;> by_cases hc₂ : c₂ = c
    · rw [hc₁, hc₂]
    · rw [hc₁, Function.update_self, Option.some.injEq] at h₁
      rw [Function.update_of_ne hc₂] at h₂
      exact absurd h₁.symm (hused c₂ id h₂)
    · rw [hc₂, Function.update_self, Option.some.injEq] at h₂
      rw [Function.update_of_ne hc₁] at h₁
      exact absurd h₂.symm (hused c₁ id h₁)
    · rw [Function.update_of_ne hc₁] at h₁
      rw [Function.update_of_ne hc₂] at h₂
      exact h.owner c₁ c₂ id h₁ h₂
  · by_cases hcc : c' = c
    · subst hcc
      rw [clients_goto_self] at hc'
      cases hc'
    · rw [clients_goto_of_ne _ _ hcc] at hc'
      exact (Function.update_of_ne hcc ..).trans (h.early c' hc')
  · by_cases hcc : c' = c
    · subst hcc
      exact h.checked c' (by rw [hpc]; rfl)
    · rw [clients_goto_of_ne _ _ hcc] at hc'
      exact h.checked c' hc'
  · obtain ⟨c', hid, hr, hfits, hs⟩ := h.asked req hreq
    have hcc : c' ≠ c := by
      rintro rfl
      rw [hnone] at hid
      cases hid
    refine ⟨c', (Function.update_of_ne hcc ..).trans hid, hr, hfits, ?_⟩
    rw [clients_goto_of_ne _ _ hcc]
    exact hs
  · simp only [State.goto] at hc' hms ⊢
    by_cases hcc : c' = c
    · subst hcc
      rw [Function.update_self, Option.some.injEq] at hc'
      subst hc'
      rw [Function.update_self, Option.some.injEq] at hms
      have hlog : s.log newId = [] := h.silent newId fun hmem => by
        obtain ⟨req, hreq, hid⟩ := List.mem_map.mp hmem
        exact hreqs req (List.mem_append_left _ hreq) hid
      rw [← hms, hlog, hrcvd, List.append_nil]
    · rw [Function.update_of_ne hcc] at hc'
      rw [Function.update_of_ne (hused c' id hc')] at hms
      exact h.channel c' id ms hc' hms

/-- The request goes to the server. -/
theorem Base.send (h : Base files argv1 s) {c id : ℕ} (hpc : s.clients c = .send)
    (hid : s.clientId c = some id) :
    Base files argv1
      ({ s with serverQueue := s.serverQueue ++ [request id (argv1 c)] }.goto c .first) := by
  have hreqs : s.requests ++ [request id (argv1 c)] =
      s.forked ++ (s.sv.pending ++ (s.serverQueue ++ [request id (argv1 c)])) := by
    simp only [State.requests, List.append_assoc]
  have hnew : id ∉ s.requests.map requestMsg.clientId := fun hmem => by
    obtain ⟨req, hreq, he⟩ := List.mem_map.mp hmem
    obtain ⟨c', hid', -, -, hs⟩ := h.asked req hreq
    rw [he] at hid'
    rw [h.owner c' c id hid' hid, hpc] at hs
    cases hs
  have hfits : (argv1 c).1.length ≤ PATH_MAX - 1 := h.checked c (by rw [hpc]; rfl)
  refine ⟨h.used, h.owner, fun c' hc' => ?_, fun c' hc' => ?_, ?_, fun req hreq => ?_, h.serves, h.fresh,
    h.silent, h.channel⟩
  · by_cases hcc : c' = c
    · subst hcc
      rw [clients_goto_self] at hc'
      cases hc'
    · rw [clients_goto_of_ne _ _ hcc] at hc'
      exact h.early c' hc'
  · by_cases hcc : c' = c
    · rw [hcc]
      exact hfits
    · rw [clients_goto_of_ne _ _ hcc] at hc'
      exact h.checked c' hc'
  · change ((s.forked ++ (s.sv.pending ++ (s.serverQueue ++ [request id (argv1 c)]))).map _).Nodup
    rw [← hreqs, List.map_append, List.nodup_append]
    refine ⟨h.nodup, List.nodup_singleton _, fun a ha b hb hab => hnew ?_⟩
    have hb' : b = id := List.mem_singleton.mp hb
    rw [← hb', ← hab]
    exact ha
  · have hmem : req ∈ s.requests ++ [request id (argv1 c)] := by
      rw [hreqs]
      exact hreq
    rcases List.mem_append.mp hmem with hold | hnewreq
    · obtain ⟨c', hid', hr, hf, hs⟩ := h.asked req hold
      refine ⟨c', hid', hr, hf, ?_⟩
      by_cases hcc : c' = c
      · rw [hcc, clients_goto_self]
        rfl
      · rw [clients_goto_of_ne _ _ hcc]
        exact hs
    · rw [List.mem_singleton.mp hnewreq]
      refine ⟨c, hid, rfl, hfits, ?_⟩
      rw [clients_goto_self]
      rfl

/-- What `msgrcv()` does. -/
theorem msgrcv_eq_some {c : ℕ} {m : responseMsg} {s' : State} (hm : s.msgrcv c = some (m, s')) :
    ∃ id ms, s.clientId c = some id ∧ s.queues id = some (m :: ms) ∧ s' = { s with
      queues := Function.update s.queues id (some ms)
      rcvd := Function.update s.rcvd c (s.rcvd c ++ [m]) } := by
  unfold State.msgrcv at hm
  split at hm
  · cases hm
  · rename_i id hid
    split at hm
    · cases hm
    · cases hm
    · rename_i m' ms hq
      rw [Option.some.injEq, Prod.mk.injEq] at hm
      obtain ⟨rfl, rfl⟩ := hm
      exact ⟨id, ms, hid, hq, rfl⟩

theorem Base.msgrcv (h : Base files argv1 s) {c id : ℕ} {m : responseMsg} {ms : List responseMsg}
    (hid : s.clientId c = some id) (hq : s.queues id = some (m :: ms)) :
    Base files argv1 { s with
      queues := Function.update s.queues id (some ms)
      rcvd := Function.update s.rcvd c (s.rcvd c ++ [m]) } := by
  refine ⟨h.used, h.owner, h.early, h.checked, h.nodup, h.asked, h.serves, h.fresh, h.silent,
    fun c' id' ms' hc' hms' => ?_⟩
  simp only at hc' hms' ⊢
  by_cases hcc : c' = c
  · subst hcc
    rw [hid, Option.some.injEq] at hc'
    subst hc'
    rw [Function.update_self, Option.some.injEq] at hms'
    rw [Function.update_self, List.append_assoc, List.singleton_append, ← hms']
    exact h.channel c' id (m :: ms) hid hq
  · have hne : id' ≠ id := fun he => hcc (h.owner c' c id (he ▸ hc') hid)
    rw [Function.update_of_ne hne] at hms'
    rw [Function.update_of_ne hcc]
    exact h.channel c' id' ms' hc' hms'

/-- A client that has something in its queue is served, and its queue is part of a child's log. -/
theorem Base.shape (h : Base files argv1 s) {c id : ℕ} (hid : s.clientId c = some id)
    (hne : s.log id ≠ []) : Shape (files (argv1 c).1) (Faulty s c) (s.log id) := by
  have hmem : id ∈ s.forked.map requestMsg.clientId := of_not_not fun hnot => hne (h.silent id hnot)
  obtain ⟨req, hreq, rfl⟩ := List.mem_map.mp hmem
  obtain ⟨k, hk⟩ := List.getElem?_of_mem hreq
  obtain ⟨c', hid', hr, hfits, -⟩ := h.asked req (List.mem_append_left _ hreq)
  have hcc := h.owner c' c req.clientId hid' hid
  subst hcc
  have hpath : str req.pathname = (argv1 c').1 := by
    rw [hr]
    exact str_request _ hfits
  have hserves := (h.serves k req hk).shape
  rw [hpath] at hserves
  have hfaulty : s.faulty k → Faulty s c' := fun hf => ⟨k, req, hid, hk, hf⟩
  cases hserves with
  | refused hlog hwhy => exact .refused hlog (hwhy.imp_right hfaulty)
  | data hlog => exact .data hlog
  | finished hlog hsent hwhy => exact .finished hlog hsent (hwhy.imp_right hfaulty)

/-- A step of client `c`. -/
theorem Inv.of_client {s' : State} {c : ℕ} (h : Inv files argv1 s) (hbase : Base files argv1 s')
    (hother : ∀ c', c' ≠ c → s'.clients c' = s.clients c' ∧ s'.rcvd c' = s.rcvd c')
    (hfaulty : ∀ c', c' ≠ c → Faulty s c' → Faulty s' c')
    (hc : Receives (files (argv1 c).1) (Faulty s' c) (s'.rcvd c) (s'.clients c)) :
    Inv files argv1 s' := by
  refine ⟨hbase, fun c' => ?_⟩
  by_cases hcc : c' = c
  · subst hcc
    exact hc
  · rw [(hother c' hcc).1, (hother c' hcc).2]
    exact (h.receives c').mono (hfaulty c' hcc)

theorem Inv.goto (h : Inv files argv1 s) {c : ℕ} {pc : ClientPc}
    (hearly : pc.early → s.clientId c = none) (hsent : (s.clients c).sent → pc.sent)
    (hchecked : pc.checked → (argv1 c).1.length ≤ PATH_MAX - 1)
    (hpc : Receives (files (argv1 c).1) (Faulty s c) (s.rcvd c) pc) :
    Inv files argv1 (s.goto c pc) := by
  refine h.of_client (h.base.goto hearly hsent hchecked) (c := c)
    (fun c' hcc => ⟨clients_goto_of_ne _ _ hcc, rfl⟩) (fun _ _ => id) ?_
  rw [clients_goto_self]
  exact hpc

/-- A client exits. -/
theorem Inv.exit (h : Inv files argv1 s) (c : ℕ) : Inv files argv1 (s.exit c .failed) := by
  have hbase : Base files argv1 (s.exit c .failed) := h.base.exit nofun (fun _ => rfl) nofun
  rcases exit_eq s c .failed with he | ⟨id, he⟩ <;> rw [he] at hbase ⊢
  all_goals
    refine h.of_client hbase (c := c) (fun c' hcc => ⟨clients_goto_of_ne _ _ hcc, rfl⟩) (fun _ _ => ?_) ?_
    · exact fun hf => hf
    · rw [clients_goto_self]
      exact .failed

/-- A client has taken a message and goes on or ends with it. -/
theorem Inv.received (h : Inv files argv1 s) {c id : ℕ} {m : responseMsg} {ms : List responseMsg}
    (hid : s.clientId c = some id) (hq : s.queues id = some (m :: ms)) {s₁ s' : State} {pc : ClientPc}
    (hs₁ : s₁ = { s with
      queues := Function.update s.queues id (some ms)
      rcvd := Function.update s.rcvd c (s.rcvd c ++ [m]) })
    (hs' : s' = s₁.goto c pc ∨ s' = s₁.exit c pc) (hearly : pc.early = false) (hsent : pc.sent)
    (hchecked : (s.clients c).checked)
    (hpc : Receives (files (argv1 c).1) (Faulty s c) (s.rcvd c ++ [m]) pc) : Inv files argv1 s' := by
  have hbase₁ : Base files argv1 s₁ := hs₁ ▸ h.base.msgrcv hid hq
  have hgoto : s' = s₁.goto c pc ∨
      ∃ id, s' = { s₁ with queues := Function.update s₁.queues id none }.goto c pc := by
    rcases hs' with hs' | hs'
    · exact .inl hs'
    · rw [hs']
      exact exit_eq s₁ c pc
  have hfits := h.base.checked c hchecked
  have hclients : s₁.clients = s.clients := by rw [hs₁]
  have hrcvd : s₁.rcvd = Function.update s.rcvd c (s.rcvd c ++ [m]) := by rw [hs₁]
  have hfaulty : ∀ c', Faulty s c' → Faulty s₁ c' := by
    rw [hs₁]
    exact fun _ hf => hf
  have hrec : Receives (files (argv1 c).1) (Faulty s₁ c) (s₁.rcvd c) pc := by
    rw [hrcvd, Function.update_self]
    exact hpc.mono (hfaulty c)
  have hearly' : pc.early → s₁.clientId c = none := fun he => by
    rw [hearly] at he
    cases he
  rcases hgoto with rfl | ⟨id', rfl⟩
  · refine h.of_client (hbase₁.goto hearly' (fun _ => hsent) fun _ => hfits) (c := c)
      (fun c' hcc => ⟨?_, ?_⟩) (fun c' _ => hfaulty c') ?_
    · rw [clients_goto_of_ne _ _ hcc, hclients]
    · exact (congrFun hrcvd c').trans (Function.update_of_ne hcc ..)
    · rw [clients_goto_self]
      exact hrec
  · refine h.of_client ((hbase₁.remove id').goto hearly' (fun _ => hsent) fun _ => hfits) (c := c)
      (fun c' hcc => ⟨?_, ?_⟩) (fun c' _ => hfaulty c') ?_
    · rw [clients_goto_of_ne _ _ hcc]
      exact congrFun hclients c'
    · exact (congrFun hrcvd c').trans (Function.update_of_ne hcc ..)
    · rw [clients_goto_self]
      exact hrec

/-- What the next message is, for a client that has received data so far. -/
theorem Base.next (h : Base files argv1 s) {c id : ℕ} {m : responseMsg} {ms : List responseMsg}
    (hid : s.clientId c = some id) (hq : s.queues id = some (m :: ms)) {chunks : List (List UInt8)}
    (hrcvd : s.rcvd c = chunks.map dataMsg) :
    (chunks = [] ∧ m = failureMsg ∧ (files (argv1 c).1 = none ∨ Faulty s c)) ∨
      (∃ chunk, m = dataMsg chunk) ∨
      (m = endMsg ∧ ∃ rest, Sent (files (argv1 c).1) chunks rest ∧ (rest = [] ∨ Faulty s c)) := by
  have hlog := h.channel c id (m :: ms) hid hq
  rw [hrcvd] at hlog
  have hne : s.log id ≠ [] := by
    rw [← hlog]
    exact List.append_ne_nil_of_right_ne_nil _ (List.cons_ne_nil _ _)
  exact (h.shape hid hne).next hlog

theorem loop_data (s : State) (c : ℕ) (chunk : List UInt8) (tot : ℕ) (num : BitVec 32) :
    s.loop c (dataMsg chunk) tot num = s.goto c (.more tot num) := if_pos rfl

theorem loop_end (s : State) (c : ℕ) (tot : ℕ) (num : BitVec 32) :
    s.loop c endMsg tot num = s.exit c (.done tot num) :=
  if_neg (show ¬RESP_MT_END = RESP_MT_DATA by decide)

theorem dataMsg_not_failure (chunk : List UInt8) : (dataMsg chunk).mtype ≠ RESP_MT_FAILURE :=
  show RESP_MT_DATA ≠ RESP_MT_FAILURE by decide

theorem endMsg_not_failure : endMsg.mtype ≠ RESP_MT_FAILURE := by decide

theorem str_failureMsg : str failureMsg.data = bytes "Couldn't open" := by decide +kernel

theorem Inv.clientStep {msg_qbytes newId c : ℕ} {s' : State} (h : Inv files argv1 s)
    (hs : clientStep msg_qbytes argv1 newId s c = some s') : Inv files argv1 s' := by
  have hr := h.receives c
  cases hpc : s.clients c with
  | start =>
    rw [hpc] at hr
    have hrcvd := hr.eq_nil (by decide)
    have hnone : s.clientId c = none := h.base.early c (by rw [hpc]; rfl)
    simp only [SvmsgFile.clientStep, hpc] at hs
    split at hs <;> rw [Option.some.injEq] at hs <;> subst hs
    · exact h.goto (fun _ => hnone) (fun _ => rfl) nofun .failed
    · rename_i hlen
      refine h.goto (fun _ => hnone) (by rw [hpc]; exact nofun) (fun _ => ?_) (.getServer hrcvd)
      omega
  | getServer =>
    rw [hpc] at hr
    have hrcvd := hr.eq_nil (by decide)
    have hnone : s.clientId c = none := h.base.early c (by rw [hpc]; rfl)
    simp only [SvmsgFile.clientStep, hpc] at hs
    split at hs <;> rw [Option.some.injEq] at hs <;> subst hs
    · exact h.goto (fun _ => hnone) (fun _ => rfl) nofun .failed
    · exact h.goto (fun _ => hnone) (by rw [hpc]; exact nofun)
        (fun _ => h.base.checked c (by rw [hpc]; rfl)) (.getQueue hrcvd)
  | getQueue =>
    rw [hpc] at hr
    have hrcvd := hr.eq_nil (by decide)
    simp only [SvmsgFile.clientStep, hpc] at hs
    split at hs
    · cases hs
    · rename_i hnew
      rw [Option.some.injEq] at hs
      subst hs
      have hnone : s.clientId c = none := h.base.early c (by rw [hpc]; rfl)
      refine h.of_client (h.base.getQueue hpc hnew hrcvd) (c := c)
        (fun c' hcc => ⟨clients_goto_of_ne _ _ hcc, rfl⟩) (fun c' hcc => ?_) ?_
      · rintro ⟨k, req, hid, hk⟩
        exact ⟨k, req, (Function.update_of_ne hcc ..).trans hid, hk⟩
      · rw [clients_goto_self]
        exact .send hrcvd
  | send =>
    rw [hpc] at hr
    have hrcvd := hr.eq_nil (by decide)
    simp only [SvmsgFile.clientStep, hpc] at hs
    split at hs
    · cases hs
    · rename_i id hid
      split at hs
      · rw [Option.some.injEq] at hs
        subst hs
        exact h.exit c
      · rw [Option.ite_none_right_eq_some, Option.some.injEq] at hs
        rw [← hs.2]
        refine h.of_client (h.base.send hpc hid) (c := c)
          (fun c' hcc => ⟨clients_goto_of_ne _ _ hcc, rfl⟩) (fun _ _ => fun hf => hf) ?_
        rw [clients_goto_self]
        exact .first hrcvd
  | first =>
    rw [hpc] at hr
    have hrcvd := hr.eq_nil (by decide)
    simp only [SvmsgFile.clientStep, hpc] at hs
    cases hm : s.msgrcv c with
    | none => rw [hm] at hs; cases hs
    | some r =>
      obtain ⟨m, s₁⟩ := r
      obtain ⟨id, ms, hid, hq, hs₁⟩ := msgrcv_eq_some hm
      rw [hm] at hs
      simp only at hs
      rcases h.base.next hid hq (show s.rcvd c = [].map dataMsg from hrcvd) with
        ⟨-, rfl, hwhy⟩ | ⟨chunk, rfl⟩ | ⟨rfl, rest, hsent, hwhy⟩
      · rw [if_pos (show failureMsg.mtype = RESP_MT_FAILURE from rfl), Option.some.injEq,
          str_failureMsg] at hs
        refine h.received hid hq hs₁ (.inr hs.symm) rfl rfl (by rw [hpc]; rfl) ?_
        exact .refused (by rw [hrcvd, List.nil_append]) hwhy
      · rw [if_neg (dataMsg_not_failure chunk), loop_data, Option.some.injEq] at hs
        refine h.received hid hq hs₁ (.inl hs.symm) rfl rfl (by rw [hpc]; rfl) ?_
        have hmore : Receives (files (argv1 c).1) (Faulty s c) (s.rcvd c ++ [dataMsg chunk]) _ :=
          .more (List.cons_ne_nil chunk []) (by rw [hrcvd]; rfl)
        rw [List.flatten_singleton] at hmore
        exact hmore
      · rw [if_neg endMsg_not_failure, loop_end, Option.some.injEq] at hs
        refine h.received hid hq hs₁ (.inr hs.symm) rfl rfl (by rw [hpc]; rfl) ?_
        have hdone : Receives (files (argv1 c).1) (Faulty s c) (s.rcvd c ++ [endMsg]) _ :=
          .done (by rw [hrcvd]; rfl) hsent hwhy
        exact hdone
  | more tot num =>
    rw [hpc] at hr
    obtain ⟨chunks, hne, hrcvd, rfl, rfl⟩ := hr.of_more
    simp only [SvmsgFile.clientStep, hpc] at hs
    cases hm : s.msgrcv c with
    | none => rw [hm] at hs; cases hs
    | some r =>
      obtain ⟨m, s₁⟩ := r
      obtain ⟨id, ms, hid, hq, hs₁⟩ := msgrcv_eq_some hm
      rw [hm] at hs
      simp only at hs
      rcases h.base.next hid hq hrcvd with ⟨hnil, rfl, hwhy⟩ | ⟨chunk, rfl⟩ | ⟨rfl, rest, hsent, hwhy⟩
      · exact absurd hnil hne
      · rw [loop_data, Option.some.injEq] at hs
        refine h.received hid hq hs₁ (.inl hs.symm) rfl rfl (by rw [hpc]; rfl) ?_
        have hmore : Receives (files (argv1 c).1) (Faulty s c) (s.rcvd c ++ [dataMsg chunk]) _ :=
          .more (List.append_ne_nil_of_left_ne_nil hne [chunk])
            (by rw [hrcvd, List.map_append, List.map_singleton])
        rw [List.flatten_append, List.flatten_singleton, List.length_append, List.length_append,
          List.length_singleton, BitVec.ofNat_add] at hmore
        exact hmore
      · rw [loop_end, Option.some.injEq] at hs
        refine h.received hid hq hs₁ (.inr hs.symm) rfl rfl (by rw [hpc]; rfl) ?_
        have hdone : Receives (files (argv1 c).1) (Faulty s c) (s.rcvd c ++ [endMsg]) _ :=
          .done (by rw [hrcvd]) hsent hwhy
        rw [BitVec.ofNat_add] at hdone
        exact hdone
  | done tot num => simp only [SvmsgFile.clientStep, hpc, reduceCtorEq] at hs
  | refused text => simp only [SvmsgFile.clientStep, hpc, reduceCtorEq] at hs
  | failed => simp only [SvmsgFile.clientStep, hpc, reduceCtorEq] at hs

/-! ### Children -/

/-- A step of child `k`: it may have failed, and its log may be longer. -/
structure ChildMoves (s s' : State) (k : ℕ) (req : requestMsg) (pc : ChildPc) (new : List responseMsg) :
    Prop where
  same : s'.serverQueue = s.serverQueue ∧ s'.sv = s.sv ∧ s'.forked = s.forked ∧ s'.used = s.used ∧
    s'.clientId = s.clientId ∧ s'.clients = s.clients ∧ s'.rcvd = s.rcvd
  children : s'.children = Function.update s.children k pc
  faulty : ∀ j, s.faulty j → s'.faulty j
  faulty_of_ne : ∀ j, j ≠ k → s'.faulty j = s.faulty j
  log : s'.log = Function.update s.log req.clientId (s.log req.clientId ++ new)
  queue : ∀ ms, s'.queues req.clientId = some ms →
    ∃ ms₀, s.queues req.clientId = some ms₀ ∧ ms = ms₀ ++ new
  queue_of_ne : ∀ id, id ≠ req.clientId → s'.queues id = s.queues id

theorem childMoves_child (s : State) (k : ℕ) (req : requestMsg) (pc : ChildPc) :
    ChildMoves s (s.child k pc) k req pc [] :=
  ⟨⟨rfl, rfl, rfl, rfl, rfl, rfl, rfl⟩, rfl, fun _ h => h, fun _ _ => rfl,
    by rw [List.append_nil, Function.update_eq_self]; rfl,
    fun ms h => ⟨ms, h, (List.append_nil ms).symm⟩, fun _ _ => rfl⟩

theorem childMoves_fault (s : State) (k : ℕ) (req : requestMsg) (pc : ChildPc) :
    ChildMoves s ((s.fault k).child k pc) k req pc [] := by
  refine ⟨⟨rfl, rfl, rfl, rfl, rfl, rfl, rfl⟩, rfl, fun j h => ?_, fun j hj => Function.update_of_ne hj ..,
    by rw [List.append_nil, Function.update_eq_self]; rfl,
    fun ms h => ⟨ms, h, (List.append_nil ms).symm⟩, fun _ _ => rfl⟩
  change Function.update s.faulty k true j
  by_cases hj : j = k
  · rw [hj, Function.update_self]
  · rwa [Function.update_of_ne hj]

theorem childMoves_msgsnd {msg_qbytes : ℕ} {s₁ : State} {k : ℕ} {req : requestMsg} {m : responseMsg}
    (pc : ChildPc) (hm : s.msgsnd msg_qbytes req.clientId m = .ok s₁) :
    ChildMoves s (s₁.child k pc) k req pc [m] := by
  unfold State.msgsnd at hm
  split at hm
  · cases hm
  · rename_i ms hq
    split at hm
    · rw [Sending.ok.injEq] at hm
      subst hm
      refine ⟨⟨rfl, rfl, rfl, rfl, rfl, rfl, rfl⟩, rfl, fun _ h => h, fun _ _ => rfl, rfl, fun ms' h => ?_,
        fun id hid => Function.update_of_ne hid ..⟩
      simp only [State.child, Function.update_self, Option.some.injEq] at h
      exact ⟨ms, hq, h.symm⟩
    · cases hm

theorem Inv.of_child {s' : State} {k : ℕ} {req : requestMsg} {pc : ChildPc} {new : List responseMsg}
    (h : Inv files argv1 s) (hk : s.forked[k]? = some req) (hm : ChildMoves s s' k req pc new)
    (hserves : Serves (files (str req.pathname)) (s'.faulty k) (s.log req.clientId ++ new) pc) :
    Inv files argv1 s' := by
  obtain ⟨hsq, hsv, hforked, hused, hids, hclients, hrcvd⟩ := hm.same
  have hb := h.base
  have hrequests : s'.requests = s.requests := by rw [State.requests, State.requests, hforked, hsv, hsq]
  refine ⟨⟨by rw [hids, hused]; exact hb.used, by rw [hids]; exact hb.owner,
    by rw [hclients, hids]; exact hb.early, by rw [hclients]; exact hb.checked,
    by rw [hrequests]; exact hb.nodup, by rw [hrequests, hids, hclients]; exact hb.asked,
    fun j r hj => ?_, fun j hj => ?_, fun id hid => ?_, fun c id ms hc hms => ?_⟩, fun c => ?_⟩
  · -- the other children have queues of their own
    rw [hforked] at hj
    rw [hm.children, hm.log]
    by_cases hjk : j = k
    · subst hjk
      rw [hk, Option.some.injEq] at hj
      subst hj
      rw [Function.update_self, Function.update_self]
      exact hserves
    · have hne : r.clientId ≠ req.clientId := by
        intro he
        have hnodup : (s.forked.map requestMsg.clientId).Nodup := by
          have hn := hb.nodup
          rw [State.requests, List.map_append] at hn
          exact (List.nodup_append.mp hn).1
        have hlt : j < (s.forked.map requestMsg.clientId).length := by
          rw [List.length_map]
          exact (List.getElem?_eq_some_iff.mp hj).1
        refine hjk ((List.getElem?_inj hlt hnodup).mp ?_)
        rw [List.getElem?_map, List.getElem?_map, hj, hk, Option.map_some, Option.map_some, he]
      rw [Function.update_of_ne hjk, Function.update_of_ne hne, hm.faulty_of_ne j hjk]
      exact hb.serves j r hj
  · rw [hforked] at hj
    have hjk : j ≠ k := by
      rintro rfl
      rw [List.getElem?_eq_none hj] at hk
      cases hk
    rw [hm.children, Function.update_of_ne hjk]
    exact hb.fresh j hj
  · rw [hforked] at hid
    have hne : id ≠ req.clientId := by
      rintro rfl
      exact hid (List.mem_map_of_mem (List.mem_of_getElem? hk))
    rw [hm.log, Function.update_of_ne hne]
    exact hb.silent id hid
  · rw [hids] at hc
    rw [hrcvd, hm.log]
    by_cases hid : id = req.clientId
    · subst hid
      obtain ⟨ms₀, hq, rfl⟩ := hm.queue ms hms
      rw [Function.update_self, ← hb.channel c _ ms₀ hc hq, List.append_assoc]
    · rw [Function.update_of_ne hid]
      rw [hm.queue_of_ne id hid] at hms
      exact hb.channel c id ms hc hms
  · rw [hclients, hrcvd]
    refine (h.receives c).mono ?_
    rintro ⟨j, r, hid, hj, hf⟩
    exact ⟨j, r, by rw [hids]; exact hid, by rw [hforked]; exact hj, hm.faulty j hf⟩

theorem fault_self (s : State) (k : ℕ) (pc : ChildPc) : ((s.fault k).child k pc).faulty k = true :=
  Function.update_self ..

theorem Inv.childStep {msg_qbytes n k : ℕ} {s' : State} (h : Inv files argv1 s)
    (hs : childStep msg_qbytes files n s k = some s') : Inv files argv1 s' := by
  cases hk : s.forked[k]? with
  | none => simp only [SvmsgFile.childStep, hk, reduceCtorEq] at hs
  | some req =>
    have hserves := h.base.serves k req hk
    cases hpc : s.children k with
    | «open» =>
      rw [hpc] at hserves
      cases hserves with
      | «open» hlog =>
        simp only [SvmsgFile.childStep, hk, hpc] at hs
        split at hs <;> rw [Option.some.injEq] at hs <;> subst hs <;> rename_i hfile <;>
          refine h.of_child hk (childMoves_child s k req _) ?_ <;> rw [List.append_nil]
        · exact .refuse hlog (.inl hfile)
        · exact .read (show s.log req.clientId = [].map dataMsg from hlog) ⟨hfile, nofun⟩
    | refuse =>
      rw [hpc] at hserves
      cases hserves with
      | refuse hlog hwhy =>
        simp only [SvmsgFile.childStep, hk, hpc] at hs
        split at hs
        · cases hs
        · rw [Option.some.injEq] at hs
          subst hs
          refine h.of_child hk (childMoves_fault s k req _) ?_
          rw [List.append_nil]
          exact .lost (show s.log req.clientId = [].map dataMsg from hlog) (.inl hlog)
        · rename_i s₁ hm
          rw [Option.some.injEq] at hs
          subst hs
          have hmoves := childMoves_msgsnd (k := k) .exited hm
          refine h.of_child hk hmoves ?_
          rw [hlog, List.nil_append]
          exact .refused rfl (hwhy.imp_right (hmoves.faulty k))
    | read rest =>
      rw [hpc] at hserves
      cases hserves with
      | read hlog hsent =>
        simp only [SvmsgFile.childStep, hk, hpc] at hs
        split at hs
        · rename_i hnil
          rw [Option.some.injEq] at hs
          subst hs
          refine h.of_child hk (childMoves_child s k req _) ?_
          rw [List.append_nil]
          exact .end hlog hsent (.inl hnil)
        · rw [Option.ite_none_right_eq_some, Option.some.injEq] at hs
          obtain ⟨⟨hpos, hmax, hlen⟩, rfl⟩ := hs
          refine h.of_child hk (childMoves_child s k req _) ?_
          rw [List.append_nil]
          refine .send hlog ?_ ?_
          · rw [List.take_append_drop]
            exact hsent
          · rw [List.length_take, Nat.min_eq_left hlen]
            exact ⟨hpos, hmax⟩
    | send chunk rest =>
      rw [hpc] at hserves
      cases hserves with
      | @send chunks _ _ hlog hsent hsize =>
        simp only [SvmsgFile.childStep, hk, hpc] at hs
        split at hs
        · cases hs
        · rw [Option.some.injEq] at hs
          subst hs
          refine h.of_child hk (childMoves_fault s k req _) ?_
          rw [List.append_nil]
          exact .end hlog hsent (.inr (fault_self s k _))
        · rename_i s₁ hm
          rw [Option.some.injEq] at hs
          subst hs
          refine h.of_child hk (childMoves_msgsnd (.read rest) hm) ?_
          have hmore : s.log req.clientId ++ [dataMsg chunk] = (chunks ++ [chunk]).map dataMsg := by
            rw [hlog, List.map_append, List.map_singleton]
          refine .read hmore ⟨?_, fun c hc => ?_⟩
          · rw [hsent.file, List.flatten_append, List.flatten_singleton, List.append_assoc]
          · rcases List.mem_append.mp hc with hc | hc
            · exact hsent.sizes c hc
            · rw [List.mem_singleton.mp hc]
              exact hsize
    | «end» =>
      rw [hpc] at hserves
      cases hserves with
      | @«end» chunks rest hlog hsent hwhy =>
        simp only [SvmsgFile.childStep, hk, hpc] at hs
        split at hs
        · cases hs
        · rw [Option.some.injEq] at hs
          subst hs
          refine h.of_child hk (childMoves_fault s k req _) ?_
          rw [List.append_nil]
          exact .lost hlog (.inr ⟨rest, hsent⟩)
        · rename_i s₁ hm
          rw [Option.some.injEq] at hs
          subst hs
          have hmoves := childMoves_msgsnd (k := k) .exited hm
          refine h.of_child hk hmoves ?_
          rw [hlog]
          exact .finished rfl hsent (hwhy.imp_right (hmoves.faulty k))
    | exited => simp only [SvmsgFile.childStep, hk, hpc, reduceCtorEq] at hs

theorem Inv.childFails {k : ℕ} {s' : State} (h : Inv files argv1 s)
    (hs : childFails s k = some s') : Inv files argv1 s' := by
  cases hk : s.forked[k]? with
  | none => simp only [SvmsgFile.childFails, hk, reduceCtorEq] at hs
  | some req =>
    have hserves := h.base.serves k req hk
    cases hpc : s.children k <;> rw [hpc] at hserves <;>
      simp only [SvmsgFile.childFails, hk, hpc, Option.some.injEq, reduceCtorEq] at hs <;> subst hs <;>
      refine h.of_child hk (childMoves_fault s k req _) ?_ <;> rw [List.append_nil]
    case «open» =>
      obtain ⟨hlog⟩ := hserves
      exact .refuse hlog (.inr (fault_self s k _))
    case refuse =>
      cases hserves with
      | refuse hlog hwhy => exact .lost (show s.log req.clientId = [].map dataMsg from hlog) (.inl hlog)
    case read rest =>
      cases hserves with
      | read hlog hsent => exact .end hlog hsent (.inr (fault_self s k _))
    case send chunk rest =>
      cases hserves with
      | send hlog hsent hsize => exact .end hlog hsent (.inr (fault_self s k _))
    case «end» =>
      cases hserves with
      | @«end» chunks rest hlog hsent hwhy => exact .lost hlog (.inr ⟨rest, hsent⟩)

/-! ### The parent -/

/-- A step of the parent: requests change hands, or are dropped. -/
theorem Inv.of_server {s' : State} (h : Inv files argv1 s) (hsub : s'.requests.Sublist s.requests)
    (hsame : s'.children = s.children ∧ s'.queues = s.queues ∧ s'.used = s.used ∧
      s'.clientId = s.clientId ∧ s'.clients = s.clients ∧ s'.log = s.log ∧ s'.rcvd = s.rcvd ∧
      s'.faulty = s.faulty)
    (hforked : s'.forked = s.forked ∨ ∃ req, s.sv = .fork req ∧ s'.forked = s.forked ++ [req]) :
    Inv files argv1 s' := by
  obtain ⟨hchildren, hqueues, hused, hids, hclients, hlog, hrcvd, hfaulty⟩ := hsame
  have hb := h.base
  have hkept : ∀ (k : ℕ) (req : requestMsg), s.forked[k]? = some req → s'.forked[k]? = some req := by
    intro k req hk
    rcases hforked with he | ⟨r, -, he⟩ <;> rw [he]
    · exact hk
    · rw [List.getElem?_append_left (List.getElem?_eq_some_iff.mp hk).1]
      exact hk
  refine ⟨⟨by rw [hids, hused]; exact hb.used, by rw [hids]; exact hb.owner,
    by rw [hclients, hids]; exact hb.early, by rw [hclients]; exact hb.checked,
    hb.nodup.sublist (hsub.map _), fun req hreq => ?_, fun k req hk => ?_, fun k hk => ?_,
    fun id hid => ?_, by rw [hids, hqueues, hrcvd, hlog]; exact hb.channel⟩, fun c => ?_⟩
  · rw [hids, hclients]
    exact hb.asked req (hsub.subset hreq)
  · rw [hfaulty, hlog, hchildren]
    rcases hforked with he | ⟨r, hr, he⟩ <;> rw [he] at hk
    · exact hb.serves k req hk
    · rcases lt_or_ge k s.forked.length with hlt | hge
      · rw [List.getElem?_append_left hlt] at hk
        exact hb.serves k req hk
      · -- the new child has sent nothing, and nobody has used its queue
        have hreq : req = r := by
          rw [List.getElem?_append_right hge] at hk
          have hmem := List.mem_of_getElem? hk
          exact List.mem_singleton.mp hmem
        rw [hb.fresh k hge, hreq]
        refine .open (hb.silent _ fun hmem => ?_)
        have hnodup := hb.nodup
        rw [State.requests, hr, List.map_append] at hnodup
        exact (List.nodup_append.mp hnodup).2.2 _ hmem _ List.mem_cons_self rfl
  · rw [hchildren]
    refine hb.fresh k ?_
    rcases hforked with he | ⟨r, -, he⟩ <;> rw [he] at hk
    · exact hk
    · rw [List.length_append] at hk
      omega
  · rw [hlog]
    refine hb.silent id fun hmem => hid ?_
    rcases hforked with he | ⟨r, -, he⟩ <;> rw [he]
    · exact hmem
    · rw [List.map_append]
      exact List.mem_append_left _ hmem
  · rw [hrcvd, hclients]
    refine (h.receives c).mono ?_
    rintro ⟨k, req, hid, hk, hf⟩
    exact ⟨k, req, by rw [hids]; exact hid, hkept k req hk, by rw [hfaulty]; exact hf⟩

theorem Inv.serverStep {s' : State} (h : Inv files argv1 s) (hs : serverStep s = some s') :
    Inv files argv1 s' := by
  cases hsv : s.sv with
  | msgrcv =>
    simp only [SvmsgFile.serverStep, hsv] at hs
    split at hs
    · cases hs
    · rename_i req rest hqueue
      rw [Option.some.injEq] at hs
      subst hs
      refine h.of_server ?_ ⟨rfl, rfl, rfl, rfl, rfl, rfl, rfl, rfl⟩ (.inl rfl)
      rw [State.requests, State.requests, hsv, hqueue]
      exact List.Sublist.refl _
  | fork req =>
    simp only [SvmsgFile.serverStep, hsv, Option.some.injEq] at hs
    subst hs
    refine h.of_server ?_ ⟨rfl, rfl, rfl, rfl, rfl, rfl, rfl, rfl⟩ (.inr ⟨req, hsv, rfl⟩)
    rw [State.requests, State.requests, hsv]
    simp only [ServerPc.pending, List.nil_append, List.append_assoc]
    exact List.Sublist.refl _
  | done => simp only [SvmsgFile.serverStep, hsv, reduceCtorEq] at hs

theorem Inv.serverFails {s' : State} (h : Inv files argv1 s) (hs : serverFails s = some s') :
    Inv files argv1 s' := by
  have heq : s' = { s with sv := .done, serverQueue := [] } := by
    unfold SvmsgFile.serverFails at hs
    split at hs
    · cases hs
    · exact (Option.some.inj hs).symm
  rw [heq]
  refine h.of_server ?_ ⟨rfl, rfl, rfl, rfl, rfl, rfl, rfl, rfl⟩ (.inl rfl)
  rw [State.requests, State.requests]
  simp only [ServerPc.pending, List.append_nil]
  exact List.sublist_append_left _ _

theorem Inv.step {msg_qbytes : ℕ} {a : Act} {s' : State} (h : Inv files argv1 s)
    (hs : step msg_qbytes files argv1 s a = some s') : Inv files argv1 s' := by
  cases a with
  | server => exact h.serverStep hs
  | serverFails => exact h.serverFails hs
  | child k n => exact h.childStep hs
  | childFails k => exact h.childFails hs
  | client c newId => exact h.clientStep hs
  | clientFails c =>
    have heq : s' = s.exit c .failed := by
      cases hpc : s.clients c <;>
        simp only [SvmsgFile.step, SvmsgFile.clientFails, hpc, Option.some.injEq, reduceCtorEq] at hs <;>
        exact hs.symm
    rw [heq]
    exact h.exit c
  | killed c =>
    have heq : s' = s.goto c .failed := by
      cases hpc : s.clients c <;>
        simp only [SvmsgFile.step, SvmsgFile.killed, hpc, Option.some.injEq, reduceCtorEq] at hs <;>
        exact hs.symm
    rw [heq]
    exact h.goto nofun (fun _ => rfl) nofun .failed

end Steps

/-! ## What the clients print -/

theorem inv_of_reachable {msg_qbytes : ℕ} {files : List UInt8 → Option (List UInt8)} {argv1 : ℕ → CStr}
    {s : State} (h : Reachable (svmsgFile msg_qbytes files argv1) s) : Inv files argv1 s :=
  h.invariant (I := Inv files argv1) (fun _ hs => by rw [hs]; exact inv_started files argv1)
    fun _ _ _ hi _ hs => hi.step hs

/-- **What is displayed is what the file holds**, for any number of clients at once, whatever the
order of the calls and whichever of them fail. A client that prints its totals has received the
bytes of the file it named, in order, in messages of at most a buffer each, and all of them unless
a call of the child that served it failed; the totals are those of what it received. A client that
displays the refusal named a file that cannot be opened, or a call of its child failed. -/
theorem file_received {msg_qbytes : ℕ} {files : List UInt8 → Option (List UInt8)} {argv1 : ℕ → CStr}
    {s : State} (h : Reachable (svmsgFile msg_qbytes files argv1) s) (c : ℕ) :
    (∀ totBytes numMsgs, s.clients c = .done totBytes numMsgs → ∃ chunks rest,
      s.rcvd c = chunks.map dataMsg ++ [endMsg] ∧ Sent (files (argv1 c).1) chunks rest ∧
        (rest = [] ∨ Faulty s c) ∧ totBytes = chunks.flatten.length ∧
        numMsgs = BitVec.ofNat 32 (chunks.length + 1)) ∧
      ∀ text, s.clients c = .refused text →
        text = bytes "Couldn't open" ∧ (files (argv1 c).1 = none ∨ Faulty s c) := by
  have hr := (inv_of_reachable h).receives c
  constructor
  · intro totBytes numMsgs hpc
    rw [hpc] at hr
    cases hr with
    | done hrcvd hsent hwhy => exact ⟨_, _, hrcvd, hsent, hwhy, rfl, rfl⟩
  · intro text hpc
    rw [hpc] at hr
    cases hr with
    | refused hrcvd hwhy => exact ⟨rfl, hwhy⟩

/-- Client 0 asks for a file of three bytes, which the child reads in two pieces, and client 1 for
one that is not there. -/
theorem file_received_two_clients : ∃ s : State,
    Reachable (svmsgFile 16384 (fun path => if path = bytes "f" then some [1, 2, 3] else none)
      fun c => ⟨if c = 0 then bytes "f" else bytes "g", by split <;> decide⟩) s ∧
    s.clients 0 = .done 3 3 ∧ s.clients 1 = .refused (bytes "Couldn't open") ∧
    ∃ chunks rest, s.rcvd 0 = chunks.map dataMsg ++ [endMsg] ∧ Sent (some [1, 2, 3]) chunks rest ∧
      (rest = [] ∨ Faulty s 0) ∧ 3 = chunks.flatten.length := by
  let files : List UInt8 → Option (List UInt8) := fun path =>
    if path = bytes "f" then some [1, 2, 3] else none
  let argv1 : ℕ → CStr := fun c => ⟨if c = 0 then bytes "f" else bytes "g", by split <;> decide⟩
  have hrun : ((svmsgFile 16384 files argv1).run started
      [.client 0 0, .client 1 0, .client 0 0, .client 1 0, .client 1 20, .client 0 10, .client 1 0,
        .client 0 0, .server, .server, .server, .server, .child 1 0, .child 0 0, .child 1 2, .child 1 0,
        .child 0 0, .client 0 0, .child 1 1, .client 1 0, .child 1 0, .child 1 0, .child 1 0,
        .client 0 0, .client 0 0]).map (fun s => (s.clients 0, s.clients 1)) =
      some (.done 3 3, .refused (bytes "Couldn't open")) := by decide +kernel
  obtain ⟨s, hs, hfacts⟩ := Option.map_eq_some_iff.mp hrun
  obtain ⟨h0, h1⟩ : s.clients 0 = .done 3 3 ∧ s.clients 1 = .refused (bytes "Couldn't open") := by
    simpa only [Prod.mk.injEq] using hfacts
  have hreach : Reachable (svmsgFile 16384 files argv1) s := System.reachable_of_run _ (.init rfl) hs
  obtain ⟨chunks, rest, hrcvd, hsent, hwhy, htot, -⟩ := (file_received hreach 0).1 3 3 h0
  exact ⟨s, hreach, h0, h1, chunks, rest, hrcvd, hsent, hwhy, htot⟩

end Tlpi.SvmsgFile
