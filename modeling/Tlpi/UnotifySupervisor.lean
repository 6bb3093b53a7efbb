/-
`seccomp/seccomp_unotify_mkdir.c` and `seccomp/seccomp_unotify_openat.c`: a supervisor that answers for
the calls of `mkdir()` or `openat()` that processes under a filter make.

## What is modelled

The filters, as the kernel runs them on each call, and the supervisor, each call of its a step of its
own, `getTargetPathname()` included. Between any two of its steps anything of `Kernel.change` may happen
to the other processes, which also make calls that are notified and change their descriptors; a process
that is blocked does not change its own. A delay is a loop of `sleep()` calls. A signal that a child
has terminated ends the supervisor at any point, and so does a call that fails where the source gives up.
When it is gone nobody listens, and the calls that are blocked fail.

The kernel does not accept an answer for a call that is no longer blocked, nor one that lets the call be
carried out and names a result too. What it accepts is recorded in `answers`, and what the supervisor has
done itself in `performed`, with the frame of `getTargetPathname()` at that time; `caused` are the
notifications. The supervisor reads none of the three. A file that it opens is named after the
notification that it was opened for.

## The shape of the argument

A step of the kernel makes it later (`Later`): no notification that there was comes back, and what was
known of one stays true. So what the supervisor has found out about a notification (`Stage`) stays true
while the others go on, and what it has done and answered (`Books`) stays true for good.
-/
import Mathlib.Data.List.Nodup
import Tlpi.CString
import Tlpi.TargetPathname

set_option autoImplicit false

namespace Tlpi.UnotifySupervisor

open Tlpi.Bpf (SockFilter BPF_STMT BPF_JUMP BPF_JMP BPF_JEQ BPF_RET BPF_K exec_ld exec_jeq exec_jge
  exec_ret exec_skip)
open Tlpi.SeccompFilters (SeccompData archCheck run low load_arch load_nr NR_openat AUDIT_ARCH_X86_64
  X32_SYSCALL_BIT SECCOMP_RET_KILL_PROCESS SECCOMP_RET_ERRNO SECCOMP_RET_ALLOW ENOTSUP)
open Tlpi.TargetPathname (SeccompNotif Kernel Change Frame Fetched Notified Blocked At)
open Tlpi.CString Tlpi.Transition

/-! ## 1. The filters -/

abbrev SECCOMP_RET_USER_NOTIF : BitVec 32 := 0x7fc00000
abbrev SECCOMP_RET_TRACE : BitVec 32 := 0x7ff00000
abbrev SECCOMP_RET_ACTION_FULL : BitVec 32 := 0xffff0000

abbrev NR_mkdir : BitVec 32 := 83

/-- The argument of the option `-f`. -/
inductive SecondFilter where
  | e | t
deriving Repr, DecidableEq

/-- The two programs, the first with its options. -/
inductive Program where
  | mkdir (delaySecs : ℕ) (second : Option SecondFilter)
  | openat
deriving Repr, DecidableEq

namespace Program

/-- The call that is notified. -/
def nr : Program → BitVec 32
  | .mkdir _ _ => NR_mkdir
  | .openat => NR_openat .x86_64

/-- The argument of the call that is a pathname. -/
def argNum : Program → Fin 6
  | .mkdir _ _ => ⟨0, by decide⟩
  | .openat => ⟨1, by decide⟩

end Program

/-- The `filter` of `installNotifyFilter()`. -/
def notifyFilter (prog : Program) : List SockFilter :=
  archCheck .x86_64 ++
    [BPF_JUMP (BPF_JMP ||| BPF_JEQ ||| BPF_K) prog.nr 0 1,
      BPF_STMT (BPF_RET ||| BPF_K) SECCOMP_RET_USER_NOTIF,
      BPF_STMT (BPF_RET ||| BPF_K) SECCOMP_RET_ALLOW]

/-- `retErrno` or `retTrace` -/
def SecondFilter.ret : SecondFilter → BitVec 32
  | .e => SECCOMP_RET_ERRNO ||| ENOTSUP
  | .t => SECCOMP_RET_TRACE

/-- The `filter` of `installFilter2()`. -/
def filter2 (second : SecondFilter) : List SockFilter :=
  archCheck .x86_64 ++
    [BPF_JUMP (BPF_JMP ||| BPF_JEQ ||| BPF_K) NR_mkdir 1 0,
      BPF_STMT (BPF_RET ||| BPF_K) SECCOMP_RET_ALLOW,
      BPF_STMT (BPF_RET ||| BPF_K) second.ret]

/-- The filters of the target, the one that was installed last in front. -/
def Program.filters : Program → List (List SockFilter)
  | .mkdir delaySecs (some second) => [filter2 second, notifyFilter (.mkdir delaySecs (some second))]
  | prog => [notifyFilter prog]

/-- The action of a return value: the smaller takes precedence. -/
def actionOnly (ret : BitVec 32) : ℤ := (ret &&& SECCOMP_RET_ACTION_FULL).toInt

/-- All filters are run, and the first of those with the smallest action decides. -/
def runFilters (filters : List (List SockFilter)) (d : SeccompData) : BitVec 32 :=
  filters.foldl (fun ret filter =>
    match run filter d with
    | .ret cur => if actionOnly cur < actionOnly ret then cur else ret
    | _ => ret) SECCOMP_RET_ALLOW

/-- The call causes a notification. -/
def notifies (prog : Program) (d : SeccompData) : Bool :=
  runFilters prog.filters d = SECCOMP_RET_USER_NOTIF

/-- A filter that singles out one call. -/
theorem run_single (nr yes no : BitVec 32) (jt jf : BitVec 8) (rest : List SockFilter)
    (hjump : (jt = 0 ∧ jf = 1 ∧
        rest = [BPF_STMT (BPF_RET ||| BPF_K) yes, BPF_STMT (BPF_RET ||| BPF_K) no]) ∨
      (jt = 1 ∧ jf = 0 ∧
        rest = [BPF_STMT (BPF_RET ||| BPF_K) no, BPF_STMT (BPF_RET ||| BPF_K) yes]))
    (d : SeccompData) :
    run (archCheck .x86_64 ++ BPF_JUMP (BPF_JMP ||| BPF_JEQ ||| BPF_K) nr jt jf :: rest) d =
      .ret (if d.arch ≠ AUDIT_ARCH_X86_64 ∨ X32_SYSCALL_BIT ≤ d.nr then SECCOMP_RET_KILL_PROCESS
        else if d.nr = nr then yes else no) := by
  have hrest : ∀ r : Bpf.Regs, Bpf.exec d.load
      (BPF_JUMP (BPF_JMP ||| BPF_JEQ ||| BPF_K) nr jt jf :: rest) 0 r =
        .ret (if r.A = nr then yes else no) := by
    intro r
    rcases hjump with ⟨rfl, rfl, rfl⟩ | ⟨rfl, rfl, rfl⟩
    · simp only [exec_jeq, exec_ret, exec_skip, BitVec.reduceToNat]
      split <;> rfl
    · simp only [exec_jeq, exec_ret, exec_skip, BitVec.reduceToNat]
      split <;> rfl
  simp only [run, archCheck, List.cons_append, List.nil_append, exec_ld load_arch, exec_ld load_nr,
    exec_jeq, exec_jge, exec_ret, exec_skip, BitVec.reduceToNat, hrest]
  by_cases harch : d.arch = AUDIT_ARCH_X86_64
  · by_cases hx32 : X32_SYSCALL_BIT ≤ d.nr
    · rw [if_pos harch, if_pos hx32, if_pos (.inr hx32)]
    · rw [if_pos harch, if_neg hx32, if_neg (not_or.mpr ⟨not_not.mpr harch, hx32⟩)]
  · rw [if_neg harch, if_pos (.inl harch)]

theorem run_notifyFilter (prog : Program) (d : SeccompData) : run (notifyFilter prog) d =
    .ret (if d.arch ≠ AUDIT_ARCH_X86_64 ∨ X32_SYSCALL_BIT ≤ d.nr then SECCOMP_RET_KILL_PROCESS
      else if d.nr = prog.nr then SECCOMP_RET_USER_NOTIF else SECCOMP_RET_ALLOW) :=
  run_single prog.nr SECCOMP_RET_USER_NOTIF SECCOMP_RET_ALLOW 0 1 _ (.inl ⟨rfl, rfl, rfl⟩) d

theorem run_filter2 (second : SecondFilter) (d : SeccompData) : run (filter2 second) d =
    .ret (if d.arch ≠ AUDIT_ARCH_X86_64 ∨ X32_SYSCALL_BIT ≤ d.nr then SECCOMP_RET_KILL_PROCESS
      else if d.nr = NR_mkdir then second.ret else SECCOMP_RET_ALLOW) :=
  run_single NR_mkdir second.ret SECCOMP_RET_ALLOW 1 0 _ (.inr ⟨rfl, rfl, rfl⟩) d

/-- The calls that are notified: an error from the second filter would go before, a trace would not. -/
theorem notifies_iff (prog : Program) (d : SeccompData) : notifies prog d = true ↔
    d.arch = AUDIT_ARCH_X86_64 ∧ d.nr = prog.nr ∧ ∀ delaySecs, prog ≠ .mkdir delaySecs (some .e) := by
  rw [notifies, decide_eq_true_eq]
  by_cases hours : d.arch ≠ AUDIT_ARCH_X86_64 ∨ X32_SYSCALL_BIT ≤ d.nr
  · have hfirst : ∀ prog, run (notifyFilter prog) d = .ret SECCOMP_RET_KILL_PROCESS := fun prog => by
      rw [run_notifyFilter, if_pos hours]
    have hsecond : ∀ second, run (filter2 second) d = .ret SECCOMP_RET_KILL_PROCESS := fun second => by
      rw [run_filter2, if_pos hours]
    refine iff_of_false ?_ ?_
    · rcases prog with ⟨delaySecs, _ | second⟩ | _ <;>
        simp only [runFilters, Program.filters, List.foldl_cons, List.foldl_nil, hfirst, hsecond] <;>
        decide
    · rintro ⟨harch, hnr, -⟩
      rcases hours with hne | hx32
      · exact hne harch
      · rw [hnr] at hx32
        cases prog with
        | mkdir delaySecs second =>
          rw [Program.nr] at hx32
          exact absurd hx32 (by decide)
        | «openat» => exact absurd hx32 (by decide)
  · have harch : d.arch = AUDIT_ARCH_X86_64 := not_not.mp (not_or.mp hours).1
    by_cases hnr : d.nr = prog.nr
    · have hfirst : run (notifyFilter prog) d = .ret SECCOMP_RET_USER_NOTIF := by
        rw [run_notifyFilter, if_neg hours, if_pos hnr]
      cases prog with
      | mkdir delaySecs second =>
        have hsecond : ∀ second, run (filter2 second) d = .ret second.ret := fun second => by
          rw [run_filter2, if_neg hours]
          exact congrArg Bpf.Outcome.ret (if_pos hnr)
        -- the filter that was installed last is run first
        rcases second with _ | _ | _ <;>
          simp only [runFilters, Program.filters, List.foldl_cons, List.foldl_nil, hfirst, hsecond,
            harch, hnr, true_and] <;>
          simp [actionOnly, SecondFilter.ret]
      | «openat» =>
        simp only [runFilters, Program.filters, List.foldl_cons, List.foldl_nil, hfirst, harch, hnr,
          true_and]
        simp [actionOnly]
    · refine iff_of_false ?_ (fun h => hnr h.2.1)
      have hfirst : run (notifyFilter prog) d = .ret SECCOMP_RET_ALLOW := by
        rw [run_notifyFilter, if_neg hours, if_neg hnr]
      cases prog with
      | mkdir delaySecs second =>
        have hsecond : ∀ second, run (filter2 second) d = .ret SECCOMP_RET_ALLOW := fun second => by
          rw [run_filter2, if_neg hours]
          exact congrArg Bpf.Outcome.ret (if_neg hnr)
        cases second <;>
          simp only [runFilters, Program.filters, List.foldl_cons, List.foldl_nil, hfirst, hsecond] <;>
          decide
      | «openat» =>
        simp only [runFilters, Program.filters, List.foldl_cons, List.foldl_nil, hfirst]
        decide

/-! ## 2. The supervisor -/

abbrev PATH_MAX : ℕ := 4096
abbrev EINVAL : ℤ := 22
abbrev EOPNOTSUPP : ℤ := 95
abbrev SECCOMP_USER_NOTIF_FLAG_CONTINUE : ℕ := 1

/-- `struct seccomp_notif_resp` -/
structure SeccompNotifResp where
  id : ℕ
  val : ℤ
  error : ℤ
  flags : ℕ
deriving Repr, DecidableEq

/-- A notification, and the process that is blocked in the call. -/
structure Notif where
  req : SeccompNotif
  proc : ℕ

abbrev Notif.id (n : Notif) : ℕ := n.req.id

/-- A call that the supervisor makes for a target. -/
inductive Call where
  | mkdir (pathname : List UInt8) (mode : BitVec 32)
  | openat (dirfd : BitVec 32) (pathname : List UInt8) (flags mode : BitVec 32)
deriving Repr, DecidableEq

inductive File where
  /-- The supervisor has opened it for the notification. -/
  | openedFor (id : ℕ)
  | other (n : ℕ)
deriving Repr, DecidableEq

/-- Where the supervisor stands: the call it makes next. -/
inductive Pc where
  | recv
  | checkNr
  /-- `cookieIsValid()` before and after the delay. -/
  | delay | delayAgain
  /-- `sleep(1)`, with so many seconds to go. -/
  | sleep (d : ℕ)
  | getTargetPathname
  /-- `mkdir()` or `openat()` -/
  | perform
  | addfd (fd : ℕ)
  | close (fd remoteFd : ℕ)
  | send
  /-- `strcmp(path, "/bye")` -/
  | bye
  | exited
deriving Repr, DecidableEq

/-- A call that was made for a target: its `errno` if it failed, else the descriptor that it gave
(`mkdir()` gives 0). -/
structure Performed where
  notif : Notif
  frame : Frame
  call : Call
  result : Except ℕ ℕ

/-- What becomes of a call that is answered. -/
inductive Reply where
  /-- It is carried out. -/
  | continues
  /-- It returns this; an error, negated, if it is negative. -/
  | returns (r : ℤ)
deriving Repr, DecidableEq

/-- An answer that was accepted, the process that gets it, and the file that the descriptor which it
names is for in that process. -/
structure Answer where
  notif : Notif
  frame : Frame
  proc : ℕ
  reply : Reply
  file : Option File

structure State where
  kernel : Kernel
  /-- The notifications that are not received yet. -/
  queue : List Notif
  /-- The descriptors of each process. -/
  table : ℕ → ℕ → Option File
  pc : Pc
  /-- `*req` -/
  cur : Notif
  /-- `path`, and the rest of the frame of `getTargetPathname()` -/
  frame : Frame
  resp : SeccompNotifResp
  /-- The descriptors of the files that the supervisor has opened. -/
  fds : List (ℕ × File)
  caused : List Notif
  performed : List Performed
  answers : List Answer

/-- The string in a buffer, from its byte `i` on, of which there are `n`. -/
def stringFrom (path : ℕ → UInt8) (i : ℕ) : ℕ → List UInt8
  | 0 => []
  | n + 1 => if path i = 0 then [] else path i :: stringFrom path (i + 1) n

/-- The string in `path`. -/
def pathname (path : ℕ → UInt8) : List UInt8 := stringFrom path 0 PATH_MAX

/-- `strncmp(path, start, strlen(start)) == 0` -/
def begins (start : String) (path : ℕ → UInt8) : Bool := (bytes start).isPrefixOf (pathname path)

namespace Program

/-- The call that is made for a target. -/
def call (prog : Program) (req : SeccompNotif) (path : ℕ → UInt8) : Call :=
  match prog with
  | .mkdir _ _ => .mkdir (pathname path) (low (req.data.args ⟨1, by decide⟩))
  | .openat =>
    .openat (low (req.data.args ⟨0, by decide⟩)) (pathname path) (low (req.data.args ⟨2, by decide⟩))
      (low (req.data.args ⟨3, by decide⟩))

def delaySecs : Program → ℕ
  | .mkdir delaySecs _ => delaySecs
  | .openat => 0

/-- Where the supervisor goes on when it has sent its answer. -/
def answered : Program → Pc
  | .mkdir _ _ => .bye
  | .openat => .recv

end Program

namespace State

/-- The supervisor ends, and the listener is closed with it. -/
def exit (s : State) : State := { s with pc := .exited, kernel := { s.kernel with blocked := [] } }

/-- `getTargetPathname()` is called. -/
def enter (s : State) : State :=
  { s with pc := .getTargetPathname, frame := { s.frame with pc := .open, accesses := [] } }

/-- What is done about the result of `getTargetPathname()`. -/
def consider (prog : Program) (pathStatus : ℤ) (s : State) : State :=
  let resp := { s.resp with id := s.cur.id, flags := 0, val := 0 }
  if pathStatus ≠ 0 then { s with pc := .send, resp := { resp with error := -EINVAL } }
  else
    match prog with
    | .mkdir _ _ =>
      if begins "/tmp/" s.frame.path then { s with pc := .perform, resp := resp }
      else if begins "./" s.frame.path then
        { s with
          pc := .send
          resp := { resp with error := 0, val := 0, flags := SECCOMP_USER_NOTIF_FLAG_CONTINUE } }
      else { s with pc := .send, resp := { resp with error := -EOPNOTSUPP } }
    | .openat => { s with pc := .perform, resp := resp }

/-- The call is made for the target, and it is recorded what it comes to. -/
def record (prog : Program) (result : Except ℕ ℕ) (s : State) : State :=
  { s with
    performed := s.performed ++ [⟨s.cur, s.frame, prog.call s.cur.req s.frame.path, result⟩] }

end State

/-- What the kernel makes of a response. -/
def reply (resp : SeccompNotifResp) : Reply :=
  if resp.flags = SECCOMP_USER_NOTIF_FLAG_CONTINUE then .continues
  else .returns (if resp.error ≠ 0 then resp.error else resp.val)

/-- `ioctl(notifyFd, SECCOMP_IOCTL_NOTIF_RECV, req)`: the first call that is still blocked. -/
def recv (s : State) : Option State :=
  match s.pc with
  | .recv =>
    match s.queue.dropWhile fun n => !s.kernel.cookieIsValid n.id with
    | [] => none
    | n :: rest => some { s with pc := .checkNr, cur := n, queue := rest }
  | _ => none

/-- `ioctl(notifyFd, SECCOMP_IOCTL_NOTIF_SEND, resp)` -/
def send (prog : Program) (s : State) : State :=
  match s.kernel.blocked.find? fun b => b.2 = s.resp.id with
  | none => { s with pc := prog.answered }
  | some (p, _) =>
    if s.resp.flags = SECCOMP_USER_NOTIF_FLAG_CONTINUE ∧ (s.resp.error ≠ 0 ∨ s.resp.val ≠ 0) then
      { s with pc := prog.answered }
    else
      { s with
        pc := prog.answered
        kernel := { s.kernel with blocked := s.kernel.blocked.filter fun b => b.2 ≠ s.resp.id }
        answers := s.answers ++ [⟨s.cur, s.frame, p, reply s.resp, s.table p s.resp.val.toNat⟩] }

/-- The calls of which the outcome is not a matter of choice. -/
def call (prog : Program) (s : State) : Option State :=
  match s.pc with
  | .checkNr =>
    if s.cur.req.data.nr ≠ prog.nr then some s.exit
    else if 0 < prog.delaySecs then some { s with pc := .delay }
    else some s.enter
  | .delay =>
    if s.kernel.cookieIsValid s.cur.id then some { s with pc := .sleep prog.delaySecs } else some s.exit
  | .sleep d => some { s with pc := if 1 < d then .sleep (d - 1) else .delayAgain }
  | .delayAgain => if s.kernel.cookieIsValid s.cur.id then some s.enter else some s.exit
  | .getTargetPathname =>
    match s.frame.pc with
    | .returned r => some (s.consider prog r)
    | _ => none
  | .close fd remoteFd =>
    some { s with
      pc := .send, fds := s.fds.filter fun f => f.1 ≠ fd
      resp := { s.resp with error := 0, val := remoteFd } }
  | .send => some (send prog s)
  | .bye => if pathname s.frame.path = bytes "/bye" then some s.exit else some { s with pc := .recv }
  | _ => none

/-- `mkdir()` or `openat()` gives a descriptor, or fails. -/
def perform (prog : Program) (r : Except ℕ ℕ) (s : State) : Option State :=
  match s.pc with
  | .perform =>
    match r with
    | .error errno =>
      if errno = 0 then none
      else
        let s := s.record prog r
        some { s with pc := .send, resp := { s.resp with error := -errno } }
    | .ok fd =>
      let s := s.record prog r
      match prog with
      | .mkdir _ _ =>
        some { s with
          pc := .send, resp := { s.resp with error := 0, val := (pathname s.frame.path).length } }
      | .openat =>
        if s.fds.any fun f => f.1 = fd then none
        else some { s with pc := .addfd fd, fds := (fd, .openedFor s.cur.id) :: s.fds }
  | _ => none

/-- `ioctl(notifyFd, SECCOMP_IOCTL_NOTIF_ADDFD, &addfd)`, which fails for a call that is no longer
blocked. -/
def addfd (fails : Bool) (s : State) : Option State :=
  match s.pc with
  | .addfd fd =>
    match s.kernel.blocked.find? fun b => b.2 = s.cur.id, s.fds.find? fun f => f.1 = fd with
    | some (p, _), some (_, file) =>
      if fails then some s.exit
      else
        some { s with
          pc := .close fd (42 + fd)
          table := Function.update s.table p (Function.update (s.table p) (42 + fd) (some file)) }
    | _, _ => some s.exit
  | _ => none

inductive Act where
  | change (c : Change)
  /-- The process that has the PID makes a call. -/
  | syscall (pid : ℕ) (d : SeccompData)
  | setFd (p fd : ℕ) (file : Option File)
  | recv
  | recvFails (eintr : Bool)
  | path (a : TargetPathname.Act)
  | perform (r : Except ℕ ℕ)
  | addfd (fails : Bool)
  | call
  | sigchld

/-- Something happens to the other processes. -/
def change (c : Change) (s : State) : Option State :=
  match c with
  | .notify _ => none
  | c => some { s with kernel := s.kernel.change c }

/-- A call is notified, and its process is blocked. -/
def syscall (prog : Program) (pid : ℕ) (d : SeccompData) (s : State) : Option State :=
  if s.pc ≠ .exited ∧ notifies prog d then
    match s.kernel.owner pid with
    | none => none
    | some p =>
      if s.kernel.blocked.any fun b => b.1 = p then none
      else
        some { s with
          kernel := s.kernel.change (.notify pid)
          queue := s.queue ++ [⟨⟨s.kernel.nextId, pid, d⟩, p⟩]
          caused := s.caused ++ [⟨⟨s.kernel.nextId, pid, d⟩, p⟩] }
  else none

/-- A step of `getTargetPathname()`. -/
def path (prog : Program) (a : TargetPathname.Act) (s : State) : Option State :=
  match s.pc, a with
  | .getTargetPathname, .change _ => none
  | .getTargetPathname, a =>
    (TargetPathname.step s.cur.req prog.argNum PATH_MAX ⟨s.kernel, s.frame⟩ a).map fun t =>
      { s with frame := t.frame }
  | _, _ => none

def step (prog : Program) (s : State) : Act → Option State
  | .change c => change c s
  | .syscall pid d => syscall prog pid d s
  | .setFd p fd file =>
    if s.kernel.blocked.any fun b => b.1 = p then none
    else some { s with table := Function.update s.table p (Function.update (s.table p) fd file) }
  | .recv => recv s
  | .recvFails eintr =>
    match s.pc with
    | .recv => if eintr then some s else some s.exit
    | _ => none
  | .path a => path prog a s
  | .perform r => perform prog r s
  | .addfd fails => addfd fails s
  | .call => call prog s
  | .sigchld => if s.pc = .exited then none else some s.exit

/-- The supervisor begins, with none of the files of this history open; its buffers hold anything. -/
structure Starts (s : State) : Prop where
  blocked : s.kernel.blocked = []
  queue : s.queue = []
  pc : s.pc = .recv
  frame : s.frame.fds = []
  fds : s.fds = []
  caused : s.caused = []
  performed : s.performed = []
  answers : s.answers = []

/-- `handleNotifications()` and the processes around it. -/
def handleNotifications (prog : Program) : System State Act where
  init := Starts
  step := step prog

/-! ## 3. What was done, and what was answered -/

/-- A call that the supervisor has made is the target's, and of `mkdir()` only those below `/tmp`. -/
structure Proper (prog : Program) (m : Performed) : Prop where
  fetched : Fetched m.notif.req prog.argNum PATH_MAX m.notif.proc m.frame
  call : m.call = prog.call m.notif.req m.frame.path
  tmp : ∀ delaySecs second, prog = .mkdir delaySecs second → begins "/tmp/" m.frame.path = true

/-- What a target is told of a call that was made for it: its error, or the length of the pathname of its
directory, or the descriptor that it has now for the file. -/
def Result (prog : Program) (m : Performed) (r : ℤ) (file : Option File) : Prop :=
  match m.result, prog with
  | .error errno, _ => errno ≠ 0 ∧ r = -errno
  | .ok _, .mkdir _ _ => r = (pathname m.frame.path).length
  | .ok fd, .openat => r = (42 + fd : ℕ) ∧ file = some (.openedFor m.notif.id)

/-- A call is refused since its pathname could not be fetched, or is not one of those allowed. -/
def Refused (prog : Program) (n : Notif) (frame : Frame) (r : ℤ) : Prop :=
  (r = -EINVAL ∧ ∃ pathStatus, pathStatus ≠ 0 ∧ frame.pc = .returned pathStatus) ∨
    (r = -EOPNOTSUPP ∧ (∃ delaySecs second, prog = .mkdir delaySecs second) ∧
      Fetched n.req prog.argNum PATH_MAX n.proc frame ∧ begins "/tmp/" frame.path = false ∧
      begins "./" frame.path = false)

/-- The answer says what was done: the call of the target is carried out for a pathname that begins with
`./`, or it is refused, and in both cases nothing was done for it; or it returns the result of what was done
for it, whether that succeeded or failed. -/
def Warranted (prog : Program) (performed : List Performed) (a : Answer) : Prop :=
  match a.reply with
  | .continues =>
    (∃ delaySecs second, prog = .mkdir delaySecs second) ∧
      Fetched a.notif.req prog.argNum PATH_MAX a.notif.proc a.frame ∧
      begins "./" a.frame.path = true ∧ ∀ m ∈ performed, m.notif.id ≠ a.notif.id
  | .returns r =>
    (Refused prog a.notif a.frame r ∧ ∀ m ∈ performed, m.notif.id ≠ a.notif.id) ∨
      ∃ m ∈ performed, m.notif = a.notif ∧ m.frame = a.frame ∧ Result prog m r a.file

/-- What is done for another notification makes no difference. -/
theorem Warranted.concat {prog : Program} {performed : List Performed} {a : Answer} {m : Performed}
    (hm : m.notif.id ≠ a.notif.id) (h : Warranted prog performed a) :
    Warranted prog (performed ++ [m]) a := by
  unfold Warranted at h ⊢
  split at h
  · obtain ⟨hprog, hfetched, hdot, hnone⟩ := h
    refine ⟨hprog, hfetched, hdot, fun m' hm' => ?_⟩
    rcases List.mem_append.mp hm' with hm' | hm'
    · exact hnone m' hm'
    · rw [List.mem_singleton.mp hm']
      exact hm
  · rcases h with ⟨hrefused, hnone⟩ | ⟨m', hm', hrest⟩
    · refine .inl ⟨hrefused, fun m' hm' => ?_⟩
      rcases List.mem_append.mp hm' with hm' | hm'
      · exact hnone m' hm'
      · rw [List.mem_singleton.mp hm']
        exact hm
    · exact .inr ⟨m', List.mem_append_left _ hm', hrest⟩

/-- The kernel some time later: a call that is blocked was blocked before, unless it is a new one. -/
structure Later (k k' : Kernel) : Prop where
  next : k.nextId ≤ k'.nextId
  fresh : (∀ b ∈ k.blocked, b.2 < k.nextId) → ∀ b ∈ k'.blocked, b.2 < k'.nextId
  blocked : ∀ req : SeccompNotif, req.id < k.nextId → ∀ p, Blocked req p k' → Blocked req p k
  notified : ∀ req target, Notified req target k → Notified req target k'

/-- Calls are answered or fail. -/
theorem Later.of_subset (k : Kernel) {l : List (ℕ × ℕ)} (h : l ⊆ k.blocked) :
    Later k { k with blocked := l } where
  next := Nat.le_refl _
  fresh hk b hb := hk b (h hb)
  blocked _ _ _ hp := h hp
  notified _ _ hn :=
    ⟨hn.fresh, fun p hp => hn.unique p (h hp), fun hblocked => hn.owner (h hblocked)⟩

theorem Later.change (k : Kernel) (c : Change) : Later k (k.change c) where
  next := by
    cases c with
    | notify pid =>
      rw [Kernel.change]
      split
      · exact Nat.le_refl _
      · split
        · exact Nat.le_refl _
        · exact Nat.le_succ _
    | fork pid =>
      rw [Kernel.change]
      split <;> exact Nat.le_refl _
    | interrupt p => exact Nat.le_refl _
    | exit p => exact Nat.le_refl _
    | store p addr byte => exact Nat.le_refl _
  fresh hk b hb := by
    cases c with
    | notify pid =>
      rw [Kernel.change] at hb ⊢
      split at hb
      · exact hk b hb
      · split at hb
        · rename_i hbusy
          rw [if_pos hbusy]
          exact hk b hb
        · rename_i hfree
          rw [if_neg hfree]
          rcases List.mem_cons.mp hb with rfl | hb
          · exact Nat.lt_succ_self _
          · exact Nat.lt_succ_of_lt (hk b hb)
    | fork pid =>
      rw [Kernel.change] at hb ⊢
      split at hb
      · rename_i hfree
        rw [if_pos hfree]
        exact hk b hb
      · rename_i hbusy
        rw [if_neg hbusy]
        exact hk b hb
    | interrupt p => exact hk b (List.mem_of_mem_filter hb)
    | exit p => exact hk b (List.mem_of_mem_filter hb)
    | store p addr byte => exact hk b hb
  blocked _ hid _ hp := TargetPathname.mem_blocked_change hid hp
  notified _ _ hn := hn.change c

/-- What is true of the notifications, of what was done for them, and of the answers. -/
structure Books (prog : Program) (k : Kernel) (queue caused : List Notif) (performed : List Performed)
    (answers : List Answer) : Prop where
  fresh : ∀ b ∈ k.blocked, b.2 < k.nextId
  notified : ∀ n ∈ caused, Notified n.req n.proc k
  genuine : ∀ n ∈ caused, notifies prog n.req.data = true
  nodup : (caused.map Notif.id).Nodup
  queued : queue <:+ caused
  performedOnce : (performed.map fun m => m.notif.id).Nodup
  proper : ∀ m ∈ performed, m.notif ∈ caused ∧ m.notif ∉ queue ∧ Proper prog m
  answersOnce : (answers.map fun a => a.notif.id).Nodup
  warranted : ∀ a ∈ answers, a.notif ∈ caused ∧ a.notif ∉ queue ∧ a.proc = a.notif.proc ∧
    (∀ p, ¬Blocked a.notif.req p k) ∧ Warranted prog performed a

section Books

variable {prog : Program} {k k' : Kernel} {queue caused : List Notif} {performed : List Performed}
  {answers : List Answer}

theorem Books.later (h : Books prog k queue caused performed answers) (hk : Later k k') :
    Books prog k' queue caused performed answers :=
  { h with
    fresh := hk.fresh h.fresh
    notified := fun n hn => hk.notified _ _ (h.notified n hn)
    warranted := fun a ha => by
      obtain ⟨hcaused, hqueue, hproc, hfree, hwarranted⟩ := h.warranted a ha
      have hid := (h.notified _ hcaused).fresh
      exact ⟨hcaused, hqueue, hproc, fun p hp => hfree p (hk.blocked _ hid p hp), hwarranted⟩ }

/-- An ID is that of one notification. -/
theorem Books.eq_of_id (h : Books prog k queue caused performed answers) {n n' : Notif}
    (hn : n ∈ caused) (hn' : n' ∈ caused) (hid : n.id = n'.id) : n = n' :=
  List.inj_on_of_nodup_map h.nodup hn hn' hid

/-- Notifications are received, or are no longer of interest. -/
theorem Books.suffix (h : Books prog k queue caused performed answers) {rest : List Notif}
    (hrest : rest <:+ queue) : Books prog k rest caused performed answers :=
  { h with
    queued := hrest.trans h.queued
    proper := fun m hm => by
      obtain ⟨hcaused, hqueue, hproper⟩ := h.proper m hm
      exact ⟨hcaused, fun hmem => hqueue (hrest.subset hmem), hproper⟩
    warranted := fun a ha => by
      obtain ⟨hcaused, hqueue, hrest'⟩ := h.warranted a ha
      exact ⟨hcaused, fun hmem => hqueue (hrest.subset hmem), hrest'⟩ }

/-- A process makes a call that is notified. -/
theorem Books.notify (h : Books prog k queue caused performed answers) (hk : Later k k') {n : Notif}
    (hid : n.id = k.nextId) (hn : Notified n.req n.proc k') (hdata : notifies prog n.req.data = true) :
    Books prog k' (queue ++ [n]) (caused ++ [n]) performed answers := by
  have hnew : ∀ n' ∈ caused, n'.id ≠ n.id := fun n' hn' => by
    have hlt := (h.notified n' hn').fresh
    rw [hid]
    exact Nat.ne_of_lt hlt
  have hlater := h.later hk
  have hout : ∀ n' ∈ caused, n' ∉ queue → n' ∉ queue ++ [n] := by
    intro n' hn' hqueue hmem
    rcases List.mem_append.mp hmem with hmem | hmem
    · exact hqueue hmem
    · exact hnew n' hn' (congrArg Notif.id (List.mem_singleton.mp hmem))
  refine { hlater with notified := ?_, genuine := ?_, nodup := ?_, queued := ?_, proper := ?_, warranted := ?_ }
  · intro n' hn'
    rcases List.mem_append.mp hn' with hn' | hn'
    · exact hlater.notified n' hn'
    · rw [List.mem_singleton.mp hn']
      exact hn
  · intro n' hn'
    rcases List.mem_append.mp hn' with hn' | hn'
    · exact h.genuine n' hn'
    · rw [List.mem_singleton.mp hn']
      exact hdata
  · rw [List.map_append, List.nodup_append']
    refine ⟨h.nodup, List.nodup_singleton _, ?_⟩
    intro id hmem hmem'
    obtain ⟨n', hn', rfl⟩ := List.mem_map.mp hmem
    exact hnew n' hn' (List.mem_singleton.mp hmem')
  · obtain ⟨front, rfl⟩ := h.queued
    exact ⟨front, by rw [List.append_assoc]⟩
  · intro m hm
    obtain ⟨hcaused, hqueue, hproper⟩ := h.proper m hm
    exact ⟨List.mem_append_left _ hcaused, hout _ hcaused hqueue, hproper⟩
  · intro a ha
    obtain ⟨hcaused, hqueue, hrest⟩ := hlater.warranted a ha
    exact ⟨List.mem_append_left _ hcaused, hout _ hcaused hqueue, hrest⟩

/-- A call is made for a target, the first for its notification. -/
theorem Books.perform (h : Books prog k queue caused performed answers) {m : Performed}
    (hcaused : m.notif ∈ caused) (hqueue : m.notif ∉ queue) (hproper : Proper prog m)
    (hfirst : ∀ m' ∈ performed, m'.notif.id ≠ m.notif.id)
    (hunanswered : ∀ a ∈ answers, a.notif.id ≠ m.notif.id) :
    Books prog k queue caused (performed ++ [m]) answers := by
  refine { h with performedOnce := ?_, proper := ?_, warranted := ?_ }
  · rw [List.map_append, List.nodup_append']
    refine ⟨h.performedOnce, List.nodup_singleton _, ?_⟩
    intro id hmem hmem'
    obtain ⟨m', hm', rfl⟩ := List.mem_map.mp hmem
    exact hfirst m' hm' (List.mem_singleton.mp hmem')
  · intro m' hm'
    rcases List.mem_append.mp hm' with hm' | hm'
    · exact h.proper m' hm'
    · rw [List.mem_singleton.mp hm']
      exact ⟨hcaused, hqueue, hproper⟩
  · intro a ha
    obtain ⟨hin, hout, hproc, hfree, hwarranted⟩ := h.warranted a ha
    exact ⟨hin, hout, hproc, hfree, hwarranted.concat fun heq => hunanswered a ha heq.symm⟩

/-- An answer is accepted. -/
theorem Books.answer (h : Books prog k queue caused performed answers) {a : Answer}
    (hcaused : a.notif ∈ caused) (hqueue : a.notif ∉ queue) (hproc : a.proc = a.notif.proc)
    (hfree : ∀ p, ¬Blocked a.notif.req p k) (hwarranted : Warranted prog performed a)
    (hfirst : ∀ a' ∈ answers, a'.notif.id ≠ a.notif.id) :
    Books prog k queue caused performed (answers ++ [a]) := by
  refine { h with answersOnce := ?_, warranted := ?_ }
  · rw [List.map_append, List.nodup_append']
    refine ⟨h.answersOnce, List.nodup_singleton _, ?_⟩
    intro id hmem hmem'
    obtain ⟨a', ha', rfl⟩ := List.mem_map.mp hmem
    exact hfirst a' ha' (List.mem_singleton.mp hmem')
  · intro a' ha'
    rcases List.mem_append.mp ha' with ha' | ha'
    · exact h.warranted a' ha'
    · rw [List.mem_singleton.mp ha']
      exact ⟨hcaused, hqueue, hproc, hfree, hwarranted⟩

end Books

/-! ## 4. Where the supervisor stands -/

/-- A notification is received and not answered yet. -/
def Pc.handles : Pc → Bool
  | .recv | .bye | .exited => false
  | _ => true

/-- Nothing has been done about it yet. -/
def Pc.early : Pc → Bool
  | .checkNr | .delay | .sleep _ | .delayAgain | .getTargetPathname | .perform => true
  | _ => false

/-- The response is for the notification, and as it is set at first. -/
structure Prepared (resp : SeccompNotifResp) (id : ℕ) : Prop where
  id : resp.id = id
  flags : resp.flags = 0

/-- What is true where the supervisor stands. -/
def Stage (prog : Program) (s : State) : Prop :=
  match s.pc with
  | .recv | .checkNr | .delay | .delayAgain | .bye => s.fds = [] ∧ s.frame.fds = []
  | .sleep d => s.fds = [] ∧ s.frame.fds = [] ∧ d ≤ prog.delaySecs
  | .getTargetPathname => s.fds = [] ∧
    At s.cur.req prog.argNum PATH_MAX s.cur.proc [] (Blocked s.cur.req s.cur.proc s.kernel) s.frame
  | .perform => s.fds = [] ∧ s.frame.fds = [] ∧ Prepared s.resp s.cur.id ∧
    Proper prog ⟨s.cur, s.frame, prog.call s.cur.req s.frame.path, .ok 0⟩
  | .addfd fd => prog = .openat ∧ s.fds = [(fd, .openedFor s.cur.id)] ∧ s.frame.fds = [] ∧
    Prepared s.resp s.cur.id ∧ ⟨s.cur, s.frame, prog.call s.cur.req s.frame.path, .ok fd⟩ ∈ s.performed
  | .close fd remoteFd => prog = .openat ∧ s.fds = [(fd, .openedFor s.cur.id)] ∧ s.frame.fds = [] ∧
    Prepared s.resp s.cur.id ∧ ⟨s.cur, s.frame, prog.call s.cur.req s.frame.path, .ok fd⟩ ∈ s.performed ∧
    remoteFd = 42 + fd ∧ (Blocked s.cur.req s.cur.proc s.kernel →
      s.table s.cur.proc remoteFd = some (.openedFor s.cur.id))
  | .send => s.fds = [] ∧ s.frame.fds = [] ∧ s.resp.id = s.cur.id ∧
    (s.resp.flags = SECCOMP_USER_NOTIF_FLAG_CONTINUE → s.resp.error = 0 ∧ s.resp.val = 0) ∧
    (Blocked s.cur.req s.cur.proc s.kernel → Warranted prog s.performed
      ⟨s.cur, s.frame, s.cur.proc, reply s.resp, s.table s.cur.proc s.resp.val.toNat⟩)
  | .exited => s.kernel.blocked = []

structure Inv (prog : Program) (s : State) : Prop where
  books : Books prog s.kernel s.queue s.caused s.performed s.answers
  /-- A notification waits, or is seen to, or is done with. -/
  settled : ∀ n ∈ s.caused, n ∈ s.queue ∨ (s.pc.handles = true ∧ n = s.cur) ∨
    ∀ p, ¬Blocked n.req p s.kernel
  taken : s.pc.handles = true → s.cur ∈ s.caused ∧ s.cur ∉ s.queue ∧
    ∀ a ∈ s.answers, a.notif.id ≠ s.cur.id
  untouched : s.pc.early = true → ∀ m ∈ s.performed, m.notif.id ≠ s.cur.id
  stage : Stage prog s

section Steps

variable {prog : Program} {s s' : State}

theorem Starts.inv (h : Starts s) : Inv prog s where
  books := by
    rw [h.queue, h.caused, h.performed, h.answers]
    exact
      { fresh := by rw [h.blocked]; simp
        notified := by simp
        genuine := by simp
        nodup := List.nodup_nil
        queued := List.suffix_refl _
        performedOnce := List.nodup_nil
        proper := by simp
        answersOnce := List.nodup_nil
        warranted := by simp }
  settled := by rw [h.caused]; simp
  taken := by rw [h.pc]; simp [Pc.handles]
  untouched := by rw [h.pc]; simp [Pc.early]
  stage := by
    unfold Stage
    rw [h.pc]
    exact ⟨h.fds, h.frame⟩

/-- The notification that is seen to. -/
theorem Inv.notified (h : Inv prog s) (hpc : s.pc.handles = true) :
    Notified s.cur.req s.cur.proc s.kernel := h.books.notified _ (h.taken hpc).1

/-- What is known stays true while the others go on. -/
theorem Stage.later {k' : Kernel} (hk : Later s.kernel k') (hid : s.pc.handles = true →
    s.cur.id < s.kernel.nextId) (hexited : s.pc = .exited → k'.blocked = []) (h : Stage prog s) :
    Stage prog { s with kernel := k' } := by
  obtain ⟨k, queue, table, pc, cur, frame, resp, fds, caused, performed, answers⟩ := s
  have hblocked : pc.handles = true → Blocked cur.req cur.proc k' → Blocked cur.req cur.proc k :=
    fun hpc => hk.blocked _ (hid hpc) _
  unfold Stage at h ⊢
  cases pc with
  | getTargetPathname => exact ⟨h.1, h.2.mono (hblocked rfl)⟩
  | close fd remoteFd =>
    obtain ⟨hprog, hfds, hframe, hresp, hperformed, hremote, htable⟩ := h
    exact ⟨hprog, hfds, hframe, hresp, hperformed, hremote, fun hb => htable (hblocked rfl hb)⟩
  | send =>
    obtain ⟨hfds, hframe, hresp, hflags, hwarranted⟩ := h
    exact ⟨hfds, hframe, hresp, hflags, fun hb => hwarranted (hblocked rfl hb)⟩
  | exited => exact hexited rfl
  | recv => exact h
  | checkNr => exact h
  | delay => exact h
  | sleep d => exact h
  | delayAgain => exact h
  | perform => exact h
  | addfd fd => exact h
  | bye => exact h

theorem Inv.later {k' : Kernel} (h : Inv prog s) (hk : Later s.kernel k')
    (hexited : s.pc = .exited → k'.blocked = []) : Inv prog { s with kernel := k' } where
  books := h.books.later hk
  settled n hn := by
    rcases h.settled n hn with hqueue | hcur | hfree
    · exact .inl hqueue
    · exact .inr (.inl hcur)
    · exact .inr (.inr fun p hp => hfree p (hk.blocked _ (h.books.notified n hn).fresh p hp))
  taken := h.taken
  untouched := h.untouched
  stage := h.stage.later hk (fun hpc => (h.notified hpc).fresh) hexited

theorem Inv.change {c : Change} (h : Inv prog s) (hs : change c s = some s') : Inv prog s' := by
  have hexited : ∀ c : Change, (∀ pid, c ≠ .notify pid) → s.pc = .exited →
      (s.kernel.change c).blocked = [] := by
    intro c hc hpc
    have hnone : s.kernel.blocked = [] := by
      have hstage := h.stage
      unfold Stage at hstage
      rw [hpc] at hstage
      exact hstage
    cases c with
    | notify pid => exact absurd rfl (hc pid)
    | interrupt p => simp [Kernel.change, hnone]
    | exit p => simp [Kernel.change, hnone]
    | store p addr byte => exact hnone
    | fork pid =>
      rw [Kernel.change]
      split <;> exact hnone
  unfold UnotifySupervisor.change at hs
  split at hs
  · cases hs
  · rename_i c hc
    obtain rfl := Option.some.inj hs
    exact h.later (.change _ _) (hexited _ hc)

/-- The supervisor ends at any point. -/
theorem Inv.exit (h : Inv prog s) : Inv prog s.exit where
  books := h.books.later (.of_subset _ (List.nil_subset _))
  settled n hn := .inr (.inr fun p hp => by cases hp)
  taken := by simp [State.exit, Pc.handles]
  untouched := by simp [State.exit, Pc.early]
  stage := rfl

/-- A call is notified. -/
theorem Inv.syscall {pid : ℕ} {d : SeccompData} (h : Inv prog s) (hs : syscall prog pid d s = some s') :
    Inv prog s' := by
  unfold UnotifySupervisor.syscall at hs
  split at hs
  · rename_i hnotified
    obtain ⟨hpc, hdata⟩ := hnotified
    cases howner : s.kernel.owner pid with
    | none =>
      rw [howner] at hs
      cases hs
    | some p =>
      rw [howner] at hs
      simp only at hs
      split at hs
      · cases hs
      · rename_i hidle
        obtain rfl := Option.some.inj hs
        have hchange : s.kernel.change (.notify pid) =
            { s.kernel with
              blocked := (p, s.kernel.nextId) :: s.kernel.blocked, nextId := s.kernel.nextId + 1 } := by
          rw [Kernel.change, howner]
          exact if_neg hidle
        have hk : Later s.kernel (s.kernel.change (.notify pid)) := .change _ _
        have hlater := h.later hk (fun hexited => absurd hexited hpc)
        have hnew : Notified ⟨s.kernel.nextId, pid, d⟩ p (s.kernel.change (.notify pid)) := by
          rw [hchange]
          refine ⟨Nat.lt_succ_self _, fun q hq => ?_, fun _ => howner⟩
          rcases List.mem_cons.mp hq with hq | hq
          · exact congrArg Prod.fst hq
          · exact absurd (h.books.fresh _ hq) (Nat.lt_irrefl _)
        refine
          { books := h.books.notify hk rfl hnew hdata, settled := ?_, taken := ?_
            untouched := h.untouched, stage := hlater.stage }
        · intro n hn
          rcases List.mem_append.mp hn with hn | hn
          · rcases hlater.settled n hn with hqueue | hrest
            · exact .inl (List.mem_append_left _ hqueue)
            · exact .inr hrest
          · exact .inl (List.mem_append_right _ hn)
        · intro hhandles
          obtain ⟨hcaused, hqueue, hanswers⟩ := h.taken hhandles
          refine ⟨List.mem_append_left _ hcaused, fun hmem => ?_, hanswers⟩
          rcases List.mem_append.mp hmem with hmem | hmem
          · exact hqueue hmem
          · -- the ID is a new one
            have hid : s.cur.id = s.kernel.nextId :=
              congrArg Notif.id (List.mem_singleton.mp hmem)
            exact absurd hid (Nat.ne_of_lt (h.notified hhandles).fresh)
  · cases hs

/-- A process that is not blocked changes its descriptors. -/
theorem Inv.setFd {p fd : ℕ} {file : Option File} (h : Inv prog s)
    (hidle : (s.kernel.blocked.any fun b => b.1 = p) = false) :
    Inv prog { s with table := Function.update s.table p (Function.update (s.table p) fd file) } := by
  refine { h with stage := ?_ }
  have hne : ∀ req q, Blocked req q s.kernel → q ≠ p := by
    rintro req q hq rfl
    have hnot := List.any_eq_false.mp hidle _ hq
    exact hnot (decide_eq_true rfl)
  have hstage := h.stage
  unfold Stage at hstage ⊢
  obtain ⟨k, queue, table, pc, cur, frame, resp, fds, caused, performed, answers⟩ := s
  cases pc with
  | close fd remoteFd =>
    obtain ⟨hprog, hfds, hframe, hresp, hperformed, hremote, htable⟩ := hstage
    refine ⟨hprog, hfds, hframe, hresp, hperformed, hremote, fun hb => ?_⟩
    exact (congrFun (Function.update_of_ne (hne _ _ hb) _ _) _).trans (htable hb)
  | send =>
    obtain ⟨hfds, hframe, hresp, hflags, hwarranted⟩ := hstage
    refine ⟨hfds, hframe, hresp, hflags, fun hb => ?_⟩
    have htable : Function.update table p (Function.update (table p) fd file) cur.proc =
        table cur.proc := Function.update_of_ne (hne _ _ hb) _ _
    dsimp only
    rw [htable]
    exact hwarranted hb
  | recv => exact hstage
  | checkNr => exact hstage
  | delay => exact hstage
  | sleep d => exact hstage
  | delayAgain => exact hstage
  | getTargetPathname => exact hstage
  | perform => exact hstage
  | addfd fd => exact hstage
  | bye => exact hstage
  | exited => exact hstage

/-- The first notification that is still of interest is received. -/
theorem Inv.recv (h : Inv prog s) (hs : recv s = some s') : Inv prog s' := by
  obtain ⟨k, queue, table, pc, cur, frame, resp, fds, caused, performed, answers⟩ := s
  unfold UnotifySupervisor.recv at hs
  cases pc <;> simp only [reduceCtorEq] at hs
  have hdrop := List.takeWhile_append_dropWhile
    (p := fun n => !k.cookieIsValid n.id) (l := queue)
  cases hrest : queue.dropWhile fun n => !k.cookieIsValid n.id with
  | nil =>
    rw [hrest] at hs
    cases hs
  | cons n rest =>
    rw [hrest] at hs hdrop
    obtain rfl := Option.some.inj hs
    have hn : n ∈ queue := hdrop ▸ List.mem_append_right _ List.mem_cons_self
    have hcaused : n ∈ caused := h.books.queued.subset hn
    have hsuffix : rest <:+ queue := by
      rw [← hdrop]
      exact (List.suffix_cons n rest).trans (List.suffix_append _ _)
    have hnot : n ∉ rest := by
      have hnodup : ((n :: rest).map Notif.id).Nodup := by
        refine h.books.nodup.sublist (List.Sublist.map _ ?_)
        refine List.Sublist.trans ?_ h.books.queued.sublist
        rw [← hdrop]
        exact List.sublist_append_right _ _
      rw [List.map_cons, List.nodup_cons] at hnodup
      exact fun hmem => hnodup.1 (List.mem_map_of_mem hmem)
    refine
      { books := h.books.suffix hsuffix, settled := ?_, taken := fun _ => ⟨hcaused, hnot, ?_⟩
        untouched := fun _ => ?_, stage := h.stage }
    · intro n' hn'
      rcases h.settled n' hn' with hqueue | hcur | hfree
      · rw [← hdrop] at hqueue
        rcases List.mem_append.mp hqueue with hgone | hqueue
        · -- its call is no longer blocked
          refine .inr (.inr fun p hp => ?_)
          have hinvalid := List.mem_takeWhile_imp hgone
          have hvalid := (h.books.notified n' hn').cookieIsValid.mpr
            ((h.books.notified n' hn').unique p hp ▸ hp)
          rw [hvalid] at hinvalid
          cases hinvalid
        · rcases List.mem_cons.mp hqueue with rfl | hqueue
          · exact .inr (.inl ⟨rfl, rfl⟩)
          · exact .inl hqueue
      · cases hcur.1
      · exact .inr (.inr hfree)
    · intro a ha hid
      obtain ⟨hin, hout, -⟩ := h.books.warranted a ha
      exact hout (h.books.eq_of_id hin hcaused hid ▸ hn)
    · intro m hm hid
      obtain ⟨hin, hout, -⟩ := h.books.proper m hm
      exact hout (h.books.eq_of_id hin hcaused hid ▸ hn)

/-- The steps of `getTargetPathname()` itself leave everything else alone. -/
theorem kernel_of_step {req : SeccompNotif} {argNum : Fin 6} {len : ℕ} {t t' : TargetPathname.State}
    {a : TargetPathname.Act} (ha : ∀ c, a ≠ .change c)
    (ht : TargetPathname.step req argNum len t a = some t') : t'.kernel = t.kernel := by
  cases a with
  | change c => exact absurd rfl (ha c)
  | «open» fd =>
    obtain ⟨f, -, rfl⟩ := Option.map_eq_some_iff.mp ht
    rfl
  | copy =>
    obtain ⟨f, -, rfl⟩ := Option.map_eq_some_iff.mp ht
    rfl
  | preadReturns fails =>
    rw [TargetPathname.step] at ht
    split at ht
    · rw [← Option.some.inj ht]
    · cases ht
  | call =>
    obtain ⟨f, -, rfl⟩ := Option.map_eq_some_iff.mp ht
    rfl

/-- A step of `getTargetPathname()`. -/
theorem Inv.path {a : TargetPathname.Act} (h : Inv prog s) (hs : path prog a s = some s') :
    Inv prog s' := by
  obtain ⟨k, queue, table, pc, cur, frame, resp, fds, caused, performed, answers⟩ := s
  unfold UnotifySupervisor.path at hs
  split at hs
  · cases hs
  · rename_i hpc hchange
    obtain rfl : pc = .getTargetPathname := hpc
    obtain ⟨⟨k', frame'⟩, ht, rfl⟩ := Option.map_eq_some_iff.mp hs
    have hstage := h.stage
    unfold Stage at hstage
    have hinv := TargetPathname.inv_step (h.notified rfl) hstage.2 ht
    obtain rfl : k' = k := kernel_of_step (fun c hc => hchange c hc) ht
    exact { h with stage := ⟨hstage.1, hinv.2⟩ }
  · cases hs

/-- A call is made for the target. -/
theorem Inv.perform {r : Except ℕ ℕ} (h : Inv prog s) (hs : perform prog r s = some s') :
    Inv prog s' := by
  obtain ⟨k, queue, table, pc, cur, frame, resp, fds, caused, performed, answers⟩ := s
  unfold UnotifySupervisor.perform at hs
  cases pc <;> simp only [reduceCtorEq] at hs
  obtain ⟨hcaused, hqueue, hanswers⟩ := h.taken rfl
  have huntouched := h.untouched rfl
  have hstage := h.stage
  unfold Stage at hstage
  obtain ⟨hfds, hframe, hresp, hproper⟩ := hstage
  have hrecord : ∀ result, Books prog k queue caused
      (performed ++ [⟨cur, frame, prog.call cur.req frame.path, result⟩]) answers := fun result =>
    h.books.perform hcaused hqueue ⟨hproper.fetched, hproper.call, hproper.tmp⟩ huntouched hanswers
  have hmem : ∀ result, (⟨cur, frame, prog.call cur.req frame.path, result⟩ : Performed) ∈
      performed ++ [⟨cur, frame, prog.call cur.req frame.path, result⟩] := fun result =>
    List.mem_append_right _ List.mem_cons_self
  cases r with
  | error errno =>
    simp only at hs
    split at hs
    · cases hs
    · rename_i herrno
      obtain rfl := Option.some.inj hs
      refine
        { books := hrecord (.error errno), settled := h.settled, taken := fun _ => ⟨hcaused, hqueue, hanswers⟩
          untouched := by simp [Pc.early], stage := ?_ }
      refine ⟨hfds, hframe, hresp.id, fun hflags => ?_, fun _ => ?_⟩
      · exact absurd (hresp.flags.symm.trans hflags) (by decide)
      · have hreply : reply { resp with error := -(errno : ℤ) } = .returns (-errno) := by
          rw [reply, if_neg (by rw [hresp.flags]; decide), if_pos (by simpa using herrno)]
        unfold Warranted
        simp only [State.record, hreply]
        exact .inr ⟨_, hmem (.error errno), rfl, rfl, herrno, rfl⟩
  | ok fd =>
    cases prog with
    | mkdir delaySecs second =>
      obtain rfl := Option.some.inj hs
      refine
        { books := hrecord (.ok fd), settled := h.settled, taken := fun _ => ⟨hcaused, hqueue, hanswers⟩
          untouched := by simp [Pc.early], stage := ?_ }
      refine ⟨hfds, hframe, hresp.id, fun hflags => ?_, fun _ => ?_⟩
      · exact absurd (hresp.flags.symm.trans hflags) (by decide)
      · have hreply : reply { resp with error := 0, val := ((pathname frame.path).length : ℤ) } =
            .returns (pathname frame.path).length := by
          rw [reply, if_neg (by rw [hresp.flags]; decide), if_neg (by simp)]
        unfold Warranted
        simp only [State.record, hreply]
        exact .inr ⟨_, hmem (.ok fd), rfl, rfl, rfl⟩
    | «openat» =>
      simp only at hs
      split at hs
      · cases hs
      · obtain rfl := Option.some.inj hs
        exact
          { books := hrecord (.ok fd), settled := h.settled
            taken := fun _ => ⟨hcaused, hqueue, hanswers⟩, untouched := by simp [Pc.early]
            stage := ⟨rfl, congrArg (_ :: ·) hfds, hframe, hresp, hmem (.ok fd)⟩ }

/-- The process that is found by the ID is the one that has caused the notification. -/
theorem Inv.find_proc (h : Inv prog s) (hpc : s.pc.handles = true) {b : ℕ × ℕ}
    (hfind : (s.kernel.blocked.find? fun b => b.2 = s.cur.id) = some b) :
    b.1 = s.cur.proc ∧ Blocked s.cur.req s.cur.proc s.kernel := by
  have hmem := List.mem_of_find?_eq_some hfind
  have hid : b.2 = s.cur.id := by simpa using List.find?_some hfind
  have hblocked : Blocked s.cur.req b.1 s.kernel := by
    obtain ⟨q, id⟩ := b
    obtain rfl : id = s.cur.id := hid
    exact hmem
  have hproc := (h.notified hpc).unique _ hblocked
  exact ⟨hproc, hproc ▸ hblocked⟩

/-- The descriptor is handed over. -/
theorem Inv.addfd {fails : Bool} (h : Inv prog s) (hs : addfd fails s = some s') : Inv prog s' := by
  have hexit := h.exit
  have hproc := @Inv.find_proc _ _ h
  obtain ⟨k, queue, table, pc, cur, frame, resp, fds, caused, performed, answers⟩ := s
  unfold UnotifySupervisor.addfd at hs
  cases pc <;> simp only [reduceCtorEq] at hs
  rename_i fd
  have hstage := h.stage
  unfold Stage at hstage
  obtain ⟨hprog, hfds, hframe, hresp, hperformed⟩ := hstage
  split at hs
  · rename_i p id fd' file hfind hfile
    obtain ⟨rfl, -⟩ := hproc rfl hfind
    split at hs
    · obtain rfl := Option.some.inj hs
      exact hexit
    · obtain rfl := Option.some.inj hs
      have hopened : file = .openedFor cur.id := by
        simp only at hfds
        rw [hfds, List.find?_cons_of_pos (by simp)] at hfile
        exact (congrArg Prod.snd (Option.some.inj hfile)).symm
      refine
        { books := h.books, settled := h.settled, taken := h.taken, untouched := by simp [Pc.early]
          stage := ⟨hprog, hfds, hframe, hresp, hperformed, rfl, fun _ => ?_⟩ }
      simp only [Function.update_self, hopened]
  · obtain rfl := Option.some.inj hs
    exact hexit

/-- `getTargetPathname()` is called. -/
theorem Inv.enter (h : Inv prog s) (hpc : s.pc = .checkNr ∨ s.pc = .delayAgain) : Inv prog s.enter := by
  have hhandles : s.pc.handles = true := by rcases hpc with hpc | hpc <;> rw [hpc] <;> rfl
  have hearly : s.pc.early = true := by rcases hpc with hpc | hpc <;> rw [hpc] <;> rfl
  have hstage : s.fds = [] ∧ s.frame.fds = [] := by
    have hstage := h.stage
    unfold Stage at hstage
    rcases hpc with hpc | hpc <;> rw [hpc] at hstage <;> exact hstage
  refine
    { books := h.books, settled := fun n hn => ?_, taken := fun _ => h.taken hhandles
      untouched := fun _ => h.untouched hearly, stage := ⟨hstage.1, hstage.2, rfl⟩ }
  rcases h.settled n hn with hqueue | hcur | hfree
  · exact .inl hqueue
  · exact .inr (.inl ⟨rfl, hcur.2⟩)
  · exact .inr (.inr hfree)

/-- The call is refused, and nothing has been done for it. -/
theorem warranted_of_refused {performed : List Performed} {cur : Notif} {frame : Frame} {error : ℤ}
    {file : Option File} (herror : error ≠ 0) (hrefused : Refused prog cur frame error)
    (hnone : ∀ m ∈ performed, m.notif.id ≠ cur.id) :
    Warranted prog performed ⟨cur, frame, cur.proc, reply ⟨cur.id, 0, error, 0⟩, file⟩ := by
  have hreply : reply ⟨cur.id, 0, error, 0⟩ = .returns error := by
    rw [reply, if_neg Nat.zero_ne_one, if_pos herror]
  unfold Warranted
  simp only [hreply]
  exact .inl ⟨hrefused, hnone⟩

/-- The pathname is looked at. -/
theorem Inv.consider {r : ℤ} (h : Inv prog s) (hpc : s.pc = .getTargetPathname)
    (hr : s.frame.pc = .returned r) : Inv prog (s.consider prog r) := by
  obtain ⟨k, queue, table, pc, cur, frame, resp, fds, caused, performed, answers⟩ := s
  obtain rfl : pc = .getTargetPathname := hpc
  have hstage := h.stage
  unfold Stage At at hstage
  dsimp only at hstage hr
  rw [hr] at hstage
  obtain ⟨hfds, hframe, hfetched⟩ := hstage
  have huntouched := h.untouched rfl
  -- an error of the supervisor's own
  have hrefuse : ∀ error : ℤ, error ≠ 0 → Refused prog cur frame error → Inv prog
      ⟨k, queue, table, .send, cur, frame, ⟨cur.id, 0, error, 0⟩, fds, caused, performed, answers⟩ := by
    intro error herror hrefused
    exact
      { books := h.books, settled := h.settled, taken := h.taken, untouched := by simp [Pc.early]
        stage := ⟨hfds, hframe, rfl, fun hflags => absurd hflags Nat.zero_ne_one,
          fun _ => warranted_of_refused herror hrefused huntouched⟩ }
  unfold State.consider
  dsimp only
  split
  · rename_i hstatus
    exact hrefuse _ (by decide) (.inl ⟨rfl, r, hstatus, hr⟩)
  · rename_i hzero
    have hfetched := hfetched (not_not.mp hzero)
    cases prog with
    | mkdir delaySecs second =>
      dsimp only
      split
      · rename_i htmp
        exact
          { books := h.books, settled := h.settled, taken := h.taken, untouched := fun _ => huntouched
            stage := ⟨hfds, hframe, ⟨rfl, rfl⟩, ⟨hfetched, rfl, fun _ _ _ => htmp⟩⟩ }
      · rename_i htmp
        split
        · rename_i hdot
          refine
            { books := h.books, settled := h.settled, taken := h.taken, untouched := by simp [Pc.early]
              stage := ⟨hfds, hframe, rfl, fun _ => ⟨rfl, rfl⟩, fun _ => ?_⟩ }
          exact ⟨⟨delaySecs, second, rfl⟩, hfetched, hdot, huntouched⟩
        · rename_i hdot
          exact hrefuse _ (by decide) (.inr ⟨rfl, ⟨delaySecs, second, rfl⟩, hfetched,
            (Bool.not_eq_true _).mp htmp, (Bool.not_eq_true _).mp hdot⟩)
    | «openat» =>
      exact
        { books := h.books, settled := h.settled, taken := h.taken, untouched := fun _ => huntouched
          stage := ⟨hfds, hframe, ⟨rfl, rfl⟩, ⟨hfetched, rfl, by simp⟩⟩ }

/-- The call of the notification is no longer blocked, and the supervisor goes on. -/
theorem Inv.of_answered {k' : Kernel} {answers : List Answer} {pc : Pc} (h : Inv prog s)
    (hpc : s.pc = .send) (hpc' : pc = .bye ∨ pc = .recv)
    (hbooks : Books prog k' s.queue s.caused s.performed answers) (hk : Later s.kernel k')
    (hfree : ∀ p, ¬Blocked s.cur.req p k') :
    Inv prog { s with pc := pc, kernel := k', answers := answers } := by
  have hstage := h.stage
  unfold Stage at hstage
  rw [hpc] at hstage
  obtain ⟨hfds, hframe, -⟩ := hstage
  refine { books := hbooks, settled := fun n hn => ?_, taken := ?_, untouched := ?_, stage := ?_ }
  · rcases h.settled n hn with hqueue | ⟨-, rfl⟩ | hdone
    · exact .inl hqueue
    · exact .inr (.inr hfree)
    · exact .inr (.inr fun p hp => hdone p (hk.blocked _ (h.books.notified n hn).fresh p hp))
  · rcases hpc' with rfl | rfl <;> simp [Pc.handles]
  · rcases hpc' with rfl | rfl <;> simp [Pc.early]
  · rcases hpc' with rfl | rfl
    · exact ⟨hfds, hframe⟩
    · exact ⟨hfds, hframe⟩

theorem answered_cases (prog : Program) : prog.answered = .bye ∨ prog.answered = .recv := by
  cases prog with
  | mkdir delaySecs second => exact .inl rfl
  | «openat» => exact .inr rfl

/-- The answer is accepted, or the call was given up before. -/
theorem Inv.send (h : Inv prog s) (hpc : s.pc = .send) : Inv prog (send prog s) := by
  have hhandles : s.pc.handles = true := by rw [hpc]; rfl
  have hstage := h.stage
  unfold Stage at hstage
  rw [hpc] at hstage
  obtain ⟨hfds, hframe, hid, hflags, hwarranted⟩ := hstage
  unfold UnotifySupervisor.send
  rw [hid]
  split
  · rename_i hfind
    refine h.of_answered hpc (answered_cases prog) h.books (.of_subset _ (List.Subset.refl _)) ?_
    exact fun p hp => List.find?_eq_none.mp hfind _ hp (decide_eq_true rfl)
  · rename_i p id hfind
    obtain ⟨hproc, hblocked⟩ := h.find_proc hhandles hfind
    obtain rfl : p = s.cur.proc := hproc
    rw [if_neg fun hbad => by
      obtain ⟨herror, hval⟩ := hflags hbad.1
      rcases hbad.2 with hne | hne
      · exact hne herror
      · exact hne hval]
    have hsub : (s.kernel.blocked.filter fun b => b.2 ≠ s.cur.id) ⊆ s.kernel.blocked :=
      List.filter_subset_self _
    have hk : Later s.kernel
        { s.kernel with blocked := s.kernel.blocked.filter fun b => b.2 ≠ s.cur.id } := .of_subset _ hsub
    have hfree : ∀ p, ¬Blocked s.cur.req p
        { s.kernel with blocked := s.kernel.blocked.filter fun b => b.2 ≠ s.cur.id } := by
      intro p hp
      have hne := (List.mem_filter.mp hp).2
      exact absurd rfl (of_decide_eq_true hne)
    obtain ⟨hcaused, hqueue, hanswers⟩ := h.taken hhandles
    refine h.of_answered hpc (answered_cases prog) ?_ hk hfree
    exact (h.books.later hk).answer hcaused hqueue rfl hfree (hwarranted hblocked) hanswers

/-- Before the pathname is fetched. -/
def Pc.waits : Pc → Bool
  | .checkNr | .delay | .sleep _ | .delayAgain => true
  | _ => false

theorem Inv.waits (h : Inv prog s) (hpc : s.pc.waits = true) :
    s.pc.handles = true ∧ s.pc.early = true ∧ s.fds = [] ∧ s.frame.fds = [] := by
  have hstage := h.stage
  unfold Stage at hstage
  cases hs : s.pc with
  | checkNr | delay | delayAgain =>
    rw [hs] at hstage
    exact ⟨rfl, rfl, hstage⟩
  | sleep d =>
    rw [hs] at hstage
    exact ⟨rfl, rfl, hstage.1, hstage.2.1⟩
  | _ =>
    rw [hs] at hpc
    exact nomatch hpc

/-- The number of the call is the right one, and the delay begins, goes on, or is over. -/
theorem Inv.goes_on {pc : Pc} (h : Inv prog s) (hpc : s.pc.waits = true) (hpc' : pc.waits = true)
    (hsleep : ∀ d, pc = .sleep d → d ≤ prog.delaySecs) : Inv prog { s with pc := pc } := by
  obtain ⟨hhandles, hearly, hfds, hframe⟩ := h.waits hpc
  have hhandles' : pc.handles = true := by
    cases pc with
    | checkNr | delay | sleep | delayAgain => rfl
    | _ => exact nomatch hpc'
  refine
    { books := h.books, settled := fun n hn => ?_, taken := fun _ => h.taken hhandles
      untouched := fun _ => h.untouched hearly, stage := ?_ }
  · rcases h.settled n hn with hqueue | hcur | hfree
    · exact .inl hqueue
    · exact .inr (.inl ⟨hhandles', hcur.2⟩)
    · exact .inr (.inr hfree)
  · unfold Stage
    cases pc with
    | checkNr => exact ⟨hfds, hframe⟩
    | delay => exact ⟨hfds, hframe⟩
    | delayAgain => exact ⟨hfds, hframe⟩
    | sleep d => exact ⟨hfds, hframe, hsleep d rfl⟩
    | _ => exact nomatch hpc'

/-- The supervisor's own descriptor is closed: the target has its one. -/
theorem Inv.close {fd remoteFd : ℕ} (h : Inv prog s) (hpc : s.pc = .close fd remoteFd) :
    Inv prog { s with
      pc := .send, fds := s.fds.filter fun f => f.1 ≠ fd
      resp := { s.resp with error := 0, val := remoteFd } } := by
  have hhandles : s.pc.handles = true := by rw [hpc]; rfl
  have hstage := h.stage
  unfold Stage at hstage
  rw [hpc] at hstage
  obtain ⟨rfl, hfds, hframe, hresp, hperformed, rfl, htable⟩ := hstage
  refine
    { books := h.books, settled := fun n hn => ?_, taken := fun _ => h.taken hhandles
      untouched := by simp [Pc.early], stage := ?_ }
  · rcases h.settled n hn with hqueue | hcur | hfree
    · exact .inl hqueue
    · exact .inr (.inl ⟨rfl, hcur.2⟩)
    · exact .inr (.inr hfree)
  · refine ⟨by simp [hfds], hframe, hresp.id, fun hflags => ?_, fun hblocked => ?_⟩
    · exact absurd (hresp.flags.symm.trans hflags) (by decide)
    · have hreply : reply { s.resp with error := 0, val := ((42 + fd : ℕ) : ℤ) } =
          .returns ((42 + fd : ℕ) : ℤ) := by
        rw [reply, if_neg (by rw [hresp.flags]; decide), if_neg (by simp)]
      unfold Warranted
      simp only [hreply]
      exact .inr ⟨_, hperformed, rfl, rfl, rfl, htable hblocked⟩

/-- The calls of which the outcome is not a matter of choice. -/
theorem Inv.call (h : Inv prog s) (hs : call prog s = some s') : Inv prog s' := by
  have hexit := h.exit
  have henter := @Inv.enter prog s h
  have hsend := @Inv.send prog s h
  have hclose := @Inv.close prog s
  unfold UnotifySupervisor.call at hs
  split at hs
  · rename_i hpc
    split at hs
    · exact Option.some.inj hs ▸ hexit
    · split at hs
      · exact Option.some.inj hs ▸ h.goes_on (by rw [hpc]; rfl) rfl nofun
      · exact Option.some.inj hs ▸ henter (.inl hpc)
  · rename_i hpc
    split at hs
    · refine Option.some.inj hs ▸ h.goes_on (by rw [hpc]; rfl) rfl fun d hd => ?_
      rw [Pc.sleep.inj hd]
    · exact Option.some.inj hs ▸ hexit
  · rename_i d hpc
    have hstage := h.stage
    unfold Stage at hstage
    rw [hpc] at hstage
    refine Option.some.inj hs ▸ h.goes_on (by rw [hpc]; rfl) (by split <;> rfl) fun d' hd => ?_
    split at hd
    · rw [← Pc.sleep.inj hd]
      exact (Nat.sub_le _ _).trans hstage.2.2
    · exact nomatch hd
  · rename_i hpc
    split at hs
    · exact Option.some.inj hs ▸ henter (.inr hpc)
    · exact Option.some.inj hs ▸ hexit
  · rename_i hpc
    split at hs
    · rename_i r hr
      exact Option.some.inj hs ▸ h.consider hpc hr
    · cases hs
  · rename_i hpc
    exact Option.some.inj hs ▸ hclose h hpc
  · rename_i hpc
    exact Option.some.inj hs ▸ hsend hpc
  · rename_i hpc
    split at hs
    · exact Option.some.inj hs ▸ hexit
    · obtain rfl := Option.some.inj hs
      have hstage := h.stage
      unfold Stage at hstage
      rw [hpc] at hstage
      refine
        { books := h.books, settled := fun n hn => ?_, taken := by simp [Pc.handles]
          untouched := by simp [Pc.early], stage := hstage }
      rcases h.settled n hn with hqueue | hcur | hfree
      · exact .inl hqueue
      · rw [hpc] at hcur
        cases hcur.1
      · exact .inr (.inr hfree)
  · cases hs

theorem Inv.step {a : Act} (h : Inv prog s) (hs : step prog s a = some s') : Inv prog s' := by
  cases a with
  | change c => exact h.change hs
  | syscall pid d => exact h.syscall hs
  | setFd p fd file =>
    rw [UnotifySupervisor.step] at hs
    split at hs
    · cases hs
    · rename_i hidle
      exact Option.some.inj hs ▸ h.setFd (Bool.not_eq_true _ ▸ hidle)
  | recv => exact h.recv hs
  | recvFails eintr =>
    rw [UnotifySupervisor.step] at hs
    split at hs
    · split at hs
      · exact Option.some.inj hs ▸ h
      · exact Option.some.inj hs ▸ h.exit
    · cases hs
  | path a => exact h.path hs
  | perform r => exact h.perform hs
  | addfd fails => exact h.addfd hs
  | call => exact h.call hs
  | sigchld =>
    rw [UnotifySupervisor.step] at hs
    split at hs
    · cases hs
    · exact Option.some.inj hs ▸ h.exit

end Steps

theorem inv_of_reachable {prog : Program} {s : State} (h : Reachable (handleNotifications prog) s) :
    Inv prog s :=
  Reaches.invariant (I := Inv prog) (fun _ hs => Starts.inv hs) (fun _ _ _ hi _ hs => hi.step hs) h

/-! ## 5. The calls for one notification -/

/-- A call of the supervisor's while it sees to a notification. -/
def Act.own : Act → Bool
  | .path _ | .perform _ | .addfd _ | .call => true
  | _ => false

/-- The next notification is received. -/
def Act.receives : Act → Bool
  | .recv => true
  | _ => false

/-- How many calls of `getTargetPathname()` may follow, the bytes of `pread()` one by one. -/
def fetchBudget : TargetPathname.Pc → ℕ
  | .open => PATH_MAX + 7
  | .check _ => PATH_MAX + 6
  | .closeInvalid _ => 1
  | .pread _ n => PATH_MAX - n + 5
  | .close _ _ => 4
  | .checkAgain _ => 3
  | .strnlen _ => 2
  | .returned _ => 0

/-- How many calls of the supervisor may follow. -/
def State.budget (prog : Program) (s : State) : ℕ :=
  match s.pc with
  | .recv | .exited => 0
  | .bye => 1
  | .send => 2
  | .close _ _ => 3
  | .addfd _ => 4
  | .perform => 5
  | .getTargetPathname => fetchBudget s.frame.pc + 6
  | .delayAgain => PATH_MAX + 14
  | .sleep d => PATH_MAX + 15 + d
  | .delay => PATH_MAX + 16 + prog.delaySecs
  | .checkNr => PATH_MAX + 17 + prog.delaySecs

section Progress

variable {prog : Program} {s s' : State}

/-- Each step of `getTargetPathname()` is one of those that may follow. -/
theorem fetchBudget_step {req : SeccompNotif} {argNum : Fin 6} {t t' : TargetPathname.State}
    {a : TargetPathname.Act} (ha : ∀ c, a ≠ .change c)
    (ht : TargetPathname.step req argNum PATH_MAX t a = some t') :
    fetchBudget t'.frame.pc < fetchBudget t.frame.pc := by
  obtain ⟨k, fds, path, pc, accesses⟩ := t
  cases a with
  | change c => exact absurd rfl (ha c)
  | «open» fd =>
    obtain ⟨f, hf, rfl⟩ := Option.map_eq_some_iff.mp ht
    unfold TargetPathname.openMem at hf
    cases pc <;> simp only [reduceCtorEq] at hf
    cases fd with
    | none =>
      obtain rfl := Option.some.inj hf
      simp [fetchBudget]
    | some fd =>
      simp only at hf
      split at hf
      · cases hf
      · split at hf
        · cases hf
        · obtain rfl := Option.some.inj hf
          simp [fetchBudget]
  | copy =>
    obtain ⟨f, hf, rfl⟩ := Option.map_eq_some_iff.mp ht
    unfold TargetPathname.copy at hf
    cases pc <;> simp only [reduceCtorEq] at hf
    split at hf
    · cases hf
    · split at hf
      · cases hf
      · split at hf
        · obtain rfl := Option.some.inj hf
          simp only [fetchBudget]
          omega
        · cases hf
  | preadReturns fails =>
    cases pc <;> simp only [TargetPathname.step, reduceCtorEq] at ht
    obtain rfl := Option.some.inj ht
    simp only [fetchBudget]
    omega
  | call =>
    obtain ⟨f, hf, rfl⟩ := Option.map_eq_some_iff.mp ht
    unfold TargetPathname.call at hf
    cases pc <;> simp only [reduceCtorEq] at hf
    · split at hf
      · obtain rfl := Option.some.inj hf
        simp [fetchBudget]
      · obtain rfl := Option.some.inj hf
        simp [fetchBudget]
    · obtain rfl := Option.some.inj hf
      simp [fetchBudget]
    · obtain rfl := Option.some.inj hf
      dsimp only
      split
      · simp [fetchBudget]
      · simp [fetchBudget]
    · obtain rfl := Option.some.inj hf
      dsimp only
      split
      · simp [fetchBudget]
      · simp [fetchBudget]
    · obtain rfl := Option.some.inj hf
      simp [fetchBudget]

/-- Each call is one of those that may follow. -/
theorem budget_step {a : Act} (ha : a.own = true) (hs : step prog s a = some s') :
    s'.budget prog < s.budget prog := by
  obtain ⟨k, queue, table, pc, cur, frame, resp, fds, caused, performed, answers⟩ := s
  cases a <;> simp only [Act.own, Bool.false_eq_true] at ha
  case path a =>
    rw [step] at hs
    unfold path at hs
    split at hs
    · cases hs
    · rename_i hpc hchange
      obtain rfl : pc = .getTargetPathname := hpc
      obtain ⟨t, ht, rfl⟩ := Option.map_eq_some_iff.mp hs
      have hlt := fetchBudget_step (fun c hc => hchange c hc) ht
      exact Nat.add_lt_add_right hlt 6
    · cases hs
  case perform r =>
    rw [step] at hs
    unfold perform at hs
    cases pc <;> simp only [reduceCtorEq] at hs
    cases r with
    | error errno =>
      simp only at hs
      split at hs
      · cases hs
      · obtain rfl := Option.some.inj hs
        simp [State.budget]
    | ok fd =>
      cases prog with
      | mkdir delaySecs second =>
        obtain rfl := Option.some.inj hs
        simp [State.budget]
      | «openat» =>
        simp only at hs
        split at hs
        · cases hs
        · obtain rfl := Option.some.inj hs
          simp [State.budget]
  case addfd fails =>
    rw [step] at hs
    unfold addfd at hs
    cases pc <;> simp only [reduceCtorEq] at hs
    split at hs
    · split at hs
      · obtain rfl := Option.some.inj hs
        simp [State.budget, State.exit]
      · obtain rfl := Option.some.inj hs
        simp [State.budget]
    · obtain rfl := Option.some.inj hs
      simp [State.budget, State.exit]
  case call =>
    rw [step] at hs
    unfold call at hs
    cases pc <;> simp only [reduceCtorEq] at hs
    case checkNr =>
      split at hs
      · obtain rfl := Option.some.inj hs
        simp [State.budget, State.exit]
      · split at hs
        · obtain rfl := Option.some.inj hs
          simp [State.budget]
        · obtain rfl := Option.some.inj hs
          simp only [State.budget, State.enter, fetchBudget]
          omega
    case delay =>
      split at hs
      · obtain rfl := Option.some.inj hs
        simp [State.budget]
      · obtain rfl := Option.some.inj hs
        simp [State.budget, State.exit]
    case sleep d =>
      obtain rfl := Option.some.inj hs
      by_cases hd : 1 < d
      · simp only [hd, if_true, State.budget]
        omega
      · simp only [hd, if_false, State.budget]
        omega
    case delayAgain =>
      split at hs
      · obtain rfl := Option.some.inj hs
        simp [State.budget, State.enter, fetchBudget]
      · obtain rfl := Option.some.inj hs
        simp [State.budget, State.exit]
    case getTargetPathname =>
      split at hs
      · obtain rfl := Option.some.inj hs
        have hle : ((⟨k, queue, table, .getTargetPathname, cur, frame, resp, fds, caused, performed,
            answers⟩ : State).consider prog ‹_›).budget prog ≤ 5 := by
          unfold State.consider
          dsimp only
          split
          · simp [State.budget]
          · cases prog with
            | mkdir delaySecs second =>
              dsimp only
              split
              · simp [State.budget]
              · split
                · simp [State.budget]
                · simp [State.budget]
            | «openat» => simp [State.budget]
        refine Nat.lt_of_le_of_lt hle ?_
        simp only [State.budget]
        omega
      · cases hs
    case close fd remoteFd =>
      obtain rfl := Option.some.inj hs
      simp [State.budget]
    case send =>
      obtain rfl := Option.some.inj hs
      have hanswered : ∀ s : State, s.pc = prog.answered → s.budget prog < 2 := by
        intro s hpc
        rcases answered_cases prog with hans | hans
        · simp [State.budget, hpc, hans]
        · simp [State.budget, hpc, hans]
      unfold send
      split
      · exact hanswered _ rfl
      · split
        · exact hanswered _ rfl
        · exact hanswered _ rfl
    case bye =>
      split at hs
      · obtain rfl := Option.some.inj hs
        simp [State.budget, State.exit]
      · obtain rfl := Option.some.inj hs
        simp [State.budget]

theorem fetchBudget_le (pc : TargetPathname.Pc) : fetchBudget pc ≤ 4103 := by
  cases pc <;> simp only [fetchBudget, PATH_MAX] <;> omega

theorem Inv.budget_le (h : Inv prog s) : s.budget prog ≤ prog.delaySecs + 4113 := by
  have hfetch := fetchBudget_le s.frame.pc
  have hstage := h.stage
  unfold Stage at hstage
  unfold State.budget
  cases hpc : s.pc <;> rw [hpc] at hstage <;> simp only [PATH_MAX] <;> omega

/-- There is always a next call, until the notification is seen to. -/
theorem not_stuck (hpc : s.pc ≠ .recv) (hpc' : s.pc ≠ .exited) :
    ∃ a : Act, a.own = true ∧ (step prog s a).isSome = true := by
  obtain ⟨k, queue, table, pc, cur, frame, resp, fds, caused, performed, answers⟩ := s
  cases pc with
  | recv => exact absurd rfl hpc
  | exited => exact absurd rfl hpc'
  | checkNr =>
    refine ⟨.call, rfl, ?_⟩
    simp only [step, call]
    split
    · rfl
    · split <;> rfl
  | delay =>
    refine ⟨.call, rfl, ?_⟩
    simp only [step, call]
    split <;> rfl
  | sleep d => exact ⟨.call, rfl, rfl⟩
  | delayAgain =>
    refine ⟨.call, rfl, ?_⟩
    simp only [step, call]
    split <;> rfl
  | getTargetPathname =>
    obtain ⟨mems, buffer, fpc, accesses⟩ := frame
    cases fpc with
    | «open» => exact ⟨.path (.open none), rfl, rfl⟩
    | check fd =>
      refine ⟨.path .call, rfl, ?_⟩
      simp only [step, path, TargetPathname.step, TargetPathname.call]
      split <;> rfl
    | closeInvalid fd => exact ⟨.path .call, rfl, rfl⟩
    | pread fd n => exact ⟨.path (.preadReturns false), rfl, rfl⟩
    | close fd nread => exact ⟨.path .call, rfl, rfl⟩
    | checkAgain nread => exact ⟨.path .call, rfl, rfl⟩
    | strnlen nread => exact ⟨.path .call, rfl, rfl⟩
    | returned r => exact ⟨.call, rfl, rfl⟩
  | perform => exact ⟨.perform (.error 1), rfl, rfl⟩
  | addfd fd =>
    refine ⟨.addfd false, rfl, ?_⟩
    simp only [step, addfd]
    split
    · rfl
    · rfl
  | close fd remoteFd => exact ⟨.call, rfl, rfl⟩
  | send => exact ⟨.call, rfl, rfl⟩
  | bye =>
    refine ⟨.call, rfl, ?_⟩
    simp only [step, call]
    split <;> rfl

end Progress

/-! ## 6. The results -/

/-- **The supervisor does nothing that was not asked for**: each call that it makes, one for a
notification at most, is a call that was notified, with the arguments of that call, for the pathname that
the target's memory held while it was blocked in it; and of `mkdir()` only one below `/tmp`. With a second
filter that returns an error, nothing is asked. -/
theorem performed_proper (prog : Program) (s : State) (h : Reachable (handleNotifications prog) s) :
    (s.performed.map fun m => m.notif.id).Nodup ∧
      ∀ m ∈ s.performed, m.notif ∈ s.caused ∧ m.notif.req.data.arch = AUDIT_ARCH_X86_64 ∧
        m.notif.req.data.nr = prog.nr ∧ (∀ delaySecs, prog ≠ .mkdir delaySecs (some .e)) ∧ Proper prog m := by
  have hinv := inv_of_reachable h
  refine ⟨hinv.books.performedOnce, fun m hm => ?_⟩
  obtain ⟨hcaused, -, hproper⟩ := hinv.books.proper m hm
  obtain ⟨harch, hnr, hnot⟩ := (notifies_iff prog _).mp (hinv.books.genuine _ hcaused)
  exact ⟨hcaused, harch, hnr, hnot, hproper⟩

/-- The process 7 makes the directory `/tmp/x`, or opens it. -/
def tmpX : State where
  kernel :=
    { owner := fun pid => if pid = 5 then some 7 else none
      mem := fun _ addr => ([0x2f, 0x74, 0x6d, 0x70, 0x2f, 0x78, 0] : List UInt8)[addr - 100]?
      blocked := []
      nextProc := 8
      nextId := 10 }
  queue := []
  table := fun _ _ => none
  pc := .recv
  cur := ⟨⟨0, 0, ⟨0, 0, 0, fun _ => 0⟩⟩, 0⟩
  frame := { fds := [], path := fun _ => 0xff, pc := .open, accesses := [] }
  resp := ⟨0, 0, 0, 0⟩
  fds := []
  caused := []
  performed := []
  answers := []

theorem tmpX_starts : Starts tmpX := ⟨rfl, rfl, rfl, rfl, rfl, rfl, rfl, rfl⟩

/-- The pathname is fetched and looked at. -/
def fetches : List Act :=
  [.path (.open (some 3)), .path .call] ++ List.replicate 7 (.path .copy) ++
    [.path (.preadReturns false), .path .call, .path .call, .path .call, .call]

/-- The directory is made while another process begins, and the target is told so. -/
def makesTmpX : List Act :=
  [.syscall 5 ⟨83, AUDIT_ARCH_X86_64, 0, ![100, 0x1c0, 0, 0, 0, 0]⟩, .recv] ++ List.replicate 5 .call ++ fetches ++
    [.change (.fork 6), .perform (.ok 0), .call, .call]

theorem performed_proper_mkdir : ∃ s, Reachable (handleNotifications (.mkdir 2 (some .t))) s ∧
    s.performed.map Performed.call = [.mkdir (bytes "/tmp/x") 0x1c0] ∧
    ∀ m ∈ s.performed, m.notif.req.data.nr = 83 ∧ Proper (.mkdir 2 (some .t)) m := by
  obtain ⟨s, hs, hcalls⟩ : ∃ s,
      (handleNotifications (.mkdir 2 (some .t))).run tmpX makesTmpX = some s ∧
        s.performed.map Performed.call = [.mkdir (bytes "/tmp/x") 0x1c0] := ⟨_, rfl, rfl⟩
  have hreach := System.reachable_of_run _ (.init tmpX_starts) hs
  refine ⟨s, hreach, hcalls, fun m hm => ?_⟩
  obtain ⟨-, -, hnr, -, hproper⟩ := (performed_proper _ s hreach).2 m hm
  exact ⟨hnr, hproper⟩

end Tlpi.UnotifySupervisor
