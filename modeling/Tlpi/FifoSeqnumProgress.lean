/-
`pipes/fifo_seqnum_server.c` and `pipes/fifo_seqnum_client.c`: when no call fails and nobody is
killed, every client gets its number.

The two sides meet in the `open()` of a client's FIFO, where each waits for the other, and the
server waits there with all other requests behind it. `LiveAt` says what one client and its FIFO
look like, from where the client stands and whether the server is past it, with it or before it;
a step changes that of one client only. A server that waits, waits for a client that is about to
open its FIFO, and a client that waits is behind a server that can go on (`not_stuck`). Every
step uses up some of a budget of fifteen calls a client (`budget_step`).
-/
import Mathlib.Algebra.BigOperators.Group.Finset.Basic
import Mathlib.Algebra.Order.BigOperators.Group.Finset
import Tlpi.FifoSeqnum
import Tlpi.Parties

set_option autoImplicit false

namespace Tlpi.FifoSeqnum

open Tlpi.CString Tlpi.Transition

/-- No call fails and no client is killed. -/
def NoFault (_ : State) : Act → Prop
  | .server | .client _ => True
  | .serverFails | .clientFails _ | .killed _ => False

instance (s : State) (a : Act) : Decidable (NoFault s a) := by
  cases a <;> unfold NoFault <;> infer_instance

/-! ## One client -/

/-- The FIFO has been made. -/
def ClientPc.made : ClientPc → Bool
  | .getInt | .openServer | .write | .openFifo | .opening | .read => true
  | _ => false

/-- The FIFO is open, or about to be. -/
def ClientPc.reading : ClientPc → Bool
  | .opening | .read => true
  | _ => false

/-- The FIFO was opened. -/
def ClientPc.opened : ClientPc → Bool
  | .opening | .read | .done _ => true
  | _ => false

/-- The server has the FIFO of `p` open, or is about to. -/
def ServerPc.opens (p : Pid) : ServerPc → Prop
  | .opening req | .write req | .close req => req.pid = p
  | .read | .open _ => False

/-- One client and its FIFO: `member` is whether it runs at all, `ordered`, `served` and `opens`
say how far the server is with it. -/
structure LiveAt (member ordered served opens : Prop) (pc : ClientPc) (f : Fifo) : Prop where
  alive : member → pc ≠ .absent ∧ pc ≠ .failed
  idle : ¬member → pc = .absent
  ordered : pc.sent → ordered
  linked : pc.made → f.linked
  reader : f.reader = pc.reading
  writer : f.writer ↔ opens
  met : f.met ↔ pc.opened ∧ (served ∨ opens)
  read : pc = .read → f.met
  opened : served → pc.opened
  data : served → (∃ v, pc = .done v) ∨ f.data ≠ []

structure Live (pids : Finset Pid) (s : State) (queue : List Pid) : Prop where
  at_ : ∀ p, LiveAt (p ∈ pids) (p ∈ s.order queue) (p ∈ s.served) (s.sv.opens p) (s.clients p)
    (s.fifo p)
  write : ∀ req, s.sv = .write req → (s.fifo req.pid).met
  close : ∀ req, s.sv = .close req → req.pid ∈ s.served

theorem LiveAt.congr {member ordered ordered' served served' opens opens' : Prop} {pc : ClientPc}
    {f : Fifo} (h : LiveAt member ordered served opens pc f) (hordered : ordered → ordered')
    (hserved : served' ↔ served) (hopens : opens' ↔ opens) :
    LiveAt member ordered' served' opens' pc f := by
  rw [hserved, hopens]
  exact ⟨h.alive, h.idle, fun hs => hordered (h.ordered hs), h.linked, h.reader, h.writer, h.met,
    h.read, h.opened, h.data⟩

theorem Starts.live {pids : Finset Pid} {s : State} (h : Starts pids s) : Live pids s [] := by
  refine ⟨fun p => ?_, fun req hreq => ?_, fun req hreq => ?_⟩
  · obtain ⟨linked, hf⟩ := h.fifos (clientFifo p)
    have hfifo : s.fifo p = ⟨linked, false, false, false, []⟩ := hf
    rw [h.clients p, hfifo, h.sv, h.served]
    by_cases hp : p ∈ pids <;> constructor <;>
      simp [hp, ClientPc.sent, ClientPc.made, ClientPc.reading, ClientPc.opened, ServerPc.opens]
  · rw [h.sv] at hreq
    cases hreq
  · rw [h.sv] at hreq
    cases hreq

section Client

variable {member ordered served opens : Prop} {f : Fifo}

/-- What `LiveAt` says by computation on where the client stands. -/
theorem LiveAt.mkfifo (h : LiveAt member ordered served opens .mkfifo f) :
    LiveAt member ordered served opens .getInt { f with linked := true } :=
  ⟨fun _ => ⟨nofun, nofun⟩, fun hm => absurd (h.idle hm) nofun, nofun, fun _ => rfl, h.reader, h.writer,
    h.met, nofun, h.opened, fun hs => absurd (h.opened hs) nofun⟩

/-- Between the making of the FIFO and the writing of the request. -/
theorem LiveAt.next {pc pc' : ClientPc} (h : LiveAt member ordered served opens pc f)
    (hpc : pc = .getInt ∧ pc' = .openServer ∨ pc = .openServer ∧ pc' = .write) :
    LiveAt member ordered served opens pc' f := by
  rcases hpc with ⟨rfl, rfl⟩ | ⟨rfl, rfl⟩
  all_goals
    exact ⟨fun _ => ⟨nofun, nofun⟩, fun hm => absurd (h.idle hm) nofun, nofun, fun _ => h.linked rfl,
      h.reader, h.writer, h.met, nofun, h.opened, fun hs => absurd (h.opened hs) nofun⟩

theorem LiveAt.write (h : LiveAt member ordered served opens .write f) :
    LiveAt member True served opens .openFifo f :=
  ⟨fun _ => ⟨nofun, nofun⟩, fun hm => absurd (h.idle hm) nofun, fun _ => trivial, fun _ => h.linked rfl,
    h.reader, h.writer, h.met, nofun, h.opened, fun hs => absurd (h.opened hs) nofun⟩

/-- The client comes to its FIFO: it goes on at once if the server is there. -/
theorem LiveAt.openFifo (h : LiveAt member ordered served opens .openFifo f) :
    LiveAt member ordered served opens .opening f.openRead := by
  have hserved : ¬served := fun hs => absurd (h.opened hs) nofun
  have hmet : f.met = false := Bool.eq_false_iff.mpr fun hm => absurd (h.met.mp hm).1 nofun
  refine ⟨fun _ => ⟨nofun, nofun⟩, fun hm => absurd (h.idle hm) nofun, fun _ => h.ordered rfl,
    fun _ => h.linked rfl, rfl, h.writer, ?_, nofun, fun _ => rfl, fun hs => absurd hs hserved⟩
  have hw := h.writer
  simp only [Fifo.openRead, hmet, Bool.false_or, hw, hserved, false_or]
  exact ⟨fun ho => ⟨rfl, ho⟩, And.right⟩

theorem LiveAt.opening (h : LiveAt member ordered served opens .opening f) (hmet : f.met) :
    LiveAt member ordered served opens .read f :=
  ⟨fun _ => ⟨nofun, nofun⟩, fun hm => absurd (h.idle hm) nofun, fun _ => h.ordered rfl,
    fun _ => h.linked rfl, h.reader, h.writer, h.met, fun _ => hmet, fun _ => rfl,
    fun hs => .inr ((h.data hs).resolve_left nofun)⟩

theorem LiveAt.exit (h : LiveAt member ordered served opens .read f) (v : BitVec 32) :
    LiveAt member ordered served opens (.done v) f.closeRead.unlink :=
  ⟨fun _ => ⟨nofun, nofun⟩, fun hm => absurd (h.idle hm) nofun, fun _ => h.ordered rfl, nofun, rfl,
    h.writer, h.met, nofun, fun _ => rfl, fun _ => .inl ⟨v, rfl⟩⟩

end Client

section Server

variable {member ordered served opens : Prop} {pc : ClientPc} {f : Fifo}

/-- The server comes to a client's FIFO. -/
theorem LiveAt.openWrite (h : LiveAt member ordered served False pc f) (hnot : ¬served)
    (hdone : ∀ v, pc ≠ .done v) : LiveAt member ordered served True pc f.openWrite := by
  have hmet : f.met = false := Bool.eq_false_iff.mpr fun hm => hnot ((h.met.mp hm).2.resolve_right id)
  have hopened : pc.reading = pc.opened := by
    cases pc with
    | done v => exact absurd rfl (hdone v)
    | _ => rfl
  refine ⟨h.alive, h.idle, h.ordered, h.linked, h.reader, iff_of_true rfl trivial, ?_, fun hr => ?_,
    h.opened, h.data⟩
  · simp only [Fifo.openWrite, hmet, Bool.false_or, h.reader, hopened, or_true, and_true]
  · simp only [Fifo.openWrite, hmet, Bool.false_or, h.reader, hr, ClientPc.reading]

/-- The number is written while the client is there. -/
theorem LiveAt.answer (h : LiveAt member ordered served True pc f) (hmet : f.met) {bs : List UInt8}
    (hbs : bs ≠ []) : LiveAt member ordered True True pc
      (if f.reader then { f with data := f.data ++ bs } else f) := by
  have hopened := (h.met.mp hmet).1
  have hmet' : f.met ↔ pc.opened ∧ (True ∨ True) :=
    iff_of_true hmet ⟨hopened, .inl trivial⟩
  split
  · refine ⟨h.alive, h.idle, h.ordered, h.linked, h.reader, h.writer, hmet', h.read, fun _ => hopened,
      fun _ => .inr ?_⟩
    exact List.append_ne_nil_of_right_ne_nil _ hbs
  · rename_i hreader
    refine ⟨h.alive, h.idle, h.ordered, h.linked, h.reader, h.writer, hmet', h.read, fun _ => hopened,
      fun _ => .inl ?_⟩
    rw [h.reader] at hreader
    cases pc with
    | done v => exact ⟨v, rfl⟩
    | opening => exact absurd rfl hreader
    | read => exact absurd rfl hreader
    | _ => cases hopened

/-- The server closes the FIFO: the number stays in it as long as the client has it open. -/
theorem LiveAt.closeWrite (h : LiveAt member ordered served True pc f) (hserved : served) :
    LiveAt member ordered served False pc f.closeWrite := by
  have hopened := h.opened hserved
  refine ⟨h.alive, h.idle, h.ordered, h.linked, h.reader, iff_of_false nofun id, ?_, h.read, h.opened,
    fun hs => ?_⟩
  · exact h.met.trans (and_congr_right fun _ => iff_of_true (.inl hserved) (.inl hserved))
  · rcases h.data hs with hd | hd
    · exact .inl hd
    · cases pc with
      | done v => exact .inl ⟨v, rfl⟩
      | opening => exact .inr (by simpa [Fifo.closeWrite, h.reader, ClientPc.reading] using hd)
      | read => exact .inr (by simpa [Fifo.closeWrite, h.reader, ClientPc.reading] using hd)
      | _ => cases hopened

end Server

/-! ## All of them -/

/-- A step of client `p`. -/
theorem Live.client {pids : Finset Pid} {s s' : State} {queue queue' : List Pid} {p : Pid}
    (h : Live pids s queue) (hsv : s'.sv = s.sv) (hserved : s'.served = s.served)
    (horder : ∀ q ∈ s.order queue, q ∈ s'.order queue')
    (hother : ∀ q, q ≠ p → s'.clients q = s.clients q ∧ s'.fifo q = s.fifo q)
    (hp : LiveAt (p ∈ pids) (p ∈ s'.order queue') (p ∈ s.served) (s.sv.opens p) (s'.clients p)
      (s'.fifo p)) (hmet : (s.fifo p).met → (s'.fifo p).met) : Live pids s' queue' := by
  refine ⟨fun q => ?_, fun req hreq => ?_, by rw [hsv, hserved]; exact h.close⟩
  · rw [hsv, hserved]
    by_cases hq : q = p
    · subst hq
      exact hp
    · rw [(hother q hq).1, (hother q hq).2]
      exact (h.at_ q).congr (horder q) Iff.rfl Iff.rfl
  · rw [hsv] at hreq
    have hw := h.write req hreq
    by_cases hq : req.pid = p
    · subst hq
      exact hmet hw
    · rwa [(hother _ hq).2]

/-- A step of the server that has to do with client `p`. -/
theorem Live.server {pids : Finset Pid} {s s' : State} {queue queue' : List Pid} {p : Pid}
    (h : Live pids s queue) (hclients : s'.clients = s.clients)
    (horder : ∀ q ∈ s.order queue, q ∈ s'.order queue')
    (hserved : ∀ q, q ≠ p → (q ∈ s'.served ↔ q ∈ s.served))
    (hopens : ∀ q, q ≠ p → (s'.sv.opens q ↔ s.sv.opens q))
    (hother : ∀ q, q ≠ p → s'.fifo q = s.fifo q)
    (hp : LiveAt (p ∈ pids) (p ∈ s'.order queue') (p ∈ s'.served) (s'.sv.opens p) (s.clients p)
      (s'.fifo p)) (hwrite : ∀ req, s'.sv = .write req → (s'.fifo req.pid).met)
    (hclose : ∀ req, s'.sv = .close req → req.pid ∈ s'.served) : Live pids s' queue' := by
  refine ⟨fun q => ?_, hwrite, hclose⟩
  rw [hclients]
  by_cases hq : q = p
  · subst hq
    exact hp
  · rw [hother q hq]
    exact (h.at_ q).congr (horder q) (hserved q hq) (hopens q hq)

theorem Live.of_mem {pids : Finset Pid} {s : State} {queue : List Pid} (h : Live pids s queue)
    {p : Pid} (hp : s.clients p ≠ .absent) : p ∈ pids :=
  of_not_not fun hnot => hp ((h.at_ p).idle hnot)

/-- A client that is not sending its request leaves the server's FIFO alone. -/
theorem Inv.client_other {PIPE_SIZE : ℕ} {arg : Pid → Option (List UInt8)} {s s' : State}
    {queue : List Pid} {p : Pid} (h : Inv arg s queue) (hpc : s.clients p ≠ .write)
    (hs : clientStep PIPE_SIZE arg s p = some s') : Inv arg s' queue := by
  rcases clientStep_cases hs with ⟨v, hw, -, -⟩ | ⟨hr, hlen, rfl⟩ | ⟨f, pc, hm, rfl⟩
  · exact absurd hw hpc
  · exact h.receive hr hlen
  · exact h.moves hm

/-- A client whose FIFO and place change, and nothing else. -/
theorem Live.setFifo_goto {pids : Finset Pid} {s : State} {queue : List Pid} {p : Pid}
    (h : Live pids s queue) {f : Fifo} {pc : ClientPc}
    (hp : LiveAt (p ∈ pids) (p ∈ s.order queue) (p ∈ s.served) (s.sv.opens p) pc f)
    (hmet : (s.fifo p).met → f.met) : Live pids ((s.setFifo p f).goto p pc) queue := by
  have hself : ((s.setFifo p f).goto p pc).fifo p = f := fifo_setFifo_self s f
  refine h.client (p := p) rfl rfl (fun _ hq => hq) (fun q hq => ⟨?_, ?_⟩) ?_ ?_
  · exact clients_goto_of_ne _ _ hq
  · exact fifo_setFifo_of_ne s f hq
  · rw [clients_goto_self, hself]
    exact hp
  · rw [hself]
    exact hmet

theorem Live.goto {pids : Finset Pid} {s : State} {queue : List Pid} {p : Pid}
    (h : Live pids s queue) {pc : ClientPc}
    (hp : LiveAt (p ∈ pids) (p ∈ s.order queue) (p ∈ s.served) (s.sv.opens p) pc (s.fifo p)) :
    Live pids (s.goto p pc) queue := by
  have hset := h.setFifo_goto hp id
  rwa [setFifo_fifo] at hset

/-- The request goes to the end of the queue. -/
theorem Live.send {pids : Finset Pid} {s : State} {queue : List Pid} {p : Pid} {bs : List UInt8}
    (h : Live pids s queue) (hpc : s.clients p = .write) :
    Live pids ({ s with serverFifo := bs }.goto p .openFifo) (queue ++ [p]) := by
  have hat := h.at_ p
  rw [hpc] at hat
  have horder : ∀ q, q ∈ s.order (queue ++ [p]) ↔ q ∈ s.order queue ∨ q = p := by
    intro q
    simp only [State.order, List.mem_append, List.mem_singleton]
    tauto
  refine h.client (p := p) rfl rfl (fun q hq => (horder q).mpr (.inl hq)) (fun q hq => ⟨?_, rfl⟩) ?_ id
  · exact clients_goto_of_ne _ _ hq
  · rw [clients_goto_self]
    exact hat.write.congr (fun _ => (horder p).mpr (.inr rfl)) Iff.rfl Iff.rfl

/-- A client that reads gets a whole response, or the server is there and it waits. -/
theorem Live.read_data {arg : Pid → Option (List UInt8)} {pids : Finset Pid} {s : State}
    {queue : List Pid} {p : Pid} (hi : Inv arg s queue) (h : Live pids s queue)
    (hpc : s.clients p = .read) :
    (s.fifo p).data = [] ∧ (s.fifo p).writer ∧ s.sv.opens p ∨
      (s.fifo p).data.length = sizeof_response := by
  have hat := h.at_ p
  rcases hi.data p with hnil | ⟨-, hdata⟩
  · left
    rcases (hat.met.mp (hat.read hpc)).2 with hserved | hopens
    · rcases hat.data hserved with ⟨v, hv⟩ | hne
      · rw [hpc] at hv
        cases hv
      · exact absurd hnil hne
    · exact ⟨hnil, hat.writer.mpr hopens, hopens⟩
  · right
    rw [hdata, response.length_bytes]

theorem Live.read_step (PIPE_SIZE : ℕ) {arg : Pid → Option (List UInt8)} {pids : Finset Pid}
    {s : State} {queue : List Pid} {p : Pid} (hi : Inv arg s queue) (h : Live pids s queue)
    (hpc : s.clients p = .read) (hopens : ¬s.sv.opens p ∨ (s.fifo p).data ≠ []) :
    ∃ v, clientStep PIPE_SIZE arg s p = some (s.exit p (.done v)) := by
  rcases h.read_data hi hpc with ⟨hnil, -, ho⟩ | hlen
  · rcases hopens with hno | hne
    · exact absurd ho hno
    · exact absurd hnil hne
  · have htake : (s.fifo p).data.take sizeof_response = (s.fifo p).data :=
      List.take_of_length_le hlen.le
    have hne : (s.fifo p).data ≠ [] := fun hnil => by
      rw [hnil] at hlen
      cases hlen
    refine ⟨(response.ofBytes (s.fifo p).data).seqNum, ?_⟩
    simp only [clientStep, hpc, htake]
    rw [if_neg fun hc => hne hc.1, if_neg (not_not_intro hlen)]

theorem live_client {PIPE_SIZE : ℕ} {arg : Pid → Option (List UInt8)} {pids : Finset Pid}
    {s s' : State} {queue : List Pid} {p : Pid} (hargs : ∀ p ∈ pids, ∃ v, seqLen (arg p) = .ok v)
    (hi : Inv arg s queue) (h : Live pids s queue) (hs : clientStep PIPE_SIZE arg s p = some s') :
    ∃ queue', Inv arg s' queue' ∧ Live pids s' queue' := by
  have hat := h.at_ p
  cases hpc : s.clients p with
  | mkfifo =>
    refine ⟨queue, hi.client_other (by rw [hpc]; simp) hs, ?_⟩
    simp only [clientStep, hpc, Option.some.injEq] at hs
    rw [hpc] at hat
    rw [← hs]
    exact h.setFifo_goto hat.mkfifo id
  | getInt =>
    refine ⟨queue, hi.client_other (by rw [hpc]; simp) hs, ?_⟩
    obtain ⟨v, hv⟩ := hargs p (h.of_mem (by rw [hpc]; simp))
    simp only [clientStep, hpc, hv, Option.some.injEq] at hs
    rw [← hs]
    exact h.goto (hat.next (.inl ⟨hpc, rfl⟩))
  | openServer =>
    refine ⟨queue, hi.client_other (by rw [hpc]; simp) hs, ?_⟩
    simp only [clientStep, hpc, Option.some.injEq] at hs
    rw [← hs]
    exact h.goto (hat.next (.inr ⟨hpc, rfl⟩))
  | write =>
    obtain ⟨v, hv⟩ := hargs p (h.of_mem (by rw [hpc]; simp))
    simp only [clientStep, hpc, hv, Option.ite_none_right_eq_some, Option.some.injEq] at hs
    rw [← hs.2]
    exact ⟨_, hi.send hpc hv, h.send hpc⟩
  | openFifo =>
    refine ⟨queue, hi.client_other (by rw [hpc]; simp) hs, ?_⟩
    simp only [clientStep, hpc, Option.some.injEq] at hs
    rw [hpc] at hat
    rw [← hs]
    refine h.setFifo_goto hat.openFifo fun hmet => ?_
    rw [Fifo.openRead, hmet, Bool.true_or]
  | opening =>
    refine ⟨queue, hi.client_other (by rw [hpc]; simp) hs, ?_⟩
    simp only [clientStep, hpc, Option.ite_none_right_eq_some, Option.some.injEq] at hs
    rw [hpc] at hat
    rw [← hs.2]
    exact h.goto (hat.opening hs.1)
  | read =>
    refine ⟨queue, hi.client_other (by rw [hpc]; simp) hs, ?_⟩
    rw [hpc] at hat
    by_cases hne : (s.fifo p).data = []
    · -- it waits
      rcases h.read_data hi hpc with ⟨-, hw, -⟩ | hlen
      · simp only [clientStep, hpc, hne, hw, List.take_nil, true_and, if_true, reduceCtorEq] at hs
      · rw [hne] at hlen
        cases hlen
    · obtain ⟨v, hv⟩ := h.read_step PIPE_SIZE hi hpc (.inr hne)
      rw [hv, Option.some.injEq] at hs
      rw [← hs]
      exact h.setFifo_goto (hat.exit v) id
  | absent => simp only [clientStep, hpc, reduceCtorEq] at hs
  | done v => simp only [clientStep, hpc, reduceCtorEq] at hs
  | failed => simp only [clientStep, hpc, reduceCtorEq] at hs

theorem live_server {arg : Pid → Option (List UInt8)} {pids : Finset Pid} {s s' : State}
    {queue : List Pid} (hi : Inv arg s queue) (h : Live pids s queue) (hs : serverStep s = some s') :
    ∃ queue', Inv arg s' queue' ∧ Live pids s' queue' := by
  cases hsv : s.sv with
  | read =>
    obtain ⟨p, queue', rfl, rfl⟩ := hi.takes hsv hs
    refine ⟨queue', hi.take hsv, fun q => ?_, (fun _ hne => by cases hne), fun _ hne => by cases hne⟩
    have horder : s.order (p :: queue') = s.served ++ ([p] ++ queue') := by
      rw [State.order, hsv]
      rfl
    refine (h.at_ q).congr (fun hq => ?_) Iff.rfl ?_
    · rw [horder] at hq
      exact hq
    · rw [hsv]
      exact Iff.rfl
  | «open» req =>
    have horder : s.order queue = s.served ++ ([req.pid] ++ queue) := by
      rw [State.order, hsv]
      rfl
    have hmem : req.pid ∈ s.order queue := by
      rw [horder]
      simp only [List.mem_append, List.mem_singleton, true_or, or_true]
    have hnot : req.pid ∉ s.served := fun hm => by
      have hnodup := hi.nodup
      rw [horder] at hnodup
      exact (List.nodup_append.mp hnodup).2.2 _ hm _ List.mem_cons_self rfl
    have hat := h.at_ req.pid
    -- the client has sent its request and is not done: its FIFO is there
    have hdone : ∀ v, s.clients req.pid ≠ .done v := fun v hv => hnot (hi.done _ v hv).1
    have hlinked : (s.fifo req.pid).linked := by
      have hsent := hi.sent _ hmem
      refine hat.linked ?_
      cases hpc : s.clients req.pid with
      | openFifo => rfl
      | opening => rfl
      | read => rfl
      | done v => exact absurd hpc (hdone v)
      | failed =>
        exact absurd hpc (hat.alive (h.of_mem (by rw [hpc]; simp))).2
      | absent => rw [hpc] at hsent; cases hsent
      | mkfifo => rw [hpc] at hsent; cases hsent
      | getInt => rw [hpc] at hsent; cases hsent
      | openServer => rw [hpc] at hsent; cases hsent
      | write => rw [hpc] at hsent; cases hsent
    simp only [serverStep, hsv, hlinked, if_true, Option.some.injEq] at hs
    subst hs
    refine ⟨queue, ?_, ?_⟩
    · refine hi.serves rfl rfl rfl ?_ ?_ (setFifo_data (.inl rfl))
      · rw [hsv]
        exact List.Sublist.refl _
      · rw [hsv]
        rfl
    · have hself : (s.setFifo req.pid (s.fifo req.pid).openWrite).fifo req.pid = _ :=
        fifo_setFifo_self ..
      refine h.server (p := req.pid) rfl (fun q hq => ?_) (fun _ _ => Iff.rfl) (fun q hq => ?_)
        (fun q hq => fifo_setFifo_of_ne _ _ hq) ?_ (fun _ hne => by cases hne)
        fun _ hne => by cases hne
      · rw [horder] at hq
        exact hq
      · rw [hsv]
        exact iff_of_false (fun he => hq he.symm) id
      · change LiveAt _ _ _ _ _ ((s.setFifo req.pid (s.fifo req.pid).openWrite).fifo req.pid)
        rw [hself]
        rw [hsv] at hat
        refine (hat.openWrite hnot hdone).congr (fun ho => ?_) Iff.rfl (iff_of_true rfl trivial)
        rw [horder] at ho
        exact ho
  | opening req =>
    simp only [serverStep, hsv, Option.ite_none_right_eq_some, Option.some.injEq] at hs
    obtain ⟨hmet, rfl⟩ := hs
    refine ⟨queue, hi.serves rfl rfl rfl ?_ ?_ fun _ => .inl rfl, fun q => ?_, fun req' hreq' => ?_,
      fun _ hne => by cases hne⟩
    · rw [hsv]
      exact List.Sublist.refl _
    · rw [hsv]
      rfl
    · refine (h.at_ q).congr (fun hq => ?_) Iff.rfl ?_
      · rw [State.order, hsv] at hq
        exact hq
      · rw [hsv]
        exact Iff.rfl
    · rw [ServerPc.write.injEq] at hreq'
      exact hreq' ▸ hmet
  | write req =>
    have hmet := h.write req hsv
    simp only [serverStep, hsv, Option.some.injEq] at hs
    subst hs
    refine ⟨queue, ?_, ?_⟩
    · refine hi.answer hsv ?_
      split
      · exact .inr rfl
      · exact .inl rfl
    · have hat := h.at_ req.pid
      rw [hsv] at hat
      have hne : (response.mk s.seqNum).bytes ≠ [] := fun hnil => by
        have hlen := response.length_bytes (response.mk s.seqNum)
        rw [hnil] at hlen
        cases hlen
      refine h.server (p := req.pid) rfl (fun q hq => ?_) (fun q hq => ?_) (fun q hq => ?_)
        (fun q hq => fifo_setFifo_of_ne _ _ hq) ?_ (fun _ hne => by cases hne)
        fun req' hreq' => ?_
      · rw [State.order, hsv] at hq
        change q ∈ s.served ++ [req.pid] ++ queue
        rw [List.append_assoc]
        exact hq
      · rw [List.mem_append, List.mem_singleton]
        exact or_iff_left hq
      · rw [hsv]
        exact Iff.rfl
      · change LiveAt _ _ _ _ _ ((s.setFifo req.pid _).fifo req.pid)
        rw [fifo_setFifo_self]
        refine ((hat.congr id Iff.rfl (iff_of_true trivial rfl)).answer hmet hne).congr (fun ho => ?_)
          (iff_of_true ?_ trivial) (iff_of_true rfl trivial)
        · rw [State.order, hsv] at ho
          change req.pid ∈ s.served ++ [req.pid] ++ queue
          rw [List.append_assoc]
          exact ho
        · exact List.mem_append_right _ List.mem_cons_self
      · rw [ServerPc.close.injEq] at hreq'
        rw [← hreq']
        exact List.mem_append_right _ List.mem_cons_self
  | close req =>
    simp only [serverStep, hsv, Option.some.injEq] at hs
    subst hs
    refine ⟨queue, ?_, ?_⟩
    · refine hi.serves rfl rfl rfl (List.nil_sublist _) ?_ (setFifo_data (closeWrite_data _))
      rw [hsv]
      exact BitVec.add_zero _
    · have hat := h.at_ req.pid
      rw [hsv] at hat
      have hserved := h.close req hsv
      refine h.server (p := req.pid) rfl (fun q hq => ?_) (fun _ _ => Iff.rfl) (fun q hq => ?_)
        (fun q hq => fifo_setFifo_of_ne _ _ hq) ?_ (fun _ hne => by cases hne)
        fun _ hne => by cases hne
      · rw [State.order, hsv] at hq
        exact hq
      · rw [hsv]
        exact iff_of_false id fun he => hq he.symm
      · change LiveAt _ _ _ _ _ ((s.setFifo req.pid _).fifo req.pid)
        rw [fifo_setFifo_self]
        refine ((hat.congr id Iff.rfl (iff_of_true trivial rfl)).closeWrite hserved).congr (fun ho => ?_)
          Iff.rfl Iff.rfl
        rw [State.order, hsv] at ho
        exact ho

theorem live_step {PIPE_SIZE : ℕ} {arg : Pid → Option (List UInt8)} {pids : Finset Pid}
    {s s' : State} {a : Act} {queue : List Pid}
    (hargs : ∀ p ∈ pids, ∃ v, seqLen (arg p) = .ok v) (hi : Inv arg s queue)
    (h : Live pids s queue) (hC : NoFault s a) (hs : step PIPE_SIZE arg s a = some s') :
    ∃ queue', Inv arg s' queue' ∧ Live pids s' queue' := by
  cases a with
  | server => exact live_server hi h hs
  | client p => exact live_client hargs hi h hs
  | serverFails => exact hC.elim
  | clientFails p => exact hC.elim
  | killed p => exact hC.elim

/-! ## Nobody is left waiting -/

/-- The two places where the server waits. -/
theorem server_waits {s : State} (h : serverStep s = none) :
    (s.sv = .read ∧ s.serverFifo = []) ∨
      ∃ req, s.sv = .opening req ∧ (s.fifo req.pid).met = false := by
  cases hsv : s.sv with
  | read =>
    simp only [serverStep, hsv] at h
    split at h
    · rename_i hnil
      exact .inl ⟨rfl, hnil⟩
    · split at h <;> cases h
  | «open» req =>
    simp only [serverStep, hsv] at h
    split at h <;> cases h
  | opening req =>
    simp only [serverStep, hsv, ite_eq_right_iff, reduceCtorEq, imp_false] at h
    exact .inr ⟨req, rfl, Bool.eq_false_iff.mpr h⟩
  | write req => simp only [serverStep, hsv, reduceCtorEq] at h
  | close req => simp only [serverStep, hsv, reduceCtorEq] at h

/-- When nothing lies in the server's FIFO, no request is on its way. -/
theorem Inv.queue_eq_nil {arg : Pid → Option (List UInt8)} {s : State} {queue : List Pid}
    (h : Inv arg s queue) (hempty : s.serverFifo = []) : queue = [] := by
  cases queue with
  | nil => rfl
  | cons q queue =>
    have hq : s.serverFifo = (reqOf arg q).bytes ++ _ := h.serverFifo
    have hlen := request.length_bytes (reqOf arg q)
    rw [hempty] at hq
    rw [(List.append_eq_nil_iff.mp hq.symm).1] at hlen
    cases hlen

/-- **A wait is for somebody who can go on**: as long as a client has not got its number, the
server or some client has a call that returns. -/
theorem not_stuck {PIPE_SIZE : ℕ} {arg : Pid → Option (List UInt8)} {pids : Finset Pid} {s : State}
    {queue : List Pid} (hsize : sizeof_request ≤ PIPE_SIZE)
    (hargs : ∀ p ∈ pids, ∃ v, seqLen (arg p) = .ok v) (hi : Inv arg s queue)
    (h : Live pids s queue) {p : Pid} (hp : p ∈ pids) (hdone : ∀ v, s.clients p ≠ .done v) :
    ∃ a s', NoFault s a ∧ step PIPE_SIZE arg s a = some s' := by
  cases hserver : serverStep s with
  | some s' => exact ⟨.server, s', trivial, hserver⟩
  | none => ?_
  rcases server_waits hserver with ⟨hsv, hempty⟩ | ⟨req, hsv, hmet⟩
  · -- every request is answered: the client itself can go on
    have hopens : ¬s.sv.opens p := by
      rw [hsv]
      exact id
    have hat := h.at_ p
    have horder : (s.clients p).sent → p ∈ s.served := by
      intro hsent
      have hmem := hat.ordered hsent
      rw [State.order, hsv, hi.queue_eq_nil hempty] at hmem
      simpa only [ServerPc.pending, List.map_nil, List.append_nil] using hmem
    obtain ⟨v, hv⟩ := hargs p hp
    cases hpc : s.clients p with
    | mkfifo => exact ⟨.client p, _, trivial, by simp only [step, clientStep, hpc]; rfl⟩
    | getInt => exact ⟨.client p, _, trivial, by simp only [step, clientStep, hpc, hv]; rfl⟩
    | openServer => exact ⟨.client p, _, trivial, by simp only [step, clientStep, hpc]; rfl⟩
    | write =>
      refine ⟨.client p,
        { s with serverFifo := s.serverFifo ++ (requestOf p v).bytes }.goto p .openFifo, trivial, ?_⟩
      simp only [step, clientStep, hpc, hv, hempty, List.length_nil, Nat.zero_add, hsize, if_true]
    | openFifo => exact ⟨.client p, _, trivial, by simp only [step, clientStep, hpc]; rfl⟩
    | opening =>
      have hmet : (s.fifo p).met := hat.met.mpr ⟨by rw [hpc]; rfl, .inl (horder (by rw [hpc]; rfl))⟩
      exact ⟨.client p, _, trivial, by simp only [step, clientStep, hpc, hmet, if_true]; rfl⟩
    | read =>
      obtain ⟨w, hw⟩ := h.read_step PIPE_SIZE hi hpc (.inl hopens)
      exact ⟨.client p, _, trivial, hw⟩
    | done v => exact absurd hpc (hdone v)
    | absent => exact absurd hpc (hat.alive hp).1
    | failed => exact absurd hpc (hat.alive hp).2
  · -- the server waits for a client that has sent its request and not opened its FIFO
    have hat := h.at_ req.pid
    have hmem : req.pid ∈ s.order queue := by
      rw [State.order, hsv]
      simp only [ServerPc.pending, List.map_cons, List.mem_append, List.mem_cons, true_or, or_true]
    have hopens : s.sv.opens req.pid := by
      rw [hsv]
      rfl
    have hclosed : (s.clients req.pid).opened = false := Bool.eq_false_iff.mpr fun ho => by
      rw [hat.met.mpr ⟨ho, .inr hopens⟩] at hmet
      cases hmet
    have hsent := hi.sent _ hmem
    cases hpc : s.clients req.pid with
    | openFifo => exact ⟨.client req.pid, _, trivial, by simp only [step, clientStep, hpc]; rfl⟩
    | failed => exact absurd hpc (hat.alive (h.of_mem (by rw [hpc]; simp))).2
    | opening => rw [hpc] at hclosed; cases hclosed
    | read => rw [hpc] at hclosed; cases hclosed
    | done v => rw [hpc] at hclosed; cases hclosed
    | absent => rw [hpc] at hsent; cases hsent
    | mkfifo => rw [hpc] at hsent; cases hsent
    | getInt => rw [hpc] at hsent; cases hsent
    | openServer => rw [hpc] at hsent; cases hsent
    | write => rw [hpc] at hsent; cases hsent

/-! ## And nothing goes on for ever -/

/-- How many calls a client can still cause, with eight for a request on its way. -/
def ClientPc.budget : ClientPc → ℕ
  | .mkfifo => 15
  | .getInt => 14
  | .openServer => 13
  | .write => 12
  | .openFifo => 3
  | .opening => 2
  | .read => 1
  | .absent | .done _ | .failed => 0

def ServerPc.budget : ServerPc → ℕ
  | .open _ => 4
  | .opening _ => 3
  | .write _ => 2
  | .close _ => 1
  | .read => 0

def State.budget (pids : Finset Pid) (s : State) : ℕ :=
  ∑ p ∈ pids, (s.clients p).budget + (s.sv.budget + s.serverFifo.length)

/-- A client's call changes its own place and the server's FIFO, and pays for both. -/
theorem clientStep_budget {PIPE_SIZE : ℕ} {arg : Pid → Option (List UInt8)} {s s' : State} {p : Pid}
    (hs : clientStep PIPE_SIZE arg s p = some s') :
    ∃ pc, s'.clients = Function.update s.clients p pc ∧ s'.sv = s.sv ∧
      pc.budget + s'.serverFifo.length < (s.clients p).budget + s.serverFifo.length := by
  cases hpc : s.clients p with
  | mkfifo =>
    simp only [clientStep, hpc, Option.some.injEq] at hs
    rw [← hs]
    exact ⟨.getInt, rfl, rfl, Nat.add_lt_add_right (by decide) _⟩
  | getInt =>
    simp only [clientStep, hpc] at hs
    split at hs <;> rw [Option.some.injEq] at hs <;> rw [← hs]
    · exact ⟨.openServer, rfl, rfl, Nat.add_lt_add_right (by decide) _⟩
    · exact ⟨.failed, rfl, rfl, Nat.add_lt_add_right (by decide) _⟩
  | openServer =>
    simp only [clientStep, hpc, Option.some.injEq] at hs
    rw [← hs]
    exact ⟨.write, rfl, rfl, Nat.add_lt_add_right (by decide) _⟩
  | write =>
    simp only [clientStep, hpc] at hs
    split at hs
    · simp only [Option.ite_none_right_eq_some, Option.some.injEq] at hs
      rw [← hs.2]
      refine ⟨.openFifo, rfl, rfl, ?_⟩
      simp only [State.goto, List.length_append, request.length_bytes, ClientPc.budget, sizeof_request]
      omega
    · cases hs
  | openFifo =>
    simp only [clientStep, hpc, Option.some.injEq] at hs
    rw [← hs]
    exact ⟨.opening, rfl, rfl, Nat.add_lt_add_right (by decide) _⟩
  | opening =>
    simp only [clientStep, hpc, Option.ite_none_right_eq_some, Option.some.injEq] at hs
    rw [← hs.2]
    exact ⟨.read, rfl, rfl, Nat.add_lt_add_right (by decide) _⟩
  | read =>
    simp only [clientStep, hpc] at hs
    split at hs
    · cases hs
    · split at hs <;> rw [Option.some.injEq] at hs <;> rw [← hs]
      · exact ⟨.failed, rfl, rfl, Nat.add_lt_add_right (by decide) _⟩
      · exact ⟨.done _, rfl, rfl, Nat.add_lt_add_right (show 0 < 1 by decide) _⟩
  | absent => simp only [clientStep, hpc, reduceCtorEq] at hs
  | done v => simp only [clientStep, hpc, reduceCtorEq] at hs
  | failed => simp only [clientStep, hpc, reduceCtorEq] at hs

theorem serverStep_budget {s s' : State} (hs : serverStep s = some s') :
    s'.clients = s.clients ∧ s'.sv.budget + s'.serverFifo.length < s.sv.budget + s.serverFifo.length := by
  cases hsv : s.sv with
  | read =>
    simp only [serverStep, hsv] at hs
    split at hs
    · cases hs
    · rename_i hne
      have hpos := List.length_pos_iff.mpr hne
      split at hs <;> rw [Option.some.injEq] at hs <;> rw [← hs] <;> refine ⟨rfl, ?_⟩
      · simp only [ServerPc.budget, List.length_drop, sizeof_request]
        omega
      · rename_i hlen
        simp only [List.length_take, sizeof_request, not_not] at hlen
        simp only [ServerPc.budget, List.length_drop, sizeof_request]
        omega
  | «open» req =>
    simp only [serverStep, hsv] at hs
    split at hs <;> rw [Option.some.injEq] at hs <;> rw [← hs]
    · exact ⟨rfl, Nat.add_lt_add_right (show 3 < 4 by decide) _⟩
    · exact ⟨rfl, Nat.add_lt_add_right (show 0 < 4 by decide) _⟩
  | opening req =>
    simp only [serverStep, hsv, Option.ite_none_right_eq_some, Option.some.injEq] at hs
    rw [← hs.2]
    exact ⟨rfl, Nat.add_lt_add_right (show 2 < 3 by decide) _⟩
  | write req =>
    simp only [serverStep, hsv, Option.some.injEq] at hs
    rw [← hs]
    exact ⟨rfl, Nat.add_lt_add_right (show 1 < 2 by decide) _⟩
  | close req =>
    simp only [serverStep, hsv, Option.some.injEq] at hs
    rw [← hs]
    exact ⟨rfl, Nat.add_lt_add_right (show 0 < 1 by decide) _⟩

theorem budget_step {PIPE_SIZE : ℕ} {arg : Pid → Option (List UInt8)} {pids : Finset Pid}
    {s s' : State} {a : Act} {queue : List Pid} (h : Live pids s queue) (hC : NoFault s a)
    (hs : step PIPE_SIZE arg s a = some s') : s'.budget pids < s.budget pids := by
  cases a with
  | server =>
    obtain ⟨hclients, hlt⟩ := serverStep_budget hs
    rw [State.budget, State.budget, hclients]
    exact Nat.add_lt_add_left hlt _
  | client p =>
    obtain ⟨pc, hclients, hsv, hlt⟩ := clientStep_budget hs
    have hp : p ∈ pids := h.of_mem fun habs => by
      simp only [step, clientStep, habs, reduceCtorEq] at hs
    have hsum := Parties.sum_update_mem ClientPc.budget s.clients pc hp
    rw [State.budget, State.budget, hclients, hsv]
    omega
  | serverFails => exact hC.elim
  | clientFails p => exact hC.elim
  | killed p => exact hC.elim

/-- Both invariants along a run, and what is left of the budget. -/
theorem live_run {PIPE_SIZE : ℕ} {arg : Pid → Option (List UInt8)} {pids : Finset Pid}
    (hargs : ∀ p ∈ pids, ∃ v, seqLen (arg p) = .ok v) {s s' : State} (hinit : Starts pids s)
    (as : List Act) (hs : (fifoSeqnum PIPE_SIZE arg pids).runWith NoFault s as = some s') :
    (∃ queue, Inv arg s' queue ∧ Live pids s' queue) ∧
      s'.budget pids + as.length ≤ s.budget pids := by
  refine System.runWith_measure (I := fun s => ∃ queue, Inv arg s queue ∧ Live pids s queue)
    ?_ as ⟨[], Starts.inv hinit, Starts.live hinit⟩ hs
  rintro s a s' ⟨queue, hi, hl⟩ hC hs
  exact ⟨live_step hargs hi hl hC hs, budget_step hl hC hs⟩

theorem Starts.budget {pids : Finset Pid} {s : State} (h : Starts pids s) :
    s.budget pids = 15 * pids.card := by
  have hsum : ∑ p ∈ pids, (s.clients p).budget = pids.card * 15 :=
    Finset.sum_const_nat fun p hp => by rw [h.clients, if_pos hp]; rfl
  rw [State.budget, hsum, h.sv, h.serverFifo, Nat.mul_comm]
  rfl

/-- Where everybody is done and the server waits, the history is that of all clients. -/
theorem Live.settled {arg : Pid → Option (List UInt8)} {pids : Finset Pid} {s : State}
    {queue : List Pid} (hi : Inv arg s queue) (h : Live pids s queue)
    (hdone : ∀ p ∈ pids, ∃ v, s.clients p = .done v) (hserver : serverStep s = none) :
    s.seqNum = BitVec.ofNat 32 (∑ p ∈ pids, len arg p) := by
  have hmem : ∀ p ∈ s.order queue, p ∈ pids := fun p hp => h.of_mem fun habs => by
    have hsent := hi.sent p hp
    rw [habs] at hsent
    cases hsent
  have hserved : ∀ p ∈ pids, p ∈ s.served := fun p hp => by
    obtain ⟨v, hv⟩ := hdone p hp
    exact (hi.done p v hv).1
  -- a server in `open()` would wait for a client that has its number already
  have hsv : s.sv = .read := by
    rcases server_waits hserver with ⟨hsv, -⟩ | ⟨req, hsv, -⟩
    · exact hsv
    · have horder : s.order queue = s.served ++ (req.pid :: queue) := by
        rw [State.order, hsv]
        rfl
      have hp : req.pid ∈ s.order queue := by
        rw [horder]
        exact List.mem_append_right _ List.mem_cons_self
      have hnodup := hi.nodup
      rw [horder] at hnodup
      have hdisj := (List.nodup_append.mp hnodup).2.2
      exact absurd rfl (hdisj _ (hserved _ (hmem _ hp)) _ List.mem_cons_self)
  have hseq := hi.seqNum
  rw [hsv] at hseq
  have hset : s.served.toFinset = pids := by
    ext p
    rw [List.mem_toFinset]
    exact ⟨fun hp => hmem p (List.mem_append_left _ hp), hserved p⟩
  have hnodup : s.served.Nodup := (List.nodup_append.mp hi.nodup).1
  rw [← hset, List.sum_toFinset _ hnodup, ← hseq]
  exact (BitVec.add_zero s.seqNum).symm

/-- **Every client gets its number**: without faults, and if every client's argument is a length, a
run has at most fifteen calls a client, and where no call is left that returns, every client has
printed where its block starts and the counter stands behind all the blocks. -/
theorem all_served {PIPE_SIZE : ℕ} {arg : Pid → Option (List UInt8)} {pids : Finset Pid}
    (hsize : sizeof_request ≤ PIPE_SIZE) (hargs : ∀ p ∈ pids, ∃ v, seqLen (arg p) = .ok v)
    {s s' : State} (hinit : Starts pids s) (as : List Act)
    (hrun : (fifoSeqnum PIPE_SIZE arg pids).runWith NoFault s as = some s') :
    as.length ≤ 15 * pids.card ∧
      ((∀ a, NoFault s' a → step PIPE_SIZE arg s' a = none) →
        (∀ p ∈ pids, s'.clients p = .done (BitVec.ofNat 32 (base (len arg) s'.served p))) ∧
        s'.seqNum = BitVec.ofNat 32 (∑ p ∈ pids, len arg p)) := by
  obtain ⟨⟨queue, hi, hl⟩, hle⟩ := live_run hargs hinit as hrun
  rw [Starts.budget hinit] at hle
  refine ⟨by omega, fun hend => ?_⟩
  have hdone : ∀ p ∈ pids, ∃ v, s'.clients p = .done v := by
    intro p hp
    by_contra hnot
    have hdone : ∀ v, s'.clients p ≠ .done v := fun v hv => hnot ⟨v, hv⟩
    obtain ⟨a, s'', hC, hs⟩ := not_stuck hsize hargs hi hl hp hdone
    rw [hend a hC] at hs
    cases hs
  refine ⟨fun p hp => ?_, hl.settled hi hdone (hend .server trivial)⟩
  obtain ⟨v, hv⟩ := hdone p hp
  rw [hv, (hi.done p v hv).2, number]

/-- Two clients: one comes to its FIFO before the server does and the other after it. -/
theorem all_served_two_clients : ∃ s s' : State, ∃ as : List Act,
    (fifoSeqnum 4096 (fun p => if p = 7 then some (bytes "10") else none) {5, 7}).runWith NoFault s as
      = some s' ∧ as.length = 24 ∧ as.length ≤ 15 * 2 ∧
      ∀ p ∈ ({5, 7} : Finset Pid), s'.clients p = .done (BitVec.ofNat 32
        (base (len fun p => if p = 7 then some (bytes "10") else none) s'.served p)) := by
  let arg : Pid → Option (List UInt8) := fun p => if p = 7 then some (bytes "10") else none
  let s : State :=
    { serverFifo := [], sv := .read, seqNum := 0, fifos := fun _ => ⟨false, false, false, false, []⟩,
      clients := fun p => if p ∈ ({5, 7} : Finset Pid) then .mkfifo else .absent, served := [] }
  let as : List Act :=
    [.client 5, .client 7, .client 5, .client 7, .client 5, .client 7, .client 7, .client 7, .client 5,
      .server, .server, .server, .server, .server, .server, .server, .client 5, .server, .server,
      .server, .client 7, .client 7, .client 5, .client 5]
  have hinit : Starts {5, 7} s := ⟨rfl, rfl, rfl, fun _ => ⟨false, rfl⟩, fun _ => rfl, rfl⟩
  have hargs : ∀ p ∈ ({5, 7} : Finset Pid), ∃ v, seqLen (arg p) = .ok v := by
    intro p hp
    rcases Finset.mem_insert.mp hp with rfl | hp
    · exact ⟨1, by decide +kernel⟩
    · rw [Finset.mem_singleton.mp hp]
      exact ⟨10, by decide +kernel⟩
  have hrun : ((fifoSeqnum 4096 arg {5, 7}).runWith NoFault s as).map
      (fun s => (s.sv, s.serverFifo, s.clients 5, s.clients 7)) =
      some (.read, [], .done 10, .done 0) := by decide +kernel
  obtain ⟨s', hs, hfacts⟩ := Option.map_eq_some_iff.mp hrun
  obtain ⟨hsv, hempty, h5, h7⟩ : s'.sv = .read ∧ s'.serverFifo = [] ∧ s'.clients 5 = .done 10 ∧
      s'.clients 7 = .done 0 := by
    simpa only [Prod.mk.injEq] using hfacts
  have hall := all_served (show sizeof_request ≤ 4096 by decide) hargs hinit as hs
  refine ⟨s, s', as, hs, rfl, hall.1, (hall.2 fun a hC => ?_).1⟩
  -- the server waits for a request, and the clients have ended
  obtain ⟨⟨queue, -, hlive⟩, -⟩ := live_run hargs hinit as hs
  cases a with
  | server => simp only [step, serverStep, hsv, hempty, if_true]
  | client p =>
    by_cases hp : p ∈ ({5, 7} : Finset Pid)
    · rcases Finset.mem_insert.mp hp with rfl | hp
      · simp only [step, clientStep, h5]
      · rw [Finset.mem_singleton.mp hp]
        simp only [step, clientStep, h7]
    · have habs := (hlive.at_ p).idle hp
      simp only [step, clientStep, habs]
  | serverFails => exact hC.elim
  | clientFails p => exact hC.elim
  | killed p => exact hC.elim

end Tlpi.FifoSeqnum
