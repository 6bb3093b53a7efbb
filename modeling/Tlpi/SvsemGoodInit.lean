/-
`svsem/svsem_good_init.c`: creating a System V semaphore set and initialising it, when any
number of processes try to at once.

## What is modelled

Each system call is a step of its own. The set comes into being by the one
`semget(IPC_CREAT | IPC_EXCL)` that succeeds, with a value that nothing is said about and
with `sem_otime` zero; a completed `semop()` sets `sem_otime`. The others find that the set
exists, look at `sem_otime` up to `MAX_TRIES` times, and give up or go on. All of them end
in one operation on the semaphore, whose size comes from the command line.

`trace` is a history variable: the four events that the properties speak of, in order.

## The shape of the argument

There is only one way a history can begin: the creation, then `SETVAL`, then the no-op,
all three by the creator. `Phase` says so, and says where every other process can be at
each of the four stages. The argument rests on one look at the poller's loop: it leaves it
towards its own operation only with `sem_otime` set, and while the creator is not past its
no-op nobody is in a position to set it.
-/
import Mathlib.Logic.Function.Basic
import Mathlib.Algebra.BigOperators.Group.List.Basic
import Mathlib.Algebra.Ring.Int.Defs
import Mathlib.Data.List.Nodup
import Tlpi.Transition

set_option autoImplicit false

namespace Tlpi.SvsemGoodInit

open Tlpi.Transition

abbrev MAX_TRIES : ℕ := 10

/-- The largest value of a semaphore. -/
abbrev SEMVMX : ℤ := 32767

/-! ## The program -/

/-- Where a process stands: the call it makes next. -/
inductive Pc where
  | start
  /-- `semctl(SETVAL)` of the creator. -/
  | setval
  /-- The creator's no-op. -/
  | dummy
  /-- The second `semget()`. -/
  | getId
  /-- `semctl(IPC_STAT)`, for the `j`-th time. -/
  | stat (j : ℕ)
  /-- The operation of the command line. -/
  | final
  | done
  /-- "Existing semaphore not initialized" -/
  | gaveUp
deriving Repr, DecidableEq

inductive Event where
  | created (p : ℕ)
  | setval (p : ℕ)
  | dummy (p : ℕ)
  | final (p : ℕ) (op : ℤ)
deriving Repr, DecidableEq

/-- The semaphore, and whether `sem_otime` is non-zero. -/
structure SemSet where
  val : ℤ
  otime : Bool
deriving Repr, DecidableEq

structure State where
  set : Option SemSet
  pc : ℕ → Pc
  trace : List Event

/-- `semop()` on one semaphore; `none` when the caller blocks. -/
def semop (set : SemSet) (op : ℤ) : Option SemSet :=
  if op = 0 then if set.val = 0 then some { set with otime := true } else none
  else if 0 ≤ set.val + op ∧ set.val + op ≤ SEMVMX then some { val := set.val + op, otime := true }
  else none

/-- `sops[0].sem_op = getInt(...)`: an `int` stored in a `short`. -/
def sem_op (arg : ℤ) : ℤ := (BitVec.ofInt 16 arg).toInt

def State.goto (s : State) (p : ℕ) (pc : Pc) : State := { s with pc := Function.update s.pc p pc }

/-- One call of process `p`, whose command line gives `arg`. The value of a set that is
created is the system's choice, `v`. -/
def call (arg : ℤ) (v : ℤ) (s : State) (p : ℕ) : Option State :=
  match s.pc p with
  | .start =>
    match s.set with
    | none =>
      some ({ s with set := some { val := v, otime := false }, trace := s.trace ++ [Event.created p] }.goto
        p .setval)
    | some _ => some (s.goto p .getId)
  | .setval =>
    s.set.map fun set =>
      { s with set := some { set with val := 0 }, trace := s.trace ++ [Event.setval p] }.goto p .dummy
  | .dummy =>
    (s.set.bind fun set => semop set 0).map fun set =>
      { s with set := some set, trace := s.trace ++ [Event.dummy p] }.goto p .final
  | .getId => some (s.goto p (.stat 0))
  | .stat j =>
    s.set.map fun set =>
      if set.otime then s.goto p .final
      else if j + 1 < MAX_TRIES then s.goto p (.stat (j + 1))
      else s.goto p .gaveUp
  | .final =>
    (s.set.bind fun set => semop set (sem_op arg)).map fun set =>
      { s with set := some set, trace := s.trace ++ [Event.final p (sem_op arg)] }.goto p .done
  | .done => none
  | .gaveUp => none

/-- Which process makes its call, and the value a new set would start with. -/
structure Act where
  p : ℕ
  v : ℤ
deriving Repr, DecidableEq

/-- Any number of processes; `arg p` is the number on the command line of `p`. -/
def goodInit (arg : ℕ → ℤ) : System State Act where
  init s := s.set = none ∧ (∀ p, s.pc p = .start) ∧ s.trace = []
  step s a := call (arg a.p) a.v s a.p

/-! ## Histories -/

/-- The processes whose last operation is in a history, in order. -/
def finals : List Event → List ℕ
  | [] => []
  | .final p _ :: t => p :: finals t
  | _ :: t => finals t

/-- The last operations in a history, in order. -/
def finalOps : List Event → List ℤ
  | [] => []
  | .final _ op :: t => op :: finalOps t
  | _ :: t => finalOps t

theorem finals_append (t₁ t₂ : List Event) : finals (t₁ ++ t₂) = finals t₁ ++ finals t₂ := by
  induction t₁ with
  | nil => rfl
  | cons e t₁ ih => cases e <;> simp only [List.cons_append, finals, ih]

theorem finalOps_append (t₁ t₂ : List Event) :
    finalOps (t₁ ++ t₂) = finalOps t₁ ++ finalOps t₂ := by
  induction t₁ with
  | nil => rfl
  | cons e t₁ ih => cases e <;> simp only [List.cons_append, finalOps, ih]

/-- Only last operations. -/
def OnlyFinals (t : List Event) : Prop := ∀ e ∈ t, ∃ p op, e = .final p op

/-! ## The four stages -/

/-- Outside the creator's branch, and not past the poller's loop. -/
def Pc.outside : Pc → Bool
  | .start | .getId | .stat _ | .gaveUp => true
  | _ => false

/-- **What can have happened**, with where the processes can be. -/
inductive Phase (s : State) : Prop
  | nothing (hset : s.set = none) (htrace : s.trace = []) (hpc : ∀ p, s.pc p = .start)
  | created (c : ℕ) (v : ℤ) (hset : s.set = some ⟨v, false⟩) (htrace : s.trace = [.created c])
      (hc : s.pc c = .setval) (hpc : ∀ p, p ≠ c → (s.pc p).outside)
  | cleared (c : ℕ) (hset : s.set = some ⟨0, false⟩) (htrace : s.trace = [.created c, .setval c])
      (hc : s.pc c = .dummy) (hpc : ∀ p, p ≠ c → (s.pc p).outside)
  | running (c : ℕ) (t : List Event) (hset : s.set = some ⟨(finalOps t).sum, true⟩)
      (htrace : s.trace = .created c :: .setval c :: .dummy c :: t) (ht : OnlyFinals t)
      (hpc : ∀ p, s.pc p ≠ .setval ∧ s.pc p ≠ .dummy)
      (hdone : ∀ p ∈ finals t, s.pc p = .done) (hnodup : (finals t).Nodup)

theorem goto_self (s : State) (p : ℕ) (pc : Pc) : (s.goto p pc).pc p = pc :=
  Function.update_self ..

theorem goto_of_ne (s : State) {p q : ℕ} (pc : Pc) (h : q ≠ p) : (s.goto p pc).pc q = s.pc q :=
  Function.update_of_ne h ..

/-- A call of a process outside the creator's branch, while `sem_otime` is zero. -/
theorem outside_step {arg v : ℤ} {s s' : State} {p : ℕ} {set : SemSet} (hset : s.set = some set)
    (hot : set.otime = false) (hp : (s.pc p).outside) (h : call arg v s p = some s') :
    ∃ pc : Pc, pc.outside ∧ s' = s.goto p pc := by
  cases hpc : s.pc p with
  | start =>
    simp only [call, hpc, hset, Option.some.injEq] at h
    exact ⟨.getId, rfl, h.symm⟩
  | getId =>
    simp only [call, hpc, Option.some.injEq] at h
    exact ⟨.stat 0, rfl, h.symm⟩
  | stat j =>
    simp only [call, hpc, hset, Option.map_some, hot, Bool.false_eq_true, if_false,
      Option.some.injEq] at h
    split at h
    · exact ⟨.stat (j + 1), rfl, h.symm⟩
    · exact ⟨.gaveUp, rfl, h.symm⟩
  | gaveUp => simp only [call, hpc, reduceCtorEq] at h
  | setval => rw [hpc] at hp; exact nomatch hp
  | dummy => rw [hpc] at hp; exact nomatch hp
  | final => rw [hpc] at hp; exact nomatch hp
  | done => rw [hpc] at hp; exact nomatch hp

/-- Where everybody else is does not change by such a call. -/
theorem outside_kept {s : State} {c p : ℕ} {pc : Pc} (hp : pc.outside)
    (hpc : ∀ q, q ≠ c → (s.pc q).outside) :
    ∀ q, q ≠ c → ((s.goto p pc).pc q).outside := by
  intro q hq
  by_cases hqp : q = p
  · rw [hqp, goto_self]
    exact hp
  · rw [goto_of_ne s pc hqp]
    exact hpc q hq

theorem phase_created {arg v₀ v : ℤ} {s s' : State} {p c : ℕ} (hset : s.set = some ⟨v, false⟩)
    (htrace : s.trace = [.created c]) (hc : s.pc c = .setval)
    (hpc : ∀ p, p ≠ c → (s.pc p).outside) (h : call arg v₀ s p = some s') : Phase s' := by
  by_cases hpc' : p = c
  · -- the creator's `SETVAL`
    subst hpc'
    simp only [call, hc, hset, Option.map_some, Option.some.injEq] at h
    subst h
    refine .cleared p rfl ?_ (goto_self _ _ _) ?_
    · simp only [State.goto, htrace, List.singleton_append]
    · intro q hq
      rw [goto_of_ne _ _ hq]
      exact hpc q hq
  · obtain ⟨pc, hout, rfl⟩ := outside_step hset rfl (hpc p hpc') h
    refine .created c v hset htrace ?_ (outside_kept hout hpc)
    rw [goto_of_ne s pc (Ne.symm hpc')]
    exact hc

theorem phase_cleared {arg v₀ : ℤ} {s s' : State} {p c : ℕ} (hset : s.set = some ⟨0, false⟩)
    (htrace : s.trace = [.created c, .setval c]) (hc : s.pc c = .dummy)
    (hpc : ∀ p, p ≠ c → (s.pc p).outside) (h : call arg v₀ s p = some s') : Phase s' := by
  by_cases hpc' : p = c
  · -- the no-op: `sem_otime` is set, and nobody has operated on the semaphore yet
    subst hpc'
    simp only [call, hc, hset, Option.bind_some, semop, if_true, Option.map_some,
      Option.some.injEq] at h
    subst h
    refine .running p [] rfl ?_ nofun ?_ nofun List.nodup_nil
    · simp only [State.goto, htrace, List.cons_append, List.nil_append]
    · intro q
      by_cases hq : q = p
      · rw [hq, goto_self]
        exact ⟨nofun, nofun⟩
      · rw [goto_of_ne _ _ hq]
        have hout := hpc q hq
        constructor <;> intro hbad <;> rw [show s.pc q = _ from hbad] at hout <;> exact nomatch hout
  · obtain ⟨pc, hout, rfl⟩ := outside_step hset rfl (hpc p hpc') h
    refine .cleared c hset htrace ?_ (outside_kept hout hpc)
    rw [goto_of_ne s pc (Ne.symm hpc')]
    exact hc

/-- What a completed `semop()` does to the semaphore. -/
theorem semop_eq_some {set set' : SemSet} {op : ℤ} (h : semop set op = some set') :
    set'.val = set.val + op ∧ set'.otime = true := by
  unfold semop at h
  split at h
  · rename_i hop
    split at h
    · rw [Option.some.injEq] at h
      rw [← h, hop, Int.add_zero]
      exact ⟨rfl, rfl⟩
    · exact nomatch h
  · split at h
    · rw [Option.some.injEq] at h
      rw [← h]
      exact ⟨rfl, rfl⟩
    · exact nomatch h

/-- A last operation: the sum grows by it, and the process is not in the history yet. -/
theorem phase_final {arg : ℤ} {s : State} {p c : ℕ} {t : List Event} {set : SemSet}
    (htrace : s.trace = .created c :: .setval c :: .dummy c :: t) (ht : OnlyFinals t)
    (hpc : ∀ p, s.pc p ≠ .setval ∧ s.pc p ≠ .dummy) (hdone : ∀ p ∈ finals t, s.pc p = .done)
    (hnodup : (finals t).Nodup) (hp : s.pc p = .final)
    (hop : semop ⟨(finalOps t).sum, true⟩ (sem_op arg) = some set) :
    Phase ({ s with set := some set, trace := s.trace ++ [Event.final p (sem_op arg)] }.goto p
      .done) := by
  obtain ⟨hval, hot⟩ := semop_eq_some hop
  refine .running c (t ++ [.final p (sem_op arg)]) ?_ ?_ ?_ ?_ ?_ ?_
  · have hsum : (finalOps (t ++ [.final p (sem_op arg)])).sum = set.val := by
      rw [finalOps_append, List.sum_append, hval]
      simp only [finalOps, List.sum_cons, List.sum_nil, add_zero]
    rw [hsum, ← hot]
    rfl
  · simp only [State.goto, htrace, List.cons_append]
  · intro e he
    rw [List.mem_append, List.mem_singleton] at he
    rcases he with he | rfl
    · exact ht e he
    · exact ⟨p, _, rfl⟩
  · intro q
    by_cases hq : q = p
    · rw [hq, goto_self]
      exact ⟨nofun, nofun⟩
    · rw [goto_of_ne _ _ hq]
      exact hpc q
  · intro q hq
    by_cases hqp : q = p
    · rw [hqp, goto_self]
    · rw [goto_of_ne _ _ hqp]
      rw [finals_append, List.mem_append] at hq
      refine hdone q (hq.resolve_right fun hq => hqp ?_)
      exact List.mem_singleton.mp hq
  · -- a process that has operated is done, and this one was not
    rw [finals_append]
    refine List.nodup_append.mpr ⟨hnodup, List.nodup_singleton p, ?_⟩
    intro q hq r hr hqr
    rw [List.mem_singleton.mp hr] at hqr
    have hd := hdone q hq
    rw [hqr, hp] at hd
    exact nomatch hd

theorem phase_running {arg v₀ : ℤ} {s s' : State} {p c : ℕ} {t : List Event}
    (hset : s.set = some ⟨(finalOps t).sum, true⟩)
    (htrace : s.trace = .created c :: .setval c :: .dummy c :: t) (ht : OnlyFinals t)
    (hpc : ∀ p, s.pc p ≠ .setval ∧ s.pc p ≠ .dummy) (hdone : ∀ p ∈ finals t, s.pc p = .done)
    (hnodup : (finals t).Nodup) (h : call arg v₀ s p = some s') : Phase s' := by
  -- a move to a place outside the creator's branch, of a process that is not done
  have hmove : ∀ pc : Pc, pc ≠ .setval → pc ≠ .dummy → s.pc p ≠ .done → Phase (s.goto p pc) := by
    intro pc h₁ h₂ hnot
    refine .running c t hset htrace ht ?_ ?_ hnodup
    · intro q
      by_cases hq : q = p
      · rw [hq, goto_self]
        exact ⟨h₁, h₂⟩
      · rw [goto_of_ne _ _ hq]
        exact hpc q
    · intro q hq
      have hd := hdone q hq
      rw [goto_of_ne]
      · exact hd
      · rintro rfl
        exact hnot hd
  cases hp : s.pc p with
  | start =>
    simp only [call, hp, hset, Option.some.injEq] at h
    rw [← h]
    exact hmove _ nofun nofun (by rw [hp]; exact nofun)
  | getId =>
    simp only [call, hp, Option.some.injEq] at h
    rw [← h]
    exact hmove _ nofun nofun (by rw [hp]; exact nofun)
  | stat j =>
    simp only [call, hp, hset, Option.map_some, if_true, Option.some.injEq] at h
    rw [← h]
    exact hmove _ nofun nofun (by rw [hp]; exact nofun)
  | final =>
    simp only [call, hp, hset, Option.bind_some, Option.map_eq_some_iff] at h
    obtain ⟨set, hop, rfl⟩ := h
    exact phase_final htrace ht hpc hdone hnodup hp hop
  | setval => exact absurd hp (hpc p).1
  | dummy => exact absurd hp (hpc p).2
  | done => simp only [call, hp, reduceCtorEq] at h
  | gaveUp => simp only [call, hp, reduceCtorEq] at h

theorem phase_of_reachable {arg : ℕ → ℤ} {s : State} (h : Reachable (goodInit arg) s) :
    Phase s := by
  apply h.invariant
  · rintro s ⟨hset, hpc, htrace⟩
    exact .nothing hset htrace hpc
  · intro s a s' hi _ hs
    simp only [goodInit] at hs
    cases hi with
    | nothing hset htrace hpc =>
      -- the one `semget()` that creates
      simp only [call, hpc a.p, hset, Option.some.injEq] at hs
      subst hs
      refine .created a.p a.v rfl ?_ (goto_self _ _ _) ?_
      · simp only [State.goto, htrace, List.nil_append]
      · intro q hq
        rw [goto_of_ne _ _ hq]
        exact (congrArg Pc.outside (hpc q)).trans rfl
    | created c v hset htrace hc hpc => exact phase_created hset htrace hc hpc hs
    | cleared c hset htrace hc hpc => exact phase_cleared hset htrace hc hpc hs
    | running c t hset htrace ht hpc hdone hnodup =>
      exact phase_running hset htrace ht hpc hdone hnodup hs

/-! ## What the program guarantees -/

/-- One process takes the creator's branch, once. -/
theorem Phase.one_creator {s : State} (h : Phase s) {p : ℕ} {t₁ t₂ : List Event}
    (hp : s.trace = t₁ ++ .created p :: t₂) (q : ℕ) : .created q ∉ t₁ ++ t₂ := by
  -- every history begins with the creation, and has no other
  have hhead : ∀ c t, s.trace = .created c :: t → (∀ r, Event.created r ∉ t) →
      .created q ∉ t₁ ++ t₂ := by
    intro c t htrace hno
    rw [htrace] at hp
    cases t₁ with
    | nil =>
      rw [List.nil_append, List.cons.injEq] at hp
      rw [List.nil_append, ← hp.2]
      exact hno q
    | cons e t₁ =>
      rw [List.cons_append, List.cons.injEq] at hp
      exact absurd (hp.2 ▸ List.mem_append_right t₁ List.mem_cons_self) (hno p)
  cases h with
  | nothing hset htrace hpc =>
    rw [htrace] at hp
    exact absurd hp.symm (List.append_ne_nil_of_right_ne_nil _ (List.cons_ne_nil _ _))
  | created c v hset htrace hc hpc => exact hhead c _ htrace nofun
  | cleared c hset htrace hc hpc =>
    refine hhead c _ htrace fun r hr => ?_
    exact nomatch List.mem_singleton.mp hr
  | running c t hset htrace ht hpc hdone hnodup =>
    refine hhead c _ htrace fun r hr => ?_
    rw [List.mem_cons, List.mem_cons] at hr
    rcases hr with hr | hr | hr
    · exact nomatch hr
    · exact nomatch hr
    · obtain ⟨_, _, heq⟩ := ht _ hr
      exact nomatch heq

/-- Whoever has come to its operation has the creator's three calls behind it. -/
theorem Phase.initialised {s : State} (h : Phase s) {p : ℕ}
    (hp : s.pc p = .final ∨ s.pc p = .done) :
    ∃ c, [.created c, .setval c, .dummy c] <+: s.trace := by
  have hbefore : ∀ c (pc : Pc), s.pc c = pc → pc ≠ .final → pc ≠ .done →
      (∀ q, q ≠ c → (s.pc q).outside) → False := by
    intro c pc hc h₁ h₂ hpc
    by_cases hpc' : p = c
    · rw [hpc', hc] at hp
      exact hp.elim h₁ h₂
    · have hout := hpc p hpc'
      rcases hp with hp | hp <;> rw [hp] at hout <;> exact nomatch hout
  cases h with
  | nothing hset htrace hpc =>
    rw [hpc p] at hp
    exact nomatch hp
  | created c v hset htrace hc hpc => exact (hbefore c _ hc nofun nofun hpc).elim
  | cleared c hset htrace hc hpc => exact (hbefore c _ hc nofun nofun hpc).elim
  | running c t hset htrace ht hpc hdone hnodup => exact ⟨c, t, htrace.symm⟩

/-- `SETVAL` comes before every last operation. -/
theorem Phase.setval_first {s : State} (h : Phase s) {c : ℕ} {t₁ t₂ : List Event}
    (hc : s.trace = t₁ ++ .setval c :: t₂) (p : ℕ) (op : ℤ) : .final p op ∉ t₁ := by
  -- nothing but the creation can stand in front of it
  have hfront : ∀ d u t, s.trace = .created d :: .setval d :: u → OnlyFinals t →
      (u = [] ∨ u = .dummy d :: t) → .final p op ∉ t₁ := by
    intro d u t htrace ht hu hmem
    rw [htrace] at hc
    match t₁, hmem, hc with
    | [e], hmem, hc =>
      rw [List.cons_append, List.cons.injEq] at hc
      rw [List.mem_singleton, ← hc.1] at hmem
      exact nomatch hmem
    | e :: e' :: t₁, hmem, hc =>
      simp only [List.cons_append, List.cons.injEq] at hc
      have hin : Event.setval c ∈ u := hc.2.2 ▸ List.mem_append_right t₁ List.mem_cons_self
      rcases hu with rfl | rfl
      · exact nomatch hin
      · rcases List.mem_cons.mp hin with hin | hin
        · exact nomatch hin
        · obtain ⟨_, _, heq⟩ := ht _ hin
          exact nomatch heq
  cases h with
  | nothing hset htrace hpc =>
    rw [htrace] at hc
    exact absurd hc.symm (List.append_ne_nil_of_right_ne_nil _ (List.cons_ne_nil _ _))
  | created d v hset htrace hd hpc =>
    rw [htrace] at hc
    match t₁, hc with
    | [], hc => exact List.not_mem_nil
    | e :: t₁, hc =>
      rw [List.cons_append, List.cons.injEq] at hc
      exact absurd hc.2.symm (List.append_ne_nil_of_right_ne_nil _ (List.cons_ne_nil _ _))
  | cleared d hset htrace hd hpc => exact hfront d [] [] htrace nofun (Or.inl rfl)
  | running d t hset htrace ht hpc hdone hnodup =>
    exact hfront d (.dummy d :: t) t htrace ht (Or.inr rfl)

/-- From `SETVAL` on the value is the sum of the last operations. -/
theorem Phase.value {s : State} (h : Phase s) {c : ℕ} (hc : .setval c ∈ s.trace) :
    ∃ set, s.set = some set ∧ set.val = 0 + (finalOps s.trace).sum := by
  cases h with
  | nothing hset htrace hpc =>
    rw [htrace] at hc
    exact nomatch hc
  | created d v hset htrace hd hpc =>
    rw [htrace, List.mem_singleton] at hc
    exact nomatch hc
  | cleared d hset htrace hd hpc =>
    rw [htrace]
    exact ⟨_, hset, rfl⟩
  | running d t hset htrace ht hpc hdone hnodup =>
    rw [htrace]
    exact ⟨_, hset, (zero_add _).symm⟩

theorem Phase.finals_nodup {s : State} (h : Phase s) : (finals s.trace).Nodup := by
  cases h with
  | nothing hset htrace hpc => rw [htrace]; exact List.nodup_nil
  | created c v hset htrace hc hpc => rw [htrace]; exact List.nodup_nil
  | cleared c hset htrace hc hpc => rw [htrace]; exact List.nodup_nil
  | running c t hset htrace ht hpc hdone hnodup => rw [htrace]; exact hnodup

/-- **The initialisation race**, in every state of every interleaving: one process at most
takes the creator's branch; whoever comes to its own operation has the creator's `SETVAL`
and no-op behind it; `SETVAL` follows no last operation, and from then on the value is 0
plus the last operations performed; no process performs its own twice. -/
theorem good_init_race (arg : ℕ → ℤ) (s : State) (h : Reachable (goodInit arg) s) :
    (∀ t₁ t₂ p q, s.trace = t₁ ++ .created p :: t₂ → .created q ∉ t₁ ++ t₂) ∧
      (∀ p, s.pc p = .final ∨ s.pc p = .done →
        ∃ c, [.created c, .setval c, .dummy c] <+: s.trace) ∧
      (∀ t₁ t₂ c p op, s.trace = t₁ ++ .setval c :: t₂ → .final p op ∉ t₁) ∧
      (∀ c, .setval c ∈ s.trace →
        ∃ set, s.set = some set ∧ set.val = 0 + (finalOps s.trace).sum) ∧
      (finals s.trace).Nodup := by
  have hphase := phase_of_reachable h
  refine ⟨?_, ?_, ?_, ?_, hphase.finals_nodup⟩
  · intro t₁ t₂ p q hp
    exact hphase.one_creator hp q
  · intro p hp
    exact hphase.initialised hp
  · intro t₁ t₂ c p op hc
    exact hphase.setval_first hc p op
  · intro c hc
    exact hphase.value hc

/-- Process 1 creates, 2 polls before and after the initialisation, and 2 operates first. -/
theorem good_init_race_two_processes : ∃ s, Reachable (goodInit fun p => 3 * p) s ∧
    finalOps s.trace = [6, 3] ∧ ∃ set, s.set = some set ∧ set.val = 0 + (finalOps s.trace).sum := by
  have hrun : ((goodInit fun p => 3 * p).run ⟨none, fun _ => .start, []⟩
      [⟨1, 5⟩, ⟨2, 0⟩, ⟨2, 0⟩, ⟨2, 0⟩, ⟨1, 0⟩, ⟨2, 0⟩, ⟨1, 0⟩, ⟨2, 0⟩, ⟨2, 0⟩, ⟨1, 0⟩]).map State.trace
      = some [.created 1, .setval 1, .dummy 1, .final 2 6, .final 1 3] := by decide
  obtain ⟨s, hs, htrace⟩ := Option.map_eq_some_iff.mp hrun
  have hreach : Reachable (goodInit fun p => 3 * p) s :=
    System.reachable_of_run _ (.init ⟨rfl, fun _ => rfl, rfl⟩) hs
  refine ⟨s, hreach, by rw [htrace]; rfl, ?_⟩
  exact (good_init_race _ s hreach).2.2.2.1 1 (by rw [htrace]; decide)

end Tlpi.SvsemGoodInit
