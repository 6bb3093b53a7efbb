/-
`namespaces/namespaces_of.go`: the table of namespaces that the program builds, and what it
shows of it.

`addNamespace` is given a descriptor; the namespaces above it are found by asking the kernel
(`ioctlGet`), one after the other, and get their entries before the namespace is made a child
of the one directly above it. So in the middle of the recursion there are entries that are in
no children list yet. The invariant (`Table`) carries them as a list of its own, `half`, and
what the recursion needs is that no namespace above the one it is asked for is in it.

The kernel is a parameter (`Nsfs`): any kernel that answers the same for two descriptors of
one namespace, in which there is no endless way up, and which has no namespace with device and
inode number 0. An error other than EPERM ends the program and is left out, as are the UID and
GID maps of an entry.
-/
import Mathlib.Algebra.Order.BigOperators.Group.List
import Mathlib.Algebra.Order.Group.Nat
import Mathlib.Data.Fin.VecNotation
import Mathlib.Data.UInt
import Mathlib.Logic.Function.Basic
import Mathlib.Tactic.Common
import Tlpi.Forest

set_option autoImplicit false

namespace Tlpi.NamespacesOf

open Tlpi.Forest

/-! ## 1. The data -/

/-- `namespaceID`: a device ID and an inode number. -/
structure NamespaceID where
  device : UInt64
  inode : UInt64
deriving Repr, DecidableEq

/-- `invisUserNS`: the key of the entry whose children are the namespaces with an owner that
is not visible. -/
def invisUserNS : NamespaceID := ⟨0, 0⟩

/-- `CLONE_NEWUSER`. -/
abbrev CLONE_NEWUSER : ℕ := 0x10000000

/-- `CLONE_NEWPID`. -/
abbrev CLONE_NEWPID : ℕ := 0x20000000

/-- `CLONE_NEWUTS`. -/
abbrev CLONE_NEWUTS : ℕ := 0x04000000

/-- The two operations that give a descriptor for what is above a namespace. -/
inductive IoctlOp where
  | NS_GET_USERNS
  | NS_GET_PARENT
deriving Repr, DecidableEq

/-- `struct namespace`, with Go's zero values. -/
structure Namespace where
  nsType : ℕ := 0
  pids : List ℤ := []
  children : List NamespaceID := []
  creatorUID : ℕ := 0
deriving Repr, DecidableEq

/-- `struct namespaceInfo`: a map of entries, and the namespace the display starts from. -/
structure NamespaceInfo where
  nsList : NamespaceID → Option Namespace := fun _ => none
  rootNS : NamespaceID := ⟨0, 0⟩

/-- What of `cmdLineOptions` the modelled functions read (`--subtree` is not given). -/
structure CmdLineOptions where
  showPidnsHierarchy : Bool
  namespaces : ℕ
deriving Repr, DecidableEq

/-- The kernel's answers about a descriptor: `fstat`, NS_GET_NSTYPE, NS_GET_OWNER_UID, and
NS_GET_USERNS and NS_GET_PARENT, where `none` is EPERM. -/
structure Nsfs (Fd : Type) where
  fstat : Fd → NamespaceID
  nsType : Fd → ℕ
  ownerUID : Fd → ℕ
  ioctlGet : IoctlOp → Fd → Option Fd
  nsType_eq : ∀ a b, fstat a = fstat b → nsType a = nsType b
  ioctlGet_eq : ∀ op a b, fstat a = fstat b →
    (ioctlGet op a).map fstat = (ioctlGet op b).map fstat
  grounded : ∀ op, WellFounded fun p c => ∃ a b, fstat a = c ∧ ioctlGet op a = some b ∧ fstat b = p
  fstat_ne : ∀ fd, fstat fd ≠ invisUserNS

variable {Fd : Type}

/-! ## 2. Building the table -/

namespace NamespaceInfo

/-- `nsi.nsList[x] = e`. -/
def set (nsi : NamespaceInfo) (x : NamespaceID) (e : Namespace) : NamespaceInfo :=
  { nsi with nsList := Function.update nsi.nsList x (some e) }

/-- `nsi.nsList[x]` and then one of its fields assigned: a nil pointer is dereferenced if there
is no such entry. -/
def modify (nsi : NamespaceInfo) (x : NamespaceID) (f : Namespace → Namespace) :
    Except Stop NamespaceInfo :=
  match nsi.nsList x with
  | none => .error .missing
  | some e => .ok (nsi.set x (f e))

/-- `nsi.nsList[x].children = append(nsi.nsList[x].children, nsid)`. -/
def appendChild (nsi : NamespaceInfo) (x nsid : NamespaceID) : Except Stop NamespaceInfo :=
  nsi.modify x fun e => { e with children := e.children ++ [nsid] }

/-- `nsi.nsList[x].pids = append(nsi.nsList[x].pids, pid)`. -/
def appendPid (nsi : NamespaceInfo) (x : NamespaceID) (pid : ℤ) : Except Stop NamespaceInfo :=
  nsi.modify x fun e => { e with pids := e.pids ++ [pid] }

/-- The special parent entry is made if it does not yet exist. -/
def addInvisUserNS (nsi : NamespaceInfo) : NamespaceInfo :=
  if (nsi.nsList invisUserNS).isSome then nsi
  else nsi.set invisUserNS { nsType := CLONE_NEWUSER }

end NamespaceInfo

/-- The operation that gives what is above a namespace. -/
def ioctlOp (opts : CmdLineOptions) : IoctlOp :=
  if opts.showPidnsHierarchy then .NS_GET_PARENT else .NS_GET_USERNS

/-- The entry as it is before the namespace above it is asked for. -/
def newEntry (k : Nsfs Fd) (nsfd : Fd) : Namespace :=
  { nsType := k.nsType nsfd
    creatorUID := if k.nsType nsfd = CLONE_NEWUSER then k.ownerUID nsfd else 0 }

mutual

/-- `addNamespace`. -/
def addNamespace (k : Nsfs Fd) (opts : CmdLineOptions) :
    ℕ → NamespaceInfo → Fd → ℤ → Except Stop (NamespaceInfo × NamespaceID)
  | 0, _, _, _ => .error .outOfFuel
  | fuel + 1, nsi, nsfd, pid => do
    let nsid := k.fstat nsfd
    -- a namespace that is known is not asked about again
    let nsi ← (if (nsi.nsList nsid).isSome then .ok nsi
      else addNamespaceToList k opts fuel nsi nsid nsfd)
    let nsi ← (if 0 < pid then nsi.appendPid nsid pid else .ok nsi)
    return (nsi, nsid)

/-- `addNamespaceToList`. -/
def addNamespaceToList (k : Nsfs Fd) (opts : CmdLineOptions) :
    ℕ → NamespaceInfo → NamespaceID → Fd → Except Stop NamespaceInfo
  | 0, _, _, _ => .error .outOfFuel
  | fuel + 1, nsi, nsid, nsfd =>
    let nsi := nsi.set nsid (newEntry k nsfd)
    match k.ioctlGet (ioctlOp opts) nsfd with
    | none =>
      if k.nsType nsfd = CLONE_NEWUSER ∨ ioctlOp opts = .NS_GET_PARENT then
        -- whatever was topmost before is forgotten
        .ok { nsi with rootNS := nsid }
      else
        nsi.addInvisUserNS.appendChild invisUserNS nsid
    | some parentFD => do
      -- no PID: nothing is known of the members of what is above
      let (nsi, parent) ← addNamespace k opts fuel nsi parentFD (-1)
      nsi.appendChild parent nsid

end

/-- A sequence of calls of `addNamespace`. -/
def addNamespaces (k : Nsfs Fd) (opts : CmdLineOptions) (fuel : ℕ) :
    NamespaceInfo → List (Fd × ℤ) → Except Stop NamespaceInfo
  | nsi, [] => .ok nsi
  | nsi, (nsfd, pid) :: calls => do
    let (nsi, _) ← addNamespace k opts fuel nsi nsfd pid
    addNamespaces k opts fuel nsi calls

/-! ## 3. What is above a namespace

`link` puts the two cases of EPERM and the answer of the kernel together: what the entry of a
namespace is to be a child of. -/

/-- The namespace is topmost: there is nothing above it that the caller may see, and it is one
the display could start from. -/
def Topmost (k : Nsfs Fd) (opts : CmdLineOptions) (fd : Fd) : Prop :=
  k.ioctlGet (ioctlOp opts) fd = none ∧
    (k.nsType fd = CLONE_NEWUSER ∨ ioctlOp opts = .NS_GET_PARENT)

/-- The owner of the namespace is not visible. -/
def Invisible (k : Nsfs Fd) (opts : CmdLineOptions) (fd : Fd) : Prop :=
  k.ioctlGet (ioctlOp opts) fd = none ∧
    ¬(k.nsType fd = CLONE_NEWUSER ∨ ioctlOp opts = .NS_GET_PARENT)

/-- What the entry of the namespace is to be a child of. -/
def linkFd (k : Nsfs Fd) (opts : CmdLineOptions) (fd : Fd) : Option NamespaceID :=
  match k.ioctlGet (ioctlOp opts) fd with
  | some p => some (k.fstat p)
  | none => if k.nsType fd = CLONE_NEWUSER ∨ ioctlOp opts = .NS_GET_PARENT then none
    else some invisUserNS

open Classical in
/-- `linkFd`, of the namespace itself. -/
noncomputable def link (k : Nsfs Fd) (opts : CmdLineOptions) (x : NamespaceID) :
    Option NamespaceID :=
  if h : ∃ fd, k.fstat fd = x then linkFd k opts h.choose else none

section Link

variable {k : Nsfs Fd} {opts : CmdLineOptions}

theorem linkFd_of_some {fd p : Fd} (h : k.ioctlGet (ioctlOp opts) fd = some p) :
    linkFd k opts fd = some (k.fstat p) := by
  rw [linkFd, h]

theorem linkFd_of_topmost {fd : Fd} (h : Topmost k opts fd) : linkFd k opts fd = none := by
  rw [linkFd, h.1]
  exact if_pos h.2

theorem linkFd_of_invisible {fd : Fd} (h : Invisible k opts fd) :
    linkFd k opts fd = some invisUserNS := by
  rw [linkFd, h.1]
  exact if_neg h.2

/-- The three answers. -/
theorem fd_cases (k : Nsfs Fd) (opts : CmdLineOptions) (fd : Fd) :
    (∃ p, k.ioctlGet (ioctlOp opts) fd = some p) ∨ Topmost k opts fd ∨ Invisible k opts fd := by
  rw [Topmost, Invisible]
  cases k.ioctlGet (ioctlOp opts) fd with
  | some p => exact .inl ⟨p, rfl⟩
  | none => exact .inr (by tauto)

theorem linkFd_eq {a b : Fd} (h : k.fstat a = k.fstat b) : linkFd k opts a = linkFd k opts b := by
  have hparent := k.ioctlGet_eq (ioctlOp opts) a b h
  rw [linkFd, linkFd, k.nsType_eq a b h]
  cases ha : k.ioctlGet (ioctlOp opts) a <;> cases hb : k.ioctlGet (ioctlOp opts) b <;>
    rw [ha, hb] at hparent <;> simp_all

theorem link_fstat (fd : Fd) : link k opts (k.fstat fd) = linkFd k opts fd := by
  have hex : ∃ fd', k.fstat fd' = k.fstat fd := ⟨fd, rfl⟩
  rw [link, dif_pos hex]
  exact linkFd_eq hex.choose_spec

/-- The special entry is a child of nothing. -/
theorem link_invis : link k opts invisUserNS = none := by
  rw [link, dif_neg]
  rintro ⟨fd, hfd⟩
  exact k.fstat_ne fd hfd

/-- Only a namespace has something above it. -/
theorem exists_of_link {x p : NamespaceID} (h : link k opts x = some p) : ∃ fd, k.fstat fd = x := by
  by_contra hno
  rw [link, dif_neg hno] at h
  exact nomatch h

/-- There is no endless way up, the step to the special entry included. -/
theorem grounded_link : Grounded (link k opts) := by
  have hinvis : Acc (fun p c => link k opts c = some p) invisUserNS := by
    refine ⟨_, fun q hq => ?_⟩
    rw [link_invis] at hq
    exact nomatch hq
  refine ⟨fun x => ?_⟩
  -- by the way up that the kernel answers; the special entry is one step further, and the last
  induction x using (k.grounded (ioctlOp opts)).induction with
  | _ x ih =>
    refine ⟨_, fun q hq => ?_⟩
    obtain ⟨fd, rfl⟩ := exists_of_link hq
    rw [link_fstat] at hq
    rcases fd_cases k opts fd with ⟨p, hp⟩ | htop | hinv
    · rw [linkFd_of_some hp, Option.some.injEq] at hq
      exact ih q ⟨fd, p, rfl, hp, hq⟩
    · rw [linkFd_of_topmost htop] at hq
      exact nomatch hq
    · rw [linkFd_of_invisible hinv, Option.some.injEq] at hq
      exact hq ▸ hinvis

end Link

/-! ## 4. The invariant of the table -/

/-- The entries of the table are linked as the kernel says, but for those of `half`, which are
in no children list yet. -/
structure Table (k : Nsfs Fd) (opts : CmdLineOptions) (half : List NamespaceID)
    (nsi : NamespaceInfo) : Prop where
  mem : ∀ x e, nsi.nsList x = some e → ∀ c ∈ e.children,
    (nsi.nsList c).isSome ∧ link k opts c = some x ∧ c ∉ half
  nodup : ∀ x e, nsi.nsList x = some e → e.children.Nodup
  linked : ∀ c x, (nsi.nsList c).isSome → c ∉ half → link k opts c = some x →
    ∃ e, nsi.nsList x = some e ∧ c ∈ e.children
  typed : ∀ fd e, nsi.nsList (k.fstat fd) = some e → e.nsType = k.nsType fd
  invis : ∀ e, nsi.nsList invisUserNS = some e → e.nsType = CLONE_NEWUSER
  real : ∀ x, (nsi.nsList x).isSome → x ≠ invisUserNS → ∃ fd, k.fstat fd = x
  root : nsi.rootNS ≠ invisUserNS → (nsi.nsList nsi.rootNS).isSome ∧ link k opts nsi.rootNS = none
  rootless : nsi.rootNS = invisUserNS → ∀ x, (nsi.nsList x).isSome → x ∉ half →
    x ≠ invisUserNS → link k opts x ≠ none

/-- The PIDs in the entry of a namespace, none if there is no entry. -/
def pidsOf (nsi : NamespaceInfo) (x : NamespaceID) : List ℤ :=
  ((nsi.nsList x).map Namespace.pids).getD []

@[simp] theorem NamespaceInfo.set_nsList (nsi : NamespaceInfo) (x y : NamespaceID)
    (e : Namespace) : (nsi.set x e).nsList y = if y = x then some e else nsi.nsList y :=
  Function.update_apply _ _ _ _

theorem NamespaceInfo.modify_of_some {nsi : NamespaceInfo} {x : NamespaceID} {e : Namespace}
    (f : Namespace → Namespace) (h : nsi.nsList x = some e) :
    nsi.modify x f = .ok (nsi.set x (f e)) := by
  rw [NamespaceInfo.modify, h]

theorem pidsOf_set {nsi : NamespaceInfo} {x : NamespaceID} {e : Namespace}
    (h : e.pids = pidsOf nsi x) (y : NamespaceID) : pidsOf (nsi.set x e) y = pidsOf nsi y := by
  rw [pidsOf, NamespaceInfo.set_nsList]
  split
  · rename_i hy
    rw [hy, ← h]
    rfl
  · rfl

theorem isSome_set {nsi : NamespaceInfo} {x y : NamespaceID} {e : Namespace} :
    ((nsi.set x e).nsList y).isSome ↔ y = x ∨ (nsi.nsList y).isSome := by
  rw [NamespaceInfo.set_nsList]
  split <;> simp_all

section Steps

variable {k : Nsfs Fd} {opts : CmdLineOptions} {half : List NamespaceID} {nsi : NamespaceInfo}

theorem Table.empty : Table k opts [] {} where
  mem := fun _ _ h => nomatch h
  nodup := fun _ _ h => nomatch h
  linked := fun _ _ h => nomatch h
  typed := fun _ _ h => nomatch h
  invis := fun _ h => nomatch h
  real := fun _ h => nomatch h
  root := fun h => absurd rfl h
  rootless := fun _ _ h => nomatch h

/-- A new entry, which is in no children list yet. -/
theorem Table.insert (h : Table k opts half nsi) {x : NamespaceID} {e : Namespace}
    (hx : nsi.nsList x = none) (hchildren : e.children = [])
    (htyped : ∀ fd, k.fstat fd = x → e.nsType = k.nsType fd)
    (hinvis : x = invisUserNS → e.nsType = CLONE_NEWUSER)
    (hreal : x ≠ invisUserNS → ∃ fd, k.fstat fd = x) : Table k opts (x :: half) (nsi.set x e) := by
  have hne : ∀ {y e'}, nsi.nsList y = some e' → y ≠ x := by
    rintro y e' hy rfl
    exact nomatch hx.symm.trans hy
  have hne' : ∀ {y}, (nsi.nsList y).isSome → y ≠ x := by
    intro y hy
    obtain ⟨e', he'⟩ := Option.isSome_iff_exists.mp hy
    exact hne he'
  -- an entry is the new one, or was there
  have hentry : ∀ {y e'}, (nsi.set x e).nsList y = some e' →
      (y = x ∧ e' = e) ∨ nsi.nsList y = some e' := by
    intro y e' hy
    rw [NamespaceInfo.set_nsList] at hy
    split at hy
    · rename_i hyx
      exact .inl ⟨hyx, (Option.some.inj hy).symm⟩
    · exact .inr hy
  refine ⟨?_, ?_, ?_, ?_, ?_, ?_, ?_, ?_⟩
  · intro y e' hy c hc
    rcases hentry hy with ⟨-, rfl⟩ | hy
    · rw [hchildren] at hc
      exact absurd hc List.not_mem_nil
    · obtain ⟨hsome, hlink, hhalf⟩ := h.mem y e' hy c hc
      refine ⟨isSome_set.mpr (.inr hsome), hlink, ?_⟩
      rw [List.mem_cons, not_or]
      exact ⟨hne' hsome, hhalf⟩
  · intro y e' hy
    rcases hentry hy with ⟨-, rfl⟩ | hy
    · rw [hchildren]
      exact List.nodup_nil
    · exact h.nodup y e' hy
  · intro c y hc hhalf hlink
    rw [List.mem_cons, not_or] at hhalf
    obtain ⟨e', he', hmem⟩ := h.linked c y ((isSome_set.mp hc).resolve_left hhalf.1) hhalf.2 hlink
    refine ⟨e', ?_, hmem⟩
    rw [NamespaceInfo.set_nsList, if_neg (hne he'), he']
  · intro fd e' hfd
    rcases hentry hfd with ⟨hx', rfl⟩ | hfd
    · exact htyped fd hx'
    · exact h.typed fd e' hfd
  · intro e' he'
    rcases hentry he' with ⟨hx', rfl⟩ | he'
    · exact hinvis hx'.symm
    · exact h.invis e' he'
  · intro y hy hyinvis
    rcases isSome_set.mp hy with rfl | hy
    · exact hreal hyinvis
    · exact h.real y hy hyinvis
  · intro hroot
    obtain ⟨hsome, hlink⟩ := h.root hroot
    exact ⟨isSome_set.mpr (.inr hsome), hlink⟩
  · intro hroot y hy hhalf
    rw [List.mem_cons, not_or] at hhalf
    exact h.rootless hroot y ((isSome_set.mp hy).resolve_left hhalf.1) hhalf.2

/-- A namespace with nothing above it is in no children list: it is whole once it is known where
the display starts. -/
theorem Table.whole {x : NamespaceID} (r : NamespaceID) (h : Table k opts (x :: half) nsi)
    (hlink : link k opts x = none)
    (hroot : r ≠ invisUserNS → (nsi.nsList r).isSome ∧ link k opts r = none)
    (hrootless : r = invisUserNS → nsi.rootNS = invisUserNS ∧ x = invisUserNS) :
    Table k opts half { nsi with rootNS := r } where
  mem := fun y e hy c hc => by
    obtain ⟨hsome, hlink, hhalf⟩ := h.mem y e hy c hc
    exact ⟨hsome, hlink, fun hc' => hhalf (List.mem_cons_of_mem _ hc')⟩
  nodup := h.nodup
  linked := fun c y hc hhalf hlink' => by
    refine h.linked c y hc ?_ hlink'
    rw [List.mem_cons, not_or]
    refine ⟨?_, hhalf⟩
    rintro rfl
    exact nomatch hlink.symm.trans hlink'
  typed := h.typed
  invis := h.invis
  real := h.real
  root := hroot
  rootless := fun hr y hy hhalf hinvis => by
    obtain ⟨hroot', rfl⟩ := hrootless hr
    apply h.rootless hroot' y hy _ hinvis
    rw [List.mem_cons, not_or]
    exact ⟨hinvis, hhalf⟩

theorem Table.addInvisUserNS (h : Table k opts half nsi) :
    Table k opts half nsi.addInvisUserNS := by
  rw [NamespaceInfo.addInvisUserNS]
  split
  · exact h
  · rename_i hnone
    rw [Option.not_isSome_iff_eq_none] at hnone
    -- the display starts from where it did
    refine (h.insert hnone rfl ?_ (fun _ => rfl) ?_).whole nsi.rootNS link_invis ?_ fun hr => ⟨hr, rfl⟩
    · exact fun fd hfd => absurd hfd (k.fstat_ne fd)
    · exact fun hne => absurd rfl hne
    · intro hr
      obtain ⟨hsome, hlink⟩ := h.root hr
      exact ⟨isSome_set.mpr (.inr hsome), hlink⟩

theorem isSome_addInvisUserNS {y : NamespaceID} :
    (nsi.addInvisUserNS.nsList y).isSome ↔ (nsi.nsList y).isSome ∨ y = invisUserNS := by
  rw [NamespaceInfo.addInvisUserNS]
  split
  · rename_i hsome
    constructor
    · exact .inl
    · rintro (hy | rfl)
      · exact hy
      · exact hsome
  · rw [isSome_set, or_comm]

theorem pidsOf_addInvisUserNS (y : NamespaceID) :
    pidsOf nsi.addInvisUserNS y = pidsOf nsi y := by
  rw [NamespaceInfo.addInvisUserNS]
  split
  · rfl
  · rename_i hnone
    rw [Option.not_isSome_iff_eq_none] at hnone
    refine pidsOf_set ?_ y
    rw [pidsOf, hnone]
    rfl

/-- Keys stay keys when an entry is written over. -/
theorem isSome_set_of_some {x : NamespaceID} {e : Namespace} (hx : nsi.nsList x = some e)
    (e' : Namespace) (y : NamespaceID) : ((nsi.set x e').nsList y).isSome ↔ (nsi.nsList y).isSome := by
  rw [isSome_set]
  constructor
  · rintro (rfl | hy)
    · rw [hx]
      rfl
    · exact hy
  · exact .inr

/-- An entry is written over with one of its type, in which the children new are half made no
longer. -/
theorem Table.over {p : NamespaceID} {e e' : Namespace} (added : List NamespaceID)
    (h : Table k opts (added ++ half) nsi) (hp : nsi.nsList p = some e)
    (htype : e'.nsType = e.nsType) (hchildren : e'.children = e.children ++ added)
    (hadded : added.Nodup)
    (hnew : ∀ c ∈ added, (nsi.nsList c).isSome ∧ link k opts c = some p ∧ c ∉ half) :
    Table k opts half (nsi.set p e') := by
  have hkeys := isSome_set_of_some hp e'
  -- an entry other than that of `p` is as it was
  have hentry : ∀ {y e₁}, (nsi.set p e').nsList y = some e₁ →
      ∃ e₀, nsi.nsList y = some e₀ ∧ e₁.nsType = e₀.nsType ∧
        (e₁.children = e₀.children ∨ (y = p ∧ e₁.children = e₀.children ++ added)) := by
    intro y e₁ hy
    rw [NamespaceInfo.set_nsList] at hy
    split at hy
    · rename_i hyp
      rw [← Option.some.inj hy]
      exact ⟨e, hyp ▸ hp, htype, .inr ⟨hyp, hchildren⟩⟩
    · exact ⟨e₁, hy, rfl, .inl rfl⟩
  refine ⟨?_, ?_, ?_, ?_, ?_, ?_, ?_, ?_⟩
  · intro y e₁ hy d hd
    rw [hkeys]
    obtain ⟨e₀, hy, -, hch⟩ := hentry hy
    have hold : d ∈ e₀.children → (nsi.nsList d).isSome ∧ link k opts d = some y ∧ d ∉ half := by
      intro hd
      obtain ⟨hsome, hl, hh⟩ := h.mem y e₀ hy d hd
      exact ⟨hsome, hl, fun hd' => hh (List.mem_append_right _ hd')⟩
    rcases hch with hch | ⟨rfl, hch⟩
    · rw [hch] at hd
      exact hold hd
    · rw [hch, List.mem_append] at hd
      exact hd.elim hold (hnew d)
  · intro y e₁ hy
    obtain ⟨e₀, hy, -, hch⟩ := hentry hy
    rcases hch with hch | ⟨-, hch⟩
    · rw [hch]
      exact h.nodup y e₀ hy
    · -- a half made entry was in no children list
      rw [hch]
      refine (h.nodup y e₀ hy).append hadded fun d hd hd' => ?_
      exact (h.mem y e₀ hy d hd).2.2 (List.mem_append_left _ hd')
  · intro d y hd hhalf hlink
    rw [hkeys] at hd
    rw [NamespaceInfo.set_nsList]
    by_cases hda : d ∈ added
    · have hyp : y = p := Option.some.inj (hlink.symm.trans (hnew d hda).2.1)
      rw [if_pos hyp]
      exact ⟨e', rfl, hchildren ▸ List.mem_append_right _ hda⟩
    · have hd' : d ∉ added ++ half := by
        rw [List.mem_append, not_or]
        exact ⟨hda, hhalf⟩
      obtain ⟨e₀, hy, hmem⟩ := h.linked d y hd hd' hlink
      split
      · rename_i hyp
        rw [hyp, hp, Option.some.injEq] at hy
        exact ⟨e', rfl, hchildren ▸ List.mem_append_left _ (hy ▸ hmem)⟩
      · exact ⟨e₀, hy, hmem⟩
  · intro fd e₁ hfd
    obtain ⟨e₀, hfd, hty, -⟩ := hentry hfd
    rw [hty]
    exact h.typed fd e₀ hfd
  · intro e₁ he₁
    obtain ⟨e₀, he₀, hty, -⟩ := hentry he₁
    rw [hty]
    exact h.invis e₀ he₀
  · intro y hy
    exact h.real y ((hkeys y).mp hy)
  · intro hroot
    rw [hkeys]
    exact h.root hroot
  · intro hroot y hy hhalf hinvis hnone
    rw [hkeys] at hy
    apply h.rootless hroot y hy _ hinvis hnone
    rw [List.mem_append, not_or]
    refine ⟨?_, hhalf⟩
    intro hya
    exact nomatch hnone.symm.trans (hnew y hya).2.1

/-- A namespace is whole once it is in the children list of what is above it. -/
theorem Table.child_whole {c p : NamespaceID} {e : Namespace} (h : Table k opts (c :: half) nsi)
    (hc : (nsi.nsList c).isSome) (hhalf : c ∉ half) (hlink : link k opts c = some p)
    (hp : nsi.nsList p = some e) :
    Table k opts half (nsi.set p { e with children := e.children ++ [c] }) := by
  refine Table.over [c] h hp rfl rfl (List.nodup_singleton c) ?_
  intro d hd
  rw [List.mem_singleton.mp hd]
  exact ⟨hc, hlink, hhalf⟩

/-- The PIDs of an entry are no part of the links. -/
theorem Table.appendPid {x : NamespaceID} {e : Namespace} (h : Table k opts half nsi)
    (hx : nsi.nsList x = some e) (pid : ℤ) :
    Table k opts half (nsi.set x { e with pids := e.pids ++ [pid] }) := by
  refine Table.over [] h hx rfl (List.append_nil _).symm List.nodup_nil ?_
  exact fun c hc => absurd hc List.not_mem_nil

theorem pidsOf_appendPid {x : NamespaceID} {e : Namespace} (hx : nsi.nsList x = some e) (pid : ℤ)
    (y : NamespaceID) : pidsOf (nsi.set x { e with pids := e.pids ++ [pid] }) y =
      pidsOf nsi y ++ if y = x then [pid] else [] := by
  rw [pidsOf, NamespaceInfo.set_nsList]
  split
  · rename_i hy
    rw [hy, pidsOf, hx]
    rfl
  · rw [List.append_nil]
    rfl

/-- What is above an entry has an entry, if no namespace on the way is half made. -/
theorem Table.above (h : Table k opts half nsi) {x y : NamespaceID} (hx : (nsi.nsList x).isSome)
    (hhalf : ∀ z, Above (link k opts) x z → z ∉ half) (hxy : Above (link k opts) x y) :
    (nsi.nsList y).isSome := by
  induction hxy with
  | refl => exact hx
  | tail hxz hstep ih =>
    obtain ⟨e, he, -⟩ := h.linked _ _ ih (hhalf _ hxz) hstep
    rw [he]
    rfl

end Steps

/-! ## 5. One call -/

/-- What a call for the namespace `x` does to the table: the entries of `x` and of all that is
above it are there, `added` are the PIDs new in the entry of `x`, and the display starts from the end of
the way up if that is new, but not from the special entry. -/
structure Adds (k : Nsfs Fd) (opts : CmdLineOptions) (half : List NamespaceID)
    (nsi : NamespaceInfo) (x : NamespaceID) (added : List ℤ) (nsi' : NamespaceInfo) : Prop where
  table : Table k opts half nsi'
  keys : ∀ y, (nsi'.nsList y).isSome ↔ (nsi.nsList y).isSome ∨ Above (link k opts) x y
  pids : ∀ y, pidsOf nsi' y = pidsOf nsi y ++ if y = x then added else []
  root : ∀ t, Above (link k opts) x t → link k opts t = none → t ≠ invisUserNS →
    nsi'.rootNS = if (nsi.nsList t).isSome then nsi.rootNS else t

section Call

variable {k : Nsfs Fd} {opts : CmdLineOptions}

/-- With enough fuel the call for `x` returns, and does what it is to do. -/
def AddsAt (k : Nsfs Fd) (opts : CmdLineOptions) (x : NamespaceID) : Prop :=
  ∀ (fd : Fd) (half : List NamespaceID) (nsi : NamespaceInfo) (pid : ℤ), k.fstat fd = x →
    Table k opts half nsi → (∀ y, Above (link k opts) x y → y ∉ half) →
    ∃ nsi' N, (∀ fuel, N ≤ fuel → addNamespace k opts fuel nsi fd pid = .ok (nsi', x)) ∧
      Adds k opts half nsi x (if 0 < pid then [pid] else []) nsi'

/-- The last step for a namespace that has something above it. -/
theorem appendChild_adds {half : List NamespaceID} (nsi : NamespaceInfo) {nsi₁ : NamespaceInfo}
    {x p : NamespaceID}
    (htable : Table k opts (x :: half) nsi₁) (hhalf : x ∉ half) (hlink : link k opts x = some p)
    (hkeys : ∀ y, (nsi₁.nsList y).isSome ↔
      (nsi.nsList y).isSome ∨ y = x ∨ Above (link k opts) p y)
    (hpids : ∀ y, pidsOf nsi₁ y = pidsOf nsi y)
    (hroot : ∀ t, Above (link k opts) p t → link k opts t = none → t ≠ invisUserNS →
      nsi₁.rootNS = if (nsi.nsList t).isSome then nsi.rootNS else t) :
    ∃ nsi', nsi₁.appendChild p x = .ok nsi' ∧ Adds k opts half nsi x [] nsi' := by
  obtain ⟨e, he⟩ := Option.isSome_iff_exists.mp ((hkeys p).mpr (.inr (.inr .refl)))
  have hx : (nsi₁.nsList x).isSome := (hkeys x).mpr (.inr (.inl rfl))
  refine ⟨_, NamespaceInfo.modify_of_some _ he, htable.child_whole hx hhalf hlink he, ?_, ?_, ?_⟩
  · intro y
    rw [isSome_set_of_some he, hkeys, above_of_up hlink]
  · intro y
    rw [ite_self, List.append_nil, ← hpids]
    refine pidsOf_set ?_ y
    rw [pidsOf, he]
    rfl
  · intro t ht htop
    rcases (above_of_up hlink).mp ht with rfl | ht
    · rw [hlink] at htop
      exact nomatch htop
    · exact hroot t ht htop

/-- A new entry, once it is linked. -/
theorem addNamespaceToList_adds {fd : Fd} {half : List NamespaceID} {nsi : NamespaceInfo}
    (ih : ∀ p, link k opts (k.fstat fd) = some p → AddsAt k opts p)
    (htable : Table k opts half nsi)
    (hhalf : ∀ y, Above (link k opts) (k.fstat fd) y → y ∉ half)
    (hnew : nsi.nsList (k.fstat fd) = none) :
    ∃ nsi' N, (∀ fuel, N ≤ fuel → addNamespaceToList k opts fuel nsi (k.fstat fd) fd = .ok nsi') ∧
      Adds k opts half nsi (k.fstat fd) [] nsi' := by
  have hstart : Table k opts (k.fstat fd :: half) (nsi.set (k.fstat fd) (newEntry k fd)) := by
    refine htable.insert hnew rfl ?_ ?_ fun _ => ⟨fd, rfl⟩
    · intro fd' hfd'
      exact (k.nsType_eq fd' fd hfd').symm
    · exact fun h => absurd h (k.fstat_ne fd)
  have hpids : ∀ y, pidsOf (nsi.set (k.fstat fd) (newEntry k fd)) y = pidsOf nsi y := by
    refine pidsOf_set ?_
    rw [pidsOf, hnew]
    rfl
  have hlink : link k opts (k.fstat fd) = linkFd k opts fd := link_fstat fd
  rcases fd_cases k opts fd with ⟨p, hp⟩ | htop | hinv
  · rw [linkFd_of_some hp] at hlink
    -- nothing above the parent is half made, the namespace itself included
    have hhalf' : ∀ y, Above (link k opts) (k.fstat p) y → y ∉ k.fstat fd :: half := by
      intro y hy
      rw [List.mem_cons, not_or]
      refine ⟨?_, hhalf y (hy.step hlink)⟩
      rintro rfl
      exact grounded_link.not_above hlink hy
    obtain ⟨nsi₁, N, hcall, hadds⟩ := ih _ hlink p _ _ (-1) rfl hstart hhalf'
    obtain ⟨nsi', happend, hadds'⟩ := appendChild_adds nsi hadds.table
      (hhalf _ .refl) hlink (fun y => by rw [hadds.keys, isSome_set]; tauto)
      (fun y => by rw [hadds.pids, hpids]; simp) fun t ht htop hinvis => by
        have hne : t ≠ k.fstat fd := by
          rintro rfl
          exact grounded_link.not_above hlink ht
        rw [hadds.root t ht htop hinvis, NamespaceInfo.set_nsList, if_neg hne]
        rfl
    refine ⟨nsi', N + 1, ?_, hadds'⟩
    intro fuel hfuel
    obtain ⟨fuel, rfl⟩ := Nat.exists_eq_succ_of_ne_zero (by omega : fuel ≠ 0)
    rw [addNamespaceToList]
    simp only [hp, hcall fuel (by omega)]
    exact happend
  · rw [linkFd_of_topmost htop] at hlink
    refine ⟨_, 1, ?_, hstart.whole (k.fstat fd) hlink ?_ ?_, ?_, ?_, ?_⟩
    · intro fuel hfuel
      obtain ⟨fuel, rfl⟩ := Nat.exists_eq_succ_of_ne_zero (by omega : fuel ≠ 0)
      rw [addNamespaceToList]
      simp only [htop.1, if_pos htop.2]
    · exact fun _ => ⟨isSome_set.mpr (.inl rfl), hlink⟩
    · exact fun hr => absurd hr (k.fstat_ne fd)
    · intro y
      rw [above_of_top hlink, or_comm]
      exact isSome_set
    · intro y
      rw [ite_self, List.append_nil]
      exact hpids y
    · intro t ht _ _
      rw [(above_of_top hlink).mp ht, hnew]
      rfl
  · rw [linkFd_of_invisible hinv] at hlink
    obtain ⟨nsi', happend, hadds⟩ := appendChild_adds nsi hstart.addInvisUserNS
      (hhalf _ .refl) hlink
      (fun y => by rw [isSome_addInvisUserNS, isSome_set, above_of_top link_invis]; tauto)
      (fun y => by rw [pidsOf_addInvisUserNS, hpids])
      fun t ht _ hinvis => absurd ((above_of_top link_invis).mp ht) hinvis
    refine ⟨nsi', 1, ?_, hadds⟩
    intro fuel hfuel
    obtain ⟨fuel, rfl⟩ := Nat.exists_eq_succ_of_ne_zero (by omega : fuel ≠ 0)
    rw [addNamespaceToList]
    simp only [hinv.1, if_neg hinv.2]
    exact happend

/-- One call, by the way up from the namespace it is for. -/
theorem addNamespace_adds (x : NamespaceID) : AddsAt k opts x := by
  have hup : Grounded (link k opts) := grounded_link
  induction x using hup.induction with
  | _ x ih =>
    rintro fd half nsi pid rfl htable hhalf
    -- the entry is there, or is made
    have hentry : ∃ nsi₁ N, (∀ fuel, N ≤ fuel →
        (if (nsi.nsList (k.fstat fd)).isSome then .ok nsi
          else addNamespaceToList k opts fuel nsi (k.fstat fd) fd) = .ok nsi₁) ∧
        Adds k opts half nsi (k.fstat fd) [] nsi₁ := by
      by_cases hfnd : (nsi.nsList (k.fstat fd)).isSome
      · refine ⟨nsi, 0, fun fuel _ => if_pos hfnd, htable, ?_, ?_, ?_⟩
        · intro y
          exact ⟨.inl, fun h => h.elim id (htable.above hfnd hhalf)⟩
        · intro y
          rw [ite_self, List.append_nil]
        · intro t ht _ _
          rw [if_pos (htable.above hfnd hhalf ht)]
      · obtain ⟨nsi₁, N, hcall, hadds⟩ := addNamespaceToList_adds (fun p hp => ih p hp) htable hhalf
          (Option.not_isSome_iff_eq_none.mp hfnd)
        exact ⟨nsi₁, N, fun fuel hfuel => (if_neg hfnd).trans (hcall fuel hfuel), hadds⟩
    obtain ⟨nsi₁, N, hcall, hadds⟩ := hentry
    by_cases hpid : 0 < pid
    · obtain ⟨e, he⟩ := Option.isSome_iff_exists.mp ((hadds.keys (k.fstat fd)).mpr (.inr .refl))
      refine ⟨_, N + 1, ?_, hadds.table.appendPid he pid, ?_, ?_, hadds.root⟩
      · intro fuel hfuel
        obtain ⟨fuel, rfl⟩ := Nat.exists_eq_succ_of_ne_zero (by omega : fuel ≠ 0)
        rw [addNamespace]
        simp only [hcall fuel (by omega), if_pos hpid]
        exact congrArg (Except.map fun nsi => (nsi, k.fstat fd)) (NamespaceInfo.modify_of_some _ he)
      · intro y
        rw [isSome_set_of_some he, hadds.keys]
      · intro y
        have hold := hadds.pids y
        rw [ite_self, List.append_nil] at hold
        rw [pidsOf_appendPid he, hold, if_pos hpid]
    · refine ⟨nsi₁, N + 1, ?_, hadds.table, hadds.keys, ?_, hadds.root⟩
      · intro fuel hfuel
        obtain ⟨fuel, rfl⟩ := Nat.exists_eq_succ_of_ne_zero (by omega : fuel ≠ 0)
        rw [addNamespace]
        simp only [hcall fuel (by omega), if_neg hpid]
        rfl
      · intro y
        rw [if_neg hpid]
        exact hadds.pids y

end Call

/-! ## 6. All the calls -/

/-- `b` is `a`, or is found above it. -/
abbrev Ancestor (k : Nsfs Fd) (opts : CmdLineOptions) : Fd → Fd → Prop :=
  Relation.ReflTransGen fun a b => k.ioctlGet (ioctlOp opts) a = some b

/-- The namespace is one of those the calls are for, or is above one of them. -/
def Found (k : Nsfs Fd) (opts : CmdLineOptions) (calls : List (Fd × ℤ)) (fd : Fd) : Prop :=
  ∃ call ∈ calls, Ancestor k opts call.1 fd

/-- With enough fuel the calls, made one after the other from an empty table, give this one. -/
def Builds (k : Nsfs Fd) (opts : CmdLineOptions) (calls : List (Fd × ℤ))
    (nsi : NamespaceInfo) : Prop :=
  ∃ N, ∀ fuel, N ≤ fuel → addNamespaces k opts fuel {} calls = .ok nsi

/-- `c` is in the children list of `x`. -/
def Child (nsi : NamespaceInfo) (x c : NamespaceID) : Prop :=
  ∃ e, nsi.nsList x = some e ∧ c ∈ e.children

/-- How often `c` is in the children list of `x`. -/
def occurrences (nsi : NamespaceInfo) (x c : NamespaceID) : ℕ :=
  ((nsi.nsList x).map fun e => e.children.count c).getD 0

/-- The PIDs that the calls give for the namespace. -/
def memberPids (k : Nsfs Fd) (calls : List (Fd × ℤ)) (x : NamespaceID) : List ℤ :=
  (calls.filter fun call => decide (k.fstat call.1 = x) && decide (0 < call.2)).map Prod.snd

/-- The table is a forest, the one that the kernel has: its keys are the namespaces found and
the special entry where it is needed, each is in the children list of what is above it and in
no other, and the PIDs of an entry are those of the calls for it. -/
structure IsForest (k : Nsfs Fd) (opts : CmdLineOptions) (calls : List (Fd × ℤ))
    (nsi : NamespaceInfo) : Prop where
  keys : ∀ x, (nsi.nsList x).isSome ↔ (∃ fd, Found k opts calls fd ∧ k.fstat fd = x) ∨
    (x = invisUserNS ∧ ∃ fd, Found k opts calls fd ∧ Invisible k opts fd)
  below_parent : ∀ fd p, Found k opts calls fd → k.ioctlGet (ioctlOp opts) fd = some p →
    ∀ x, occurrences nsi x (k.fstat fd) = if x = k.fstat p then 1 else 0
  below_invis : ∀ fd, Found k opts calls fd → Invisible k opts fd →
    ∀ x, occurrences nsi x (k.fstat fd) = if x = invisUserNS then 1 else 0
  closed : ∀ x c, Child nsi x c → (nsi.nsList c).isSome
  acyclic : ∀ x, ¬Relation.TransGen (Child nsi) x x
  pids : ∀ x e, nsi.nsList x = some e → e.pids = memberPids k calls x

section Calls

variable {k : Nsfs Fd} {opts : CmdLineOptions} {nsi : NamespaceInfo}

/-- The way up, in terms of descriptors. -/
theorem above_fstat {a : Fd} {x : NamespaceID} : Above (link k opts) (k.fstat a) x ↔
    (∃ fd, Ancestor k opts a fd ∧ k.fstat fd = x) ∨
      (x = invisUserNS ∧ ∃ fd, Ancestor k opts a fd ∧ Invisible k opts fd) := by
  constructor
  · intro h
    induction h with
    | refl => exact .inl ⟨a, .refl, rfl⟩
    | tail _ hstep ih =>
      rcases ih with ⟨fd, hfd, rfl⟩ | ⟨rfl, -⟩
      · rw [link_fstat] at hstep
        rcases fd_cases k opts fd with ⟨p, hp⟩ | htop | hinv
        · rw [linkFd_of_some hp, Option.some.injEq] at hstep
          exact .inl ⟨p, hfd.tail hp, hstep⟩
        · rw [linkFd_of_topmost htop] at hstep
          exact nomatch hstep
        · rw [linkFd_of_invisible hinv, Option.some.injEq] at hstep
          exact .inr ⟨hstep.symm, fd, hfd, hinv⟩
      · rw [link_invis] at hstep
        exact nomatch hstep
  · -- from descriptors to keys the way is the same, link by link
    have hup : ∀ {fd}, Ancestor k opts a fd → Above (link k opts) (k.fstat a) (k.fstat fd) := by
      intro fd h
      induction h with
      | refl => exact .refl
      | tail _ hstep ih => exact ih.tail ((link_fstat _).trans (linkFd_of_some hstep))
    rintro (⟨fd, hfd, rfl⟩ | ⟨rfl, fd, hfd, hinv⟩)
    · exact hup hfd
    · exact (hup hfd).tail ((link_fstat fd).trans (linkFd_of_invisible hinv))

/-- The keys after the calls, by the way up. -/
def Reached (k : Nsfs Fd) (opts : CmdLineOptions) (calls : List (Fd × ℤ)) (x : NamespaceID) :
    Prop :=
  ∃ call ∈ calls, Above (link k opts) (k.fstat call.1) x

theorem reached_iff {calls : List (Fd × ℤ)} {x : NamespaceID} : Reached k opts calls x ↔
    (∃ fd, Found k opts calls fd ∧ k.fstat fd = x) ∨
      (x = invisUserNS ∧ ∃ fd, Found k opts calls fd ∧ Invisible k opts fd) := by
  simp only [Reached, Found, above_fstat]
  constructor
  · rintro ⟨call, hcall, ⟨fd, hfd, rfl⟩ | ⟨rfl, fd, hfd, hinv⟩⟩
    · exact .inl ⟨fd, ⟨call, hcall, hfd⟩, rfl⟩
    · exact .inr ⟨rfl, fd, ⟨call, hcall, hfd⟩, hinv⟩
  · rintro (⟨fd, ⟨call, hcall, hfd⟩, rfl⟩ | ⟨rfl, fd, ⟨call, hcall, hfd⟩, hinv⟩)
    · exact ⟨call, hcall, .inl ⟨fd, hfd, rfl⟩⟩
    · exact ⟨call, hcall, .inr ⟨rfl, fd, hfd, hinv⟩⟩

theorem memberPids_cons (call : Fd × ℤ) (calls : List (Fd × ℤ)) (x : NamespaceID) :
    memberPids k (call :: calls) x =
      (if x = k.fstat call.1 then if 0 < call.2 then [call.2] else [] else []) ++
        memberPids k calls x := by
  rw [memberPids, memberPids, List.filter_cons]
  by_cases hx : x = k.fstat call.1
  · by_cases hpid : 0 < call.2
    · simp [hx, hpid]
    · simp [hx, hpid]
  · simp [hx, Ne.symm hx]

/-- The calls, from any table in which all is linked. -/
theorem addNamespaces_table : ∀ (calls : List (Fd × ℤ)) (nsi : NamespaceInfo),
    Table k opts [] nsi → ∃ nsi' N,
      (∀ fuel, N ≤ fuel → addNamespaces k opts fuel nsi calls = .ok nsi') ∧ Table k opts [] nsi' ∧
      (∀ x, (nsi'.nsList x).isSome ↔ (nsi.nsList x).isSome ∨ Reached k opts calls x) ∧
      ∀ x, pidsOf nsi' x = pidsOf nsi x ++ memberPids k calls x := by
  intro calls
  induction calls with
  | nil =>
    intro nsi htable
    refine ⟨nsi, 0, fun _ _ => rfl, htable, ?_, ?_⟩
    · simp [Reached]
    · simp [memberPids]
  | cons call calls ih =>
    intro nsi htable
    -- one call leaves such a table again, and the others go on from it
    obtain ⟨nsi₁, N₁, hcall₁, hadds⟩ := addNamespace_adds (k.fstat call.1) call.1 [] nsi call.2 rfl
      htable fun _ _ => List.not_mem_nil
    obtain ⟨nsi', N₂, hcall₂, htable', hkeys, hpids⟩ := ih nsi₁ hadds.table
    refine ⟨nsi', max N₁ N₂, ?_, htable', ?_, ?_⟩
    · intro fuel hfuel
      rw [addNamespaces, hcall₁ fuel (le_trans (le_max_left _ _) hfuel)]
      exact hcall₂ fuel (le_trans (le_max_right _ _) hfuel)
    · intro x
      rw [hkeys, hadds.keys, Reached, Reached, or_assoc]
      simp only [List.mem_cons, exists_eq_or_imp]
    · intro x
      rw [hpids, hadds.pids, memberPids_cons, List.append_assoc]

/-- What the invariant says of a table in which all is linked. -/
theorem Table.occurrences (h : Table k opts [] nsi) {c p : NamespaceID}
    (hc : (nsi.nsList c).isSome) (hlink : link k opts c = some p) (x : NamespaceID) :
    occurrences nsi x c = if x = p then 1 else 0 := by
  obtain ⟨e, he, hmem⟩ := h.linked c p hc List.not_mem_nil hlink
  rw [NamespacesOf.occurrences]
  split
  · rename_i hx
    rw [hx, he]
    exact List.count_eq_one_of_mem (h.nodup p e he) hmem
  · rename_i hx
    cases hx' : nsi.nsList x with
    | none => rfl
    | some e' =>
      refine List.count_eq_zero.mpr fun hmem' => hx ?_
      exact Option.some.inj ((h.mem x e' hx' c hmem').2.1.symm.trans hlink)

theorem Table.child_iff (h : Table k opts [] nsi) {x c : NamespaceID} :
    Child nsi x c ↔ (nsi.nsList c).isSome ∧ link k opts c = some x := by
  constructor
  · rintro ⟨e, he, hc⟩
    obtain ⟨hsome, hlink, -⟩ := h.mem x e he c hc
    exact ⟨hsome, hlink⟩
  · rintro ⟨hsome, hlink⟩
    exact h.linked c x hsome List.not_mem_nil hlink

theorem Table.acyclic (h : Table k opts [] nsi) (x : NamespaceID) :
    ¬Relation.TransGen (Child nsi) x x := by
  intro hcycle
  have hdown : ∀ a b, Child nsi a b → link k opts b = some a := by
    intro a b hab
    exact (h.child_iff.mp hab).2
  have hwf : WellFounded fun p c => link k opts c = some p := grounded_link
  exact hwf.transGen.irrefl.irrefl x (Relation.TransGen.mono hdown x x hcycle)

theorem pidsOf_of_some {x : NamespaceID} {e : Namespace} (h : nsi.nsList x = some e) :
    pidsOf nsi x = e.pids := by
  rw [pidsOf, h]
  rfl

/-- Every sequence of calls gives a table, and it is linked as the kernel says. -/
theorem builds_table (k : Nsfs Fd) (opts : CmdLineOptions) (calls : List (Fd × ℤ)) :
    ∃ nsi, Builds k opts calls nsi ∧ Table k opts [] nsi ∧
      (∀ x, (nsi.nsList x).isSome ↔ Reached k opts calls x) ∧
      ∀ x, pidsOf nsi x = memberPids k calls x := by
  obtain ⟨nsi, N, hcalls, htable, hkeys, hpids⟩ := addNamespaces_table calls {} Table.empty
  refine ⟨nsi, ⟨N, hcalls⟩, htable, ?_, ?_⟩
  · intro x
    rw [hkeys]
    exact or_iff_right fun h => nomatch h
  · intro x
    rw [hpids]
    rfl

theorem Builds.unique {calls : List (Fd × ℤ)} {nsi' : NamespaceInfo}
    (h : Builds k opts calls nsi) (h' : Builds k opts calls nsi') : nsi = nsi' := by
  obtain ⟨N, hN⟩ := h
  obtain ⟨N', hN'⟩ := h'
  have hsame := (hN (max N N') (le_max_left _ _)).symm.trans (hN' (max N N') (le_max_right _ _))
  exact Except.ok.inj hsame

theorem memberPids_perm {calls calls' : List (Fd × ℤ)} (h : calls.Perm calls') (x : NamespaceID) :
    (memberPids k calls x).Perm (memberPids k calls' x) :=
  (h.filter _).map _

theorem reached_perm {calls calls' : List (Fd × ℤ)} (h : calls.Perm calls') (x : NamespaceID) :
    Reached k opts calls x ↔ Reached k opts calls' x := by
  simp only [Reached, h.mem_iff]

end Calls

/-- The recursion of `addNamespace` ends whatever the kernel answers, the table that the calls
give is the forest of the namespaces found, and the order of the calls makes no difference to
who is a child of whom and which PIDs an entry has. -/
theorem addNamespaces_forest (k : Nsfs Fd) (opts : CmdLineOptions) (calls : List (Fd × ℤ)) :
    ∃ nsi, Builds k opts calls nsi ∧ IsForest k opts calls nsi ∧
      ∀ calls', calls.Perm calls' → ∃ nsi', Builds k opts calls' nsi' ∧
        (∀ x, (nsi.nsList x).isSome ↔ (nsi'.nsList x).isSome) ∧
        (∀ x c, Child nsi x c ↔ Child nsi' x c) ∧
        ∀ x, (pidsOf nsi x).Perm (pidsOf nsi' x) := by
  obtain ⟨nsi, hbuilds, htable, hkeys, hpids⟩ := builds_table k opts calls
  have hfound : ∀ {fd}, Found k opts calls fd → (nsi.nsList (k.fstat fd)).isSome := by
    intro fd hfd
    exact (hkeys _).mpr (reached_iff.mpr (.inl ⟨fd, hfd, rfl⟩))
  refine ⟨nsi, hbuilds, ⟨?_, ?_, ?_, ?_, htable.acyclic, ?_⟩, ?_⟩
  · intro x
    rw [hkeys, reached_iff]
  · intro fd p hfd hp
    exact htable.occurrences (hfound hfd) ((link_fstat fd).trans (linkFd_of_some hp))
  · intro fd hfd hinv
    exact htable.occurrences (hfound hfd) ((link_fstat fd).trans (linkFd_of_invisible hinv))
  · intro x c hc
    exact (htable.child_iff.mp hc).1
  · intro x e he
    rw [← hpids, pidsOf_of_some he]
  · intro calls' hperm
    -- keys, links and PIDs are told by the set of the calls alone
    obtain ⟨nsi', hbuilds', htable', hkeys', hpids'⟩ := builds_table k opts calls'
    have hsame : ∀ x, (nsi.nsList x).isSome ↔ (nsi'.nsList x).isSome := by
      intro x
      rw [hkeys, hkeys', reached_perm hperm]
    refine ⟨nsi', hbuilds', hsame, ?_, ?_⟩
    · intro x c
      rw [htable.child_iff, htable'.child_iff, hsame]
    · intro x
      rw [hpids, hpids']
      exact memberPids_perm hperm x

/-- A kernel with three namespaces, each below another of a smaller number or topmost. -/
def threeNamespaces (nsType : Fin 3 → ℕ) (up : Fin 3 → Option (Fin 3))
    (hup : ∀ i j, up i = some j → j < i) : Nsfs (Fin 3) where
  fstat i := ⟨4, UInt64.ofNat (i + 1)⟩
  nsType := nsType
  ownerUID _ := 0
  ioctlGet _ := up
  nsType_eq := by
    intro a b hab
    have hinj : ∀ a b : Fin 3, (⟨4, UInt64.ofNat (a + 1)⟩ : NamespaceID) =
        ⟨4, UInt64.ofNat (b + 1)⟩ → a = b := by decide
    rw [hinj a b hab]
  ioctlGet_eq := by
    intro _ a b hab
    have hinj : ∀ a b : Fin 3, (⟨4, UInt64.ofNat (a + 1)⟩ : NamespaceID) =
        ⟨4, UInt64.ofNat (b + 1)⟩ → a = b := by decide
    rw [hinj a b hab]
  grounded := by
    intro _
    have hlt : ∀ i j : Fin 3, j < i →
        (UInt64.ofNat (j + 1)).toNat < (UInt64.ofNat (i + 1)).toNat := by decide
    refine Subrelation.wf ?_ (InvImage.wf (fun x : NamespaceID => x.inode.toNat) Nat.lt_wfRel.wf)
    rintro p c ⟨a, b, rfl, hab, rfl⟩
    exact hlt a b (hup a b hab)
  fstat_ne := by decide

/-- A user namespace, one below it, and a UTS namespace that the second one owns. -/
def nestedUser : Nsfs (Fin 3) :=
  threeNamespaces ![CLONE_NEWUSER, CLONE_NEWUSER, CLONE_NEWUTS] ![none, some 0, some 1] (by decide)

/-- The UTS namespace is added first, then the user namespaces, which are there by then. -/
theorem addNamespaces_forest_nested :
    ∃ nsi, Builds nestedUser ⟨false, CLONE_NEWUTS⟩ [(2, 7), (1, 7), (0, 1)] nsi ∧
      IsForest nestedUser ⟨false, CLONE_NEWUTS⟩ [(2, 7), (1, 7), (0, 1)] nsi := by
  obtain ⟨nsi, hbuilds, hforest, -⟩ :=
    addNamespaces_forest nestedUser ⟨false, CLONE_NEWUTS⟩ [(2, 7), (1, 7), (0, 1)]
  exact ⟨nsi, hbuilds, hforest⟩

/-! ## 7. What is shown -/

/-- `displayNamespaceTree`: the calls of `displayNamespace`, with the namespace and the level. -/
def displayNamespaceTree (opts : CmdLineOptions) (nsi : NamespaceInfo) :
    ℕ → NamespaceID → ℕ → Except Stop (List (NamespaceID × ℕ))
  | 0, _, _ => .error .outOfFuel
  | fuel + 1, nsid, level =>
    match nsi.nsList nsid with
    | none => .error .missing
    | some e =>
      let shown := if e.nsType = CLONE_NEWUSER ∨ e.nsType &&& opts.namespaces ≠ 0
        then [(nsid, level)] else []
      (e.children.mapM fun child => displayNamespaceTree opts nsi fuel child (level + 1)).map
        fun below => shown ++ below.flatten

/-- `displayNamespaceHierarchies`, without `--subtree`. -/
def displayNamespaceHierarchies (opts : CmdLineOptions) (nsi : NamespaceInfo) (fuel : ℕ) :
    Except Stop (List (NamespaceID × ℕ)) := do
  let shown ← displayNamespaceTree opts nsi fuel nsi.rootNS 0
  if (nsi.nsList invisUserNS).isSome then
    let invisible ← displayNamespaceTree opts nsi fuel invisUserNS 0
    return shown ++ invisible
  else
    return shown

/-- With enough fuel the calls build this table, and this is then shown of it. -/
def Shows (k : Nsfs Fd) (opts : CmdLineOptions) (calls : List (Fd × ℤ)) (nsi : NamespaceInfo)
    (shown : List (NamespaceID × ℕ)) : Prop :=
  ∃ N, ∀ fuel, N ≤ fuel → addNamespaces k opts fuel {} calls = .ok nsi ∧
    displayNamespaceHierarchies opts nsi fuel = .ok shown

/-- All that was found is shown, each once. -/
def ShowsAll (k : Nsfs Fd) (opts : CmdLineOptions) (calls : List (Fd × ℤ)) : Prop :=
  ∃ nsi shown, Shows k opts calls nsi shown ∧
    ∀ x, (nsi.nsList x).isSome → (shown.map Prod.fst).count x = 1

/-- The children lists of a table, for the walk down. -/
def childrenOf (nsi : NamespaceInfo) (x : NamespaceID) : Option (List NamespaceID) :=
  (nsi.nsList x).map Namespace.children

section Display

variable {k : Nsfs Fd} {opts : CmdLineOptions} {nsi : NamespaceInfo}

/-- The loop over the children, given what each of its calls shows. -/
theorem mapM_display {fuel : ℕ}
    (hcall : ∀ (c : NamespaceID) (level : ℕ) (l : List NamespaceID),
      walk (childrenOf nsi) fuel c = .ok l →
      ∃ shown, displayNamespaceTree opts nsi fuel c level = .ok shown ∧ shown.map Prod.fst = l)
    (level : ℕ) : ∀ {cs : List NamespaceID} {ls : List (List NamespaceID)},
      List.Forall₂ (fun c l => walk (childrenOf nsi) fuel c = .ok l) cs ls →
      ∃ below, cs.mapM (fun c => displayNamespaceTree opts nsi fuel c level) = .ok below ∧
        below.flatten.map Prod.fst = ls.flatten := by
  intro cs ls h
  induction h with
  | nil => exact ⟨[], rfl, rfl⟩
  | cons hc _ ih =>
    obtain ⟨shown, hshown, hmap⟩ := hcall _ level _ hc
    obtain ⟨below, hbelow, hflat⟩ := ih
    refine ⟨shown :: below, ?_, ?_⟩
    · rw [List.mapM_cons, hshown, hbelow]
      rfl
    · rw [List.flatten_cons, List.map_append, hmap, hflat, List.flatten_cons]

/-- Where every type is one that is shown, `displayNamespaceTree` is the walk down. -/
theorem displayNamespaceTree_walk
    (hshown : ∀ x e, nsi.nsList x = some e →
      e.nsType = CLONE_NEWUSER ∨ e.nsType &&& opts.namespaces ≠ 0) :
    ∀ (fuel : ℕ) (x : NamespaceID) (level : ℕ) (l : List NamespaceID),
      walk (childrenOf nsi) fuel x = .ok l →
      ∃ shown, displayNamespaceTree opts nsi fuel x level = .ok shown ∧
        shown.map Prod.fst = l := by
  intro fuel
  induction fuel with
  | zero => intro x level l h; cases h
  | succ fuel ih =>
    intro x level l h
    cases hx : nsi.nsList x with
    | none =>
      rw [walk, childrenOf, hx] at h
      cases h
    | some e =>
      rw [walk, childrenOf, hx] at h
      cases hls : e.children.mapM (walk (childrenOf nsi) fuel) with
      | error => simp only [Option.map_some, hls] at h; cases h
      | ok ls =>
        simp only [Option.map_some, hls] at h
        -- the children are shown one level deeper, each by the induction hypothesis
        obtain ⟨below, hbelow, hflat⟩ := mapM_display ih (level + 1) (forall₂_of_mapM hls)
        refine ⟨(x, level) :: below.flatten, ?_, ?_⟩
        · rw [displayNamespaceTree]
          simp only [hx, hbelow, if_pos (hshown x e hx)]
          rfl
        · rw [← Except.ok.inj h, List.map_cons, hflat]

theorem displayNamespaceTree_succ : ∀ (fuel : ℕ) (x : NamespaceID) (level : ℕ)
    (shown : List (NamespaceID × ℕ)), displayNamespaceTree opts nsi fuel x level = .ok shown →
      displayNamespaceTree opts nsi (fuel + 1) x level = .ok shown := by
  intro fuel
  induction fuel with
  | zero => intro x level shown h; exact nomatch h
  | succ fuel ih =>
    intro x level shown h
    rw [displayNamespaceTree] at h ⊢
    cases hx : nsi.nsList x with
    | none => simp only [hx] at h; exact nomatch h
    | some e =>
      simp only [hx] at h ⊢
      cases hls : e.children.mapM fun c => displayNamespaceTree opts nsi fuel c (level + 1) with
      | error => rw [hls] at h; exact nomatch h
      | ok below =>
        rw [hls] at h
        have hmore : e.children.mapM (fun c => displayNamespaceTree opts nsi (fuel + 1) c
            (level + 1)) = .ok below := by
          refine mapM_of_forall₂ ((forall₂_of_mapM hls).imp ?_)
          intro c shown' hc
          exact ih c (level + 1) shown' hc
        rw [hmore]
        exact h

/-- More fuel than is needed changes nothing. -/
theorem displayNamespaceTree_mono {fuel fuel' : ℕ} (hle : fuel ≤ fuel') {x : NamespaceID}
    {level : ℕ} {shown : List (NamespaceID × ℕ)}
    (h : displayNamespaceTree opts nsi fuel x level = .ok shown) :
    displayNamespaceTree opts nsi fuel' x level = .ok shown := by
  induction hle with
  | refl => exact h
  | step _ ih => exact displayNamespaceTree_succ _ x level shown ih

theorem isSome_childrenOf {x : NamespaceID} :
    (childrenOf nsi x).isSome ↔ (nsi.nsList x).isSome := by
  rw [childrenOf, Option.isSome_map]

theorem Table.hangs (h : Table k opts [] nsi) : Hangs (link k opts) (childrenOf nsi) := by
  have hentry : ∀ {x cs}, childrenOf nsi x = some cs →
      ∃ e, nsi.nsList x = some e ∧ e.children = cs := fun hx => Option.map_eq_some_iff.mp hx
  refine ⟨?_, ?_, ?_⟩
  · intro x cs hx c hc
    obtain ⟨e, he, rfl⟩ := hentry hx
    rw [isSome_childrenOf]
    exact h.child_iff.mp ⟨e, he, hc⟩
  · intro x cs hx
    obtain ⟨e, he, rfl⟩ := hentry hx
    exact h.nodup x e he
  · intro c x hc hlink
    rw [isSome_childrenOf] at hc
    obtain ⟨e, he, hmem⟩ := h.linked c x hc List.not_mem_nil hlink
    refine ⟨e.children, ?_, hmem⟩
    rw [childrenOf, he]
    rfl

/-- The display of the tree below an entry ends, and shows what is below it. -/
theorem displayNamespaceTree_lists {calls : List (Fd × ℤ)} (htable : Table k opts [] nsi)
    (hkeys : ∀ x, (nsi.nsList x).isSome ↔ Reached k opts calls x)
    (hshown : ∀ x e, nsi.nsList x = some e →
      e.nsType = CLONE_NEWUSER ∨ e.nsType &&& opts.namespaces ≠ 0)
    {x : NamespaceID} (hx : (nsi.nsList x).isSome) :
    ∃ shown N, (∀ fuel, N ≤ fuel → displayNamespaceTree opts nsi fuel x 0 = .ok shown) ∧
      Lists (link k opts) (childrenOf nsi) x (shown.map Prod.fst) := by
  have hup : Grounded (link k opts) := grounded_link
  -- nothing found is deeper than all that the calls are for
  have hdepth : ∀ y, (childrenOf nsi y).isSome →
      hup.depth y ≤ (calls.map fun call => hup.depth (k.fstat call.1)).sum := by
    intro y hy
    rw [isSome_childrenOf, hkeys] at hy
    obtain ⟨call, hcall, hy⟩ := hy
    exact (hup.depth_le hy).trans (List.le_sum_of_mem (List.mem_map_of_mem hcall))
  obtain ⟨l, hl, hlists⟩ := walk_hangs hup htable.hangs hdepth
    ((calls.map fun call => hup.depth (k.fstat call.1)).sum + 1) x (isSome_childrenOf.mpr hx)
    (by omega)
  obtain ⟨shown, hcall, rfl⟩ := displayNamespaceTree_walk hshown _ x 0 l hl
  exact ⟨shown, _, fun fuel hfuel => displayNamespaceTree_mono hfuel hcall, hlists⟩

/-- Every entry is of a type that is shown, if every namespace found is. -/
theorem Table.shown {calls : List (Fd × ℤ)} (htable : Table k opts [] nsi)
    (hkeys : ∀ x, (nsi.nsList x).isSome ↔ Reached k opts calls x)
    (hcovers : ∀ fd, Found k opts calls fd →
      k.nsType fd = CLONE_NEWUSER ∨ k.nsType fd &&& opts.namespaces ≠ 0)
    (x : NamespaceID) (e : Namespace) (he : nsi.nsList x = some e) :
    e.nsType = CLONE_NEWUSER ∨ e.nsType &&& opts.namespaces ≠ 0 := by
  have hx : Reached k opts calls x := (hkeys x).mp (Option.isSome_iff_exists.mpr ⟨e, he⟩)
  rcases reached_iff.mp hx with ⟨fd, hfd, rfl⟩ | ⟨rfl, -⟩
  · rw [htable.typed fd e he]
    exact hcovers fd hfd
  · exact .inl (htable.invis e he)

/-- Where the display could start: what is found, has nothing above it and is not the special
entry. -/
theorem topmost_iff {calls : List (Fd × ℤ)} {x : NamespaceID} :
    (∃ fd, Found k opts calls fd ∧ Topmost k opts fd ∧ k.fstat fd = x) ↔
      Reached k opts calls x ∧ x ≠ invisUserNS ∧ link k opts x = none := by
  constructor
  · rintro ⟨fd, hfd, htop, rfl⟩
    exact ⟨reached_iff.mpr (.inl ⟨fd, hfd, rfl⟩), k.fstat_ne fd,
      (link_fstat fd).trans (linkFd_of_topmost htop)⟩
  · rintro ⟨hx, hinvis, hlink⟩
    rcases reached_iff.mp hx with ⟨fd, hfd, rfl⟩ | ⟨rfl, -⟩
    · rw [link_fstat] at hlink
      rcases fd_cases k opts fd with ⟨p, hp⟩ | htop | hinv
      · rw [linkFd_of_some hp] at hlink
        exact nomatch hlink
      · exact ⟨fd, hfd, htop, rfl⟩
      · rw [linkFd_of_invisible hinv] at hlink
        exact nomatch hlink
    · exact absurd rfl hinvis

/-- Above every entry there is an entry that has nothing above it. -/
theorem Table.exists_top (htable : Table k opts [] nsi) {x : NamespaceID}
    (hx : (nsi.nsList x).isSome) :
    ∃ t, (nsi.nsList t).isSome ∧ Above (link k opts) x t ∧ link k opts t = none := by
  have hup : Grounded (link k opts) := grounded_link
  obtain ⟨t, ht, htop⟩ := hup.exists_top x
  exact ⟨t, htable.above hx (fun _ _ => List.not_mem_nil) ht, ht, htop⟩

/-- The display starts from an entry, as soon as there is one. -/
theorem Table.isSome_rootNS (htable : Table k opts [] nsi) {x : NamespaceID}
    (hx : (nsi.nsList x).isSome) : (nsi.nsList nsi.rootNS).isSome := by
  by_cases hroot : nsi.rootNS = invisUserNS
  · -- no topmost namespace was met, so all are below the special entry
    obtain ⟨t, ht, -, htop⟩ := htable.exists_top hx
    by_cases hinvis : t = invisUserNS
    · rw [hroot, ← hinvis]
      exact ht
    · exact absurd htop (htable.rootless hroot t ht List.not_mem_nil hinvis)
  · exact (htable.root hroot).1

/-- The display ends, and shows the tree of `rootNS` and that of the special entry. -/
theorem shows_trees {calls : List (Fd × ℤ)} (hne : calls ≠ [])
    (hcovers : ∀ fd, Found k opts calls fd →
      k.nsType fd = CLONE_NEWUSER ∨ k.nsType fd &&& opts.namespaces ≠ 0)
    (hbuilds : Builds k opts calls nsi) (htable : Table k opts [] nsi)
    (hkeys : ∀ x, (nsi.nsList x).isSome ↔ Reached k opts calls x) :
    ∃ tree invisible, Shows k opts calls nsi (tree ++ invisible) ∧
      Lists (link k opts) (childrenOf nsi) nsi.rootNS (tree.map Prod.fst) ∧
      Lists (link k opts) (childrenOf nsi) invisUserNS (invisible.map Prod.fst) := by
  have hshown := htable.shown hkeys hcovers
  obtain ⟨call, hcall⟩ := List.exists_mem_of_ne_nil calls hne
  have hroot := htable.isSome_rootNS ((hkeys _).mpr ⟨call, hcall, .refl⟩)
  obtain ⟨N₀, hN₀⟩ := hbuilds
  obtain ⟨tree, N₁, htree, hlists⟩ := displayNamespaceTree_lists htable hkeys hshown hroot
  by_cases hinvis : (nsi.nsList invisUserNS).isSome
  · obtain ⟨invisible, N₂, hinvisible, hlists'⟩ :=
      displayNamespaceTree_lists htable hkeys hshown hinvis
    refine ⟨tree, invisible, ⟨max N₀ (max N₁ N₂), ?_⟩, hlists, hlists'⟩
    intro fuel hfuel
    refine ⟨hN₀ fuel (by omega), ?_⟩
    rw [displayNamespaceHierarchies, htree fuel (by omega)]
    simp only [hinvis, hinvisible fuel (by omega)]
    rfl
  · -- no namespace was invisible: the second tree is empty
    refine ⟨tree, [], ⟨max N₀ N₁, ?_⟩, hlists, List.nodup_nil, ?_⟩
    · intro fuel hfuel
      refine ⟨hN₀ fuel (by omega), ?_⟩
      rw [displayNamespaceHierarchies, htree fuel (by omega), List.append_nil]
      simp only [hinvis]
      rfl
    · intro y
      rw [isSome_childrenOf]
      constructor
      · exact fun h => nomatch h
      · rintro ⟨hy, habove⟩
        exact absurd (htable.above hy (fun _ _ => List.not_mem_nil) habove) hinvis

theorem Shows.unique {calls : List (Fd × ℤ)} {nsi' : NamespaceInfo}
    {shown shown' : List (NamespaceID × ℕ)} (h : Shows k opts calls nsi shown)
    (h' : Shows k opts calls nsi' shown') : nsi = nsi' ∧ shown = shown' := by
  obtain ⟨N, hN⟩ := h
  obtain ⟨N', hN'⟩ := h'
  obtain ⟨hbuild, hdisplay⟩ := hN (max N N') (le_max_left _ _)
  obtain ⟨hbuild', hdisplay'⟩ := hN' (max N N') (le_max_right _ _)
  obtain rfl := Except.ok.inj (hbuild.symm.trans hbuild')
  exact ⟨rfl, Except.ok.inj (hdisplay.symm.trans hdisplay')⟩

/-- What is shown of two trees is shown once each, if the one of `rootNS` is the only one beside
that of the special entry. -/
theorem shown_once_iff {calls : List (Fd × ℤ)} (htable : Table k opts [] nsi)
    (hkeys : ∀ x, (nsi.nsList x).isSome ↔ Reached k opts calls x)
    {tree invisible : List NamespaceID}
    (htree : Lists (link k opts) (childrenOf nsi) nsi.rootNS tree)
    (hinvisible : Lists (link k opts) (childrenOf nsi) invisUserNS invisible)
    (hroot : (nsi.nsList nsi.rootNS).isSome) :
    (∀ x, (nsi.nsList x).isSome → (tree ++ invisible).count x = 1) ↔
      ∃! x, Reached k opts calls x ∧ x ≠ invisUserNS ∧ link k opts x = none := by
  have hmem : ∀ y, y ∈ tree ↔ (nsi.nsList y).isSome ∧ Above (link k opts) y nsi.rootNS := by
    intro y
    rw [htree.2, isSome_childrenOf]
  have hmem' : ∀ y, y ∈ invisible ↔ (nsi.nsList y).isSome ∧ Above (link k opts) y invisUserNS := by
    intro y
    rw [hinvisible.2, isSome_childrenOf]
  constructor
  · intro honce
    -- the special entry as `rootNS` would be shown twice
    have hne : nsi.rootNS ≠ invisUserNS := by
      intro heq
      have htwo := honce nsi.rootNS hroot
      rw [List.count_append, List.count_eq_one_of_mem htree.1 ((hmem _).mpr ⟨hroot, .refl⟩),
        List.count_eq_one_of_mem hinvisible.1 ((hmem' _).mpr ⟨hroot, heq ▸ .refl⟩)] at htwo
      exact absurd htwo (by decide)
    refine ⟨nsi.rootNS, ⟨(hkeys _).mp hroot, hne, (htable.root hne).2⟩, ?_⟩
    rintro t ⟨ht, htinvis, htop⟩
    have hshown : t ∈ tree ++ invisible := by
      rw [← List.count_pos_iff, honce t ((hkeys t).mpr ht)]
      exact Nat.one_pos
    rcases List.mem_append.mp hshown with h | h
    · exact ((above_of_top htop).mp ((hmem t).mp h).2).symm
    · exact absurd ((above_of_top htop).mp ((hmem' t).mp h).2).symm htinvis
  · rintro ⟨t, ⟨ht, htinvis, htop⟩, hunique⟩ x hx
    have hne : nsi.rootNS ≠ invisUserNS := by
      intro heq
      exact htable.rootless heq t ((hkeys t).mpr ht) List.not_mem_nil htinvis htop
    have hrootTop := (htable.root hne).2
    obtain ⟨u, hu, hxu, hutop⟩ := htable.exists_top hx
    rw [List.count_append]
    by_cases huinvis : u = invisUserNS
    · subst huinvis
      rw [List.count_eq_one_of_mem hinvisible.1 ((hmem' x).mpr ⟨hx, hxu⟩), List.count_eq_zero.mpr]
      intro hx'
      exact hne (((hmem x).mp hx').2.top_unique hrootTop hxu hutop)
    · have hur : u = nsi.rootNS := by
        rw [hunique u ⟨(hkeys u).mp hu, huinvis, hutop⟩]
        exact (hunique _ ⟨(hkeys _).mp hroot, hne, hrootTop⟩).symm
      rw [List.count_eq_one_of_mem htree.1 ((hmem x).mpr ⟨hx, hur ▸ hxu⟩), List.count_eq_zero.mpr]
      intro hx'
      exact huinvis (hxu.top_unique hutop ((hmem' x).mp hx').2 link_invis)

end Display

/-- The display always ends and meets only entries that are there; and it shows all that was
found, each once, exactly if one namespace among those found is topmost: of two, the one met
last is shown and the other is not, and where there is none `rootNS` is still the special
entry, whose tree is then shown twice. -/
theorem showsAll_iff (k : Nsfs Fd) (opts : CmdLineOptions) (calls : List (Fd × ℤ))
    (hne : calls ≠ [])
    (hcovers : ∀ fd, Found k opts calls fd →
      k.nsType fd = CLONE_NEWUSER ∨ k.nsType fd &&& opts.namespaces ≠ 0) :
    (∃ nsi shown, Shows k opts calls nsi shown) ∧
      (ShowsAll k opts calls ↔
        ∃! x, ∃ fd, Found k opts calls fd ∧ Topmost k opts fd ∧ k.fstat fd = x) := by
  obtain ⟨nsi, hbuilds, htable, hkeys, -⟩ := builds_table k opts calls
  obtain ⟨tree, invisible, hshows, htree, hinvisible⟩ :=
    shows_trees hne hcovers hbuilds htable hkeys
  refine ⟨⟨nsi, _, hshows⟩, ?_⟩
  obtain ⟨call, hcall⟩ := List.exists_mem_of_ne_nil calls hne
  have hroot := htable.isSome_rootNS ((hkeys _).mpr ⟨call, hcall, .refl⟩)
  have honce := shown_once_iff htable hkeys htree hinvisible hroot
  rw [← List.map_append] at honce
  simp only [topmost_iff]
  constructor
  · rintro ⟨nsi', shown', hshows', honce'⟩
    obtain ⟨rfl, rfl⟩ := hshows.unique hshows'
    exact honce.mp honce'
  · intro htop
    exact ⟨nsi, _, hshows, honce.mpr htop⟩

/-- With the two user namespaces and the UTS namespace one is topmost. -/
theorem showsAll_iff_nested : ShowsAll nestedUser ⟨false, CLONE_NEWUTS⟩ [(2, 7), (1, 7)] := by
  have hcovers : ∀ fd, nestedUser.nsType fd = CLONE_NEWUSER ∨
      nestedUser.nsType fd &&& CLONE_NEWUTS ≠ 0 := by decide
  refine (showsAll_iff nestedUser ⟨false, CLONE_NEWUTS⟩ [(2, 7), (1, 7)] (by decide)
    fun fd _ => hcovers fd).2.mpr ⟨nestedUser.fstat 0, ⟨0, ?_, ?_, rfl⟩, ?_⟩
  · exact ⟨(1, 7), by decide, .single rfl⟩
  · exact ⟨rfl, .inl rfl⟩
  · rintro x ⟨fd, -, htop, rfl⟩
    have hzero : ∀ fd : Fin 3, nestedUser.ioctlGet .NS_GET_USERNS fd = none → fd = 0 := by decide
    rw [hzero fd htop.1]

/-- Two PID namespaces, neither of which has a parent that the caller may see, as the initial
one and that of the program are to a program that runs in a PID namespace of its own with the
`/proc` of the initial one. -/
def twoPidRoots : Nsfs (Fin 3) :=
  threeNamespaces (fun _ => CLONE_NEWPID) (fun _ => none) (by decide)

/-- With `--pidns` the second of the two is shown only. -/
theorem displayNamespaceHierarchies_misses :
    ¬ShowsAll twoPidRoots ⟨true, CLONE_NEWPID⟩ [(0, 1), (1, 42)] := by
  rintro ⟨nsi, shown, ⟨N, hN⟩, honce⟩
  obtain ⟨hbuild, hdisplay⟩ := hN (N + 3) (by omega)
  obtain rfl := Except.ok.inj hbuild
  obtain rfl := Except.ok.inj hdisplay
  exact absurd (honce ⟨4, 1⟩ rfl) (by decide)


end Tlpi.NamespacesOf
