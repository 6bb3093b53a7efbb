/-
`namespaces/pid_namespaces.go` and `namespaces/userns_overview.go`: the plain programs, of which
`namespaces_of.go` says that it does what they do and more.

The two programs do the same with the PID namespaces and with the user namespaces: one recursive function
puts a namespace and those above it into a map, and another shows the map from the namespace on that has
nothing above it. Here they are one program; the layout of its lines and what it reads of `/proc` for
each PID are left out, as is an error other than EPERM, which ends it.

That they are part of `namespaces_of.go` is a simulation: the map is the table of that program with what
the plain ones do not record left out (`overview`), and one level of the recursion there takes two calls.
So all that is known of the table is known of the map. For PID namespaces that program is to be asked for
their hierarchy (`--pidns`); for user namespaces it need not be, since it asks for the owner of a namespace,
which the kernel gives for a user namespace as its parent (`SameHierarchy`).
-/
import Mathlib.Data.List.Sort
import Tlpi.NamespacesOf

set_option autoImplicit false

namespace Tlpi.PidNamespaces

open Tlpi.Forest Tlpi.NamespacesOf

/-! ## 1. The programs -/

/-- `struct namespaceAttribs` -/
structure NamespaceAttribs where
  children : List NamespaceID := []
  pids : List ℤ := []
deriving Repr, DecidableEq

/-- The global variables; `initialPidNS` is `initialNS` in the other program. -/
structure Globals where
  nsList : NamespaceID → Option NamespaceAttribs := fun _ => none
  initialPidNS : NamespaceID := ⟨0, 0⟩

namespace Globals

/-- `nsList[x] = e` -/
def set (g : Globals) (x : NamespaceID) (e : NamespaceAttribs) : Globals :=
  { g with nsList := Function.update g.nsList x (some e) }

/-- `nsList[x]` and then one of its fields assigned. -/
def modify (g : Globals) (x : NamespaceID) (f : NamespaceAttribs → NamespaceAttribs) :
    Except Stop Globals :=
  match g.nsList x with
  | none => .error .missing
  | some e => .ok (g.set x (f e))

/-- `nsList[x].children = append(nsList[x].children, nsid)` -/
def appendChild (g : Globals) (x nsid : NamespaceID) : Except Stop Globals :=
  g.modify x fun e => { e with children := e.children ++ [nsid] }

/-- `nsList[x].pids = append(nsList[x].pids, pid)` -/
def appendPid (g : Globals) (x : NamespaceID) (pid : ℤ) : Except Stop Globals :=
  g.modify x fun e => { e with pids := e.pids ++ [pid] }

end Globals

variable {Fd : Type}

/-- `addNamespace` -/
def addNamespace (k : Nsfs Fd) : ℕ → Globals → Fd → ℤ → Except Stop (Globals × NamespaceID)
  | 0, _, _, _ => .error .outOfFuel
  | fuel + 1, g, namespaceFD, pid => do
    let nsid := k.fstat namespaceFD
    let g ← (if (g.nsList nsid).isSome then .ok g
      else
        let g := g.set nsid {}
        match k.ioctlGet .NS_GET_PARENT namespaceFD with
        | none => .ok { g with initialPidNS := nsid }
        | some parentFD => do
          let (g, p) ← addNamespace k fuel g parentFD (-1)
          g.appendChild p nsid)
    let g ← (if 0 < pid then g.appendPid nsid pid else .ok g)
    return (g, nsid)

/-- The loop over the entries of `/proc`. -/
def addNamespaces (k : Nsfs Fd) (fuel : ℕ) : Globals → List (Fd × ℤ) → Except Stop Globals
  | g, [] => .ok g
  | g, (namespaceFD, pid) :: calls => do
    let (g, _) ← addNamespace k fuel g namespaceFD pid
    addNamespaces k fuel g calls

/-- What is shown of a namespace: its ID, how far it is indented, and its PIDs. -/
structure Shown where
  nsid : NamespaceID
  level : ℕ
  pids : List ℤ
deriving Repr, DecidableEq

/-- `displayNamespaceTree` -/
def displayNamespaceTree (g : Globals) : ℕ → NamespaceID → ℕ → Except Stop (List Shown)
  | 0, _, _ => .error .outOfFuel
  | fuel + 1, nsid, level =>
    match g.nsList nsid with
    | none => .error .missing
    | some e =>
      (e.children.mapM fun child => displayNamespaceTree g fuel child (level + 1)).map fun below =>
        ⟨nsid, level, e.pids.insertionSort (· ≤ ·)⟩ :: below.flatten

/-- `main` -/
def main (k : Nsfs Fd) (calls : List (Fd × ℤ)) (fuel : ℕ) : Except Stop (Globals × List Shown) := do
  let g ← addNamespaces k fuel {} calls
  let shown ← displayNamespaceTree g fuel g.initialPidNS 0
  return (g, shown)

/-! ## 2. The simulation -/

/-- What the plain programs record of an entry. -/
def attribs (e : Namespace) : NamespaceAttribs := ⟨e.children, e.pids⟩

/-- What they record of the table. -/
def overview (nsi : NamespaceInfo) : Globals :=
  ⟨fun x => (nsi.nsList x).map attribs, nsi.rootNS⟩

/-- What `namespaces_of.go` goes by is the parents: it is asked for them, or all the namespaces are user
namespaces, which are owned by their parents. -/
def SameHierarchy (k : Nsfs Fd) (opts : CmdLineOptions) : Prop :=
  opts.showPidnsHierarchy = true ∨
    ∀ fd, k.nsType fd = CLONE_NEWUSER ∧ k.ioctlGet .NS_GET_USERNS fd = k.ioctlGet .NS_GET_PARENT fd

theorem SameHierarchy.ioctlGet {k : Nsfs Fd} {opts : CmdLineOptions} (h : SameHierarchy k opts) (fd : Fd) :
    k.ioctlGet (ioctlOp opts) fd = k.ioctlGet .NS_GET_PARENT fd := by
  rw [ioctlOp]
  split
  · rfl
  · rename_i hnot
    exact ((h.resolve_left hnot) fd).2

/-- A namespace with nothing above it is one from which the display could start. -/
theorem SameHierarchy.top {k : Nsfs Fd} {opts : CmdLineOptions} (h : SameHierarchy k opts) (fd : Fd) :
    k.nsType fd = CLONE_NEWUSER ∨ ioctlOp opts = .NS_GET_PARENT := by
  rcases h with hpid | huser
  · exact .inr (if_pos hpid)
  · exact .inl (huser fd).1

theorem SameHierarchy.not_invisible {k : Nsfs Fd} {opts : CmdLineOptions} (h : SameHierarchy k opts)
    (fd : Fd) : ¬Invisible k opts fd := fun hinv => hinv.2 (h.top fd)

/-- Loops of which each turn gives the same. -/
theorem mapM_map {α β γ : Type} {f : α → Except Stop β} {f' : α → Except Stop γ} {h : β → γ}
    (hf : ∀ a, (f a).map h = f' a) : ∀ l : List α, (l.mapM f).map (List.map h) = l.mapM f' := by
  intro l
  induction l with
  | nil => rfl
  | cons a l ih =>
    rw [List.mapM_cons, List.mapM_cons, ← hf a, ← ih]
    cases f a with
    | error stop => rfl
    | ok b =>
      cases l.mapM f with
      | error stop => rfl
      | ok bs => rfl

/-- A line is put in front of what the children show. -/
theorem map_cons_flatten {β γ : Type} {r : Except Stop (List (List β))} {h : β → γ} (b : β) :
    (r.map fun below => b :: below.flatten).map (List.map h) =
      (r.map (List.map (List.map h))).map fun below => h b :: below.flatten := by
  cases r with
  | error stop => rfl
  | ok below =>
    refine congrArg Except.ok ?_
    rw [List.map_cons, List.map_flatten]

/-- The namespaces are those of the walk down. -/
theorem displayNamespaceTree_walk (nsi : NamespaceInfo) : ∀ (fuel : ℕ) (x : NamespaceID) (level : ℕ),
    (displayNamespaceTree (overview nsi) fuel x level).map (List.map Shown.nsid) =
      walk (childrenOf nsi) fuel x := by
  intro fuel
  induction fuel with
  | zero => intro x level; rfl
  | succ fuel ih =>
    intro x level
    have hx : (overview nsi).nsList x = (nsi.nsList x).map attribs := rfl
    rw [displayNamespaceTree, walk, childrenOf, hx]
    cases nsi.nsList x with
    | none => rfl
    | some e =>
      dsimp only [Option.map_some]
      rw [← mapM_map (fun c => ih c (level + 1)) e.children]
      exact map_cons_flatten _

/-- With enough fuel the program ends, with this map, and has shown this. -/
def Shows (k : Nsfs Fd) (calls : List (Fd × ℤ)) (g : Globals) (shown : List Shown) : Prop :=
  ∃ N, ∀ fuel, N ≤ fuel → main k calls fuel = .ok (g, shown)

/-- More fuel than is needed changes nothing. -/
theorem displayNamespaceTree_mono {nsi : NamespaceInfo} : ∀ {fuel fuel' : ℕ}, fuel ≤ fuel' →
    ∀ {x : NamespaceID} {level : ℕ} {shown : List Shown},
      displayNamespaceTree (overview nsi) fuel x level = .ok shown →
      displayNamespaceTree (overview nsi) fuel' x level = .ok shown := by
  intro fuel
  induction fuel with
  | zero => intro fuel' _ x level shown h; cases h
  | succ fuel ih =>
    intro fuel' hle x level shown h
    obtain ⟨more, rfl⟩ := Nat.exists_eq_add_of_le hle
    rw [Nat.add_right_comm]
    rw [displayNamespaceTree] at h ⊢
    cases hx : (overview nsi).nsList x with
    | none =>
      rw [hx] at h
      cases h
    | some e =>
      rw [hx] at h
      dsimp only at h ⊢
      cases hls : e.children.mapM fun c => displayNamespaceTree (overview nsi) fuel c (level + 1) with
      | error stop =>
        rw [hls] at h
        cases h
      | ok below =>
        have hmore : e.children.mapM (fun c => displayNamespaceTree (overview nsi) (fuel + more) c
            (level + 1)) = .ok below :=
          mapM_of_forall₂ ((forall₂_of_mapM hls).imp fun c shown' hc => ih (Nat.le_add_right _ _) hc)
        rw [hls] at h
        rw [hmore]
        exact h

section Root

variable {k : Nsfs Fd} {opts : CmdLineOptions}

/-- The end of the way up is no special entry. -/
theorem SameHierarchy.exists_top (hsame : SameHierarchy k opts) (fd : Fd) :
    ∃ top, Ancestor k opts fd top ∧ Topmost k opts top := by
  have hup : Grounded (link k opts) := grounded_link
  obtain ⟨t, ht, htop⟩ := hup.exists_top (k.fstat fd)
  rcases above_fstat.mp ht with ⟨top, hanc, rfl⟩ | ⟨-, fd', -, hinv⟩
  · refine ⟨top, hanc, ?_⟩
    rcases fd_cases k opts top with ⟨p, hp⟩ | htopmost | hinv
    · rw [link_fstat, linkFd_of_some hp] at htop
      exact nomatch htop
    · exact htopmost
    · exact absurd hinv (hsame.not_invisible top)
  · exact absurd hinv (hsame.not_invisible fd')

/-- The namespace is in the table already, or is found by the calls. -/
def Known (k : Nsfs Fd) (opts : CmdLineOptions) (nsi : NamespaceInfo) (calls : List (Fd × ℤ))
    (x : NamespaceID) : Prop :=
  (nsi.nsList x).isSome ∨ ∃ fd, Found k opts calls fd ∧ k.fstat fd = x

end Root

/-! ## 5. What the programs do -/

/-- The length of the way up from a namespace. -/
noncomputable def depth (k : Nsfs Fd) (opts : CmdLineOptions) : NamespaceID → ℕ :=
  Grounded.depth (grounded_link : Grounded (link k opts))

end Tlpi.PidNamespaces
