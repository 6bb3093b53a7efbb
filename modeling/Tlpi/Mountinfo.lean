/-
`namespaces/namespaces_of.go`: the namespaces of bind mounts.

`addNamespacesFromMountinfo()` picks the lines of `/proc/thread-self/mountinfo` that have `nsfs` in
them anywhere, opens their fifth field as it stands, and gives the descriptor to `addNamespace()`,
which ends the program if it is not that of a namespace. A line has to fit, with its newline, in the
64 KiB of a `bufio.Scanner`; at one that does not the scan ends.

A line is given by its fields, which have neither blanks nor newlines in them: the kernel writes
these as octal escapes, and a backslash too (`unescape`). Everything is in bytes. What opening a
pathname gives is a parameter: nothing, a namespace, or another file. The identification of another
file is that of no namespace, so `addNamespace()` finds no entry for it and asks for its type.
-/
import Mathlib.Data.List.Infix
import Tlpi.NamespacesOf

set_option autoImplicit false

namespace Tlpi.Mountinfo

open Tlpi.Forest Tlpi.NamespacesOf

abbrev Bytes := List UInt8

/-! ## 1. The file -/

/-- A field has no blank and no newline in it. -/
def IsField (f : Bytes) : Prop := 0x20 ∉ f ∧ 0x0a ∉ f

instance (f : Bytes) : Decidable (IsField f) := inferInstanceAs (Decidable (0x20 ∉ f ∧ 0x0a ∉ f))

/-- A line of the file. -/
structure Mount where
  mountID : Bytes
  parentID : Bytes
  majorMinor : Bytes
  root : Bytes
  mountPoint : Bytes
  mountOptions : Bytes
  optionalFields : List Bytes
  fsType : Bytes
  mountSource : Bytes
  superOptions : Bytes
  isField : ∀ f ∈ [mountID, parentID, majorMinor, root, mountPoint, mountOptions] ++ optionalFields ++
    [fsType, mountSource, superOptions], IsField f

/-- The fields before the last one; a hyphen is between the optional fields and the type. -/
def Mount.first (m : Mount) : List Bytes :=
  [m.mountID, m.parentID, m.majorMinor, m.root, m.mountPoint, m.mountOptions] ++ m.optionalFields ++
    [[0x2d], m.fsType, m.mountSource]

def Mount.line (m : Mount) : Bytes := [0x20].intercalate (m.first ++ [m.superOptions])

def file (mounts : List Mount) : Bytes := mounts.flatMap fun m => m.line ++ [0x0a]

def isOctal (b : UInt8) : Bool := 0x30 ≤ b && b ≤ 0x37

/-- A pathname of which the escapes are written. -/
def unescape : Bytes → Bytes
  | 0x5c :: a :: b :: c :: rest =>
    if isOctal a && isOctal b && isOctal c then
      ((a - 0x30) * 64 + (b - 0x30) * 8 + (c - 0x30)) :: unescape rest
    else 0x5c :: unescape (a :: b :: c :: rest)
  | b :: rest => b :: unescape rest
  | [] => []

example : unescape [0x2f, 0x61, 0x5c, 0x30, 0x34, 0x30, 0x62] = [0x2f, 0x61, 0x20, 0x62] := by decide

/-! ## 2. The scan -/

/-- `bufio.MaxScanTokenSize` -/
abbrev MaxScanTokenSize : ℕ := 64 * 1024

def dropCR (data : Bytes) : Bytes := if data.getLast? = some 0x0d then data.dropLast else data

/-- The tokens of `bufio.ScanLines`, of what is between the newlines. -/
def scan : List Bytes → List Bytes
  | [] => []
  -- after the last newline
  | [data] => if data = [] ∨ MaxScanTokenSize ≤ data.length then [] else [dropCR data]
  | data :: rest => if MaxScanTokenSize ≤ data.length then [] else dropCR data :: scan rest

def scanLines (data : Bytes) : List Bytes := scan (data.splitOn 0x0a)

/-! ## 3. The function -/

/-- What is opened. -/
inductive Opened (Fd : Type) where
  | ns (nsfd : Fd)
  | other
deriving Repr, DecidableEq

/-- What ends the program. -/
inductive Failure where
  | indexOutOfRange
  /-- `namespaceType()` of what is not a namespace -/
  | namespaceType
  | stop (stop : Stop)
deriving Repr, DecidableEq

/-- `nsfs` -/
def nsfs : Bytes := [0x6e, 0x73, 0x66, 0x73]

variable {Fd : Type}

section Function

variable (k : Nsfs Fd) (opts : CmdLineOptions) (openFile : Bytes → Option (Opened Fd))

/-- Without `--pidns`, or of a PID namespace. -/
def Shown (nsfd : Fd) : Prop := opts.showPidnsHierarchy = false ∨ k.nsType nsfd = CLONE_NEWPID

instance (nsfd : Fd) : Decidable (Shown k opts nsfd) :=
  inferInstanceAs (Decidable (opts.showPidnsHierarchy = false ∨ k.nsType nsfd = CLONE_NEWPID))

/-- The body of the loop. -/
def addFromLine (fuel : ℕ) (nsi : NamespaceInfo) (text : Bytes) : Except Failure NamespaceInfo :=
  if nsfs <:+: text then
    match (text.splitOn 0x20)[4]? with
    | none => .error .indexOutOfRange
    | some pathname =>
      match openFile pathname with
      -- maybe the bind mount was removed
      | none => .ok nsi
      | some .other =>
        -- the type is asked for here without being fatal, and then again by `addNamespaceToList()`
        if opts.showPidnsHierarchy then .ok nsi else .error .namespaceType
      | some (.ns nsfd) =>
        if Shown k opts nsfd then
          ((addNamespace k opts fuel nsi nsfd (-1)).map Prod.fst).mapError .stop
        else .ok nsi
  else .ok nsi

/-- The file is `none` when it cannot be opened. -/
def addNamespacesFromMountinfo (fuel : ℕ) (nsi : NamespaceInfo) (mountinfo : Option Bytes) :
    Except Failure NamespaceInfo :=
  match mountinfo with
  | none => .ok nsi
  | some data => (scanLines data).foldlM (addFromLine k opts openFile fuel) nsi

end Function

/-! ## 4. What is to be added -/

/-- The lines that the scan gets to. -/
def seen (mounts : List Mount) : List Mount :=
  mounts.takeWhile fun m => m.line.length < MaxScanTokenSize

/-- The mount point is written as it is. -/
def Mount.Plain (m : Mount) : Prop := unescape m.mountPoint = m.mountPoint

section Wanted

variable (k : Nsfs Fd) (opts : CmdLineOptions) (openFile : Bytes → Option (Opened Fd))

/-- A namespace that is bound by a mount of type nsfs and can be opened there. -/
def Wanted (mounts : List Mount) (nsfd : Fd) : Prop :=
  ∃ m ∈ mounts, m.fsType = nsfs ∧ openFile (unescape m.mountPoint) = some (.ns nsfd) ∧ Shown k opts nsfd

/-- **The function returns, and adds the wanted namespaces and those above them.** -/
def AddsExactly (nsi : NamespaceInfo) (mounts : List Mount) : Prop :=
  ∃ nsi' N, (∀ fuel, N ≤ fuel →
      addNamespacesFromMountinfo k opts openFile fuel nsi (some (file mounts)) = .ok nsi') ∧
    ∀ x, (nsi'.nsList x).isSome ↔ (nsi.nsList x).isSome ∨
      ∃ nsfd, Wanted k opts openFile mounts nsfd ∧ Above (link k opts) (k.fstat nsfd) x

/-- The line is picked, and what is opened for it is not a namespace. -/
def Fatal (m : Mount) : Prop :=
  opts.showPidnsHierarchy = false ∧ nsfs <:+: m.line ∧ openFile m.mountPoint = some .other

/-- A namespace of a mount that is read as it is meant. -/
def Read (mounts : List Mount) (nsfd : Fd) : Prop :=
  ∃ m ∈ seen mounts, m.fsType = nsfs ∧ m.Plain ∧ openFile m.mountPoint = some (.ns nsfd) ∧
    Shown k opts nsfd

/-- A wanted namespace of a mount that is not got to, or whose mount point has escapes in it. -/
def Missed (mounts : List Mount) (nsfd : Fd) : Prop :=
  ∃ m ∈ mounts, m.fsType = nsfs ∧ openFile (unescape m.mountPoint) = some (.ns nsfd) ∧
    Shown k opts nsfd ∧ ¬(m ∈ seen mounts ∧ m.Plain)

/-- A namespace that is opened for a line of another type, or by a mount point with escapes in it. -/
def Stray (mounts : List Mount) (nsfd : Fd) : Prop :=
  ∃ m ∈ seen mounts, nsfs <:+: m.line ∧ openFile m.mountPoint = some (.ns nsfd) ∧
    Shown k opts nsfd ∧ ¬(m.fsType = nsfs ∧ m.Plain)

/-- No line is fatal, and what is missed or strays in is there for another reason. -/
structure Harmless (nsi : NamespaceInfo) (mounts : List Mount) : Prop where
  fatal : ∀ m ∈ seen mounts, ¬Fatal opts openFile m
  missed : ∀ nsfd, Missed k opts openFile mounts nsfd → (nsi.nsList (k.fstat nsfd)).isSome ∨
    ∃ nsfd', (Read k opts openFile mounts nsfd' ∨ Stray k opts openFile mounts nsfd') ∧
      Above (link k opts) (k.fstat nsfd') (k.fstat nsfd)
  stray : ∀ nsfd, Stray k opts openFile mounts nsfd → (nsi.nsList (k.fstat nsfd)).isSome ∨
    ∃ nsfd', (Read k opts openFile mounts nsfd' ∨ Missed k opts openFile mounts nsfd') ∧
      Above (link k opts) (k.fstat nsfd') (k.fstat nsfd)

end Wanted

/-! ## 5. The text of a line -/

theorem Mount.isField_of_mem (m : Mount) {f : Bytes} (h : f ∈ m.first ++ [m.superOptions]) :
    IsField f := by
  have hhyphen : IsField [0x2d] := ⟨by decide, by decide⟩
  rw [Mount.first, List.append_assoc] at h
  rcases List.mem_append.mp h with h | h
  · exact m.isField f (List.mem_append_left _ h)
  · rcases List.mem_cons.mp h with rfl | h
    · exact hhyphen
    · exact m.isField f (List.mem_append_right _ h)

theorem dropCR_subset {data : Bytes} {b : UInt8} (h : b ∈ dropCR data) : b ∈ data := by
  rw [dropCR] at h
  split at h
  · exact List.mem_of_mem_dropLast h
  · exact h

theorem intercalate_snoc (first : List Bytes) (hne : first ≠ []) (last : Bytes) :
    [0x20].intercalate (first ++ [last]) = [0x20].intercalate first ++ 0x20 :: last := by
  induction first with
  | nil => exact absurd rfl hne
  | cons f first ih =>
    by_cases hfirst : first = []
    · rw [hfirst]
      simp
    · rw [List.cons_append, List.intercalate_cons_of_ne_nil (by simp), ih hfirst,
        List.intercalate_cons_of_ne_nil hfirst]
      simp only [List.append_assoc]

theorem Mount.first_ne_nil (m : Mount) : m.first ≠ [] := by
  rw [Mount.first, List.cons_append]
  exact List.cons_ne_nil _ _

/-- Nothing but the last field is touched. -/
theorem dropCR_line (m : Mount) :
    dropCR m.line = [0x20].intercalate (m.first ++ [dropCR m.superOptions]) := by
  rw [Mount.line, intercalate_snoc _ m.first_ne_nil, intercalate_snoc _ m.first_ne_nil]
  generalize [0x20].intercalate m.first = first
  by_cases hnil : m.superOptions = []
  · rw [hnil, dropCR, if_neg, dropCR, if_neg]
    · decide
    · rw [List.getLast?_append_of_ne_nil _ (by simp)]
      decide
  · have hlast : (first ++ 0x20 :: m.superOptions).getLast? = m.superOptions.getLast? := by
      rw [List.append_cons, List.getLast?_append_of_ne_nil _ hnil]
    rw [dropCR, dropCR, hlast]
    split
    · rw [List.append_cons, List.dropLast_append_of_ne_nil hnil, ← List.append_cons]
    · rfl

/-- The fifth field is what is opened. -/
theorem splitOn_line (m : Mount) : ((dropCR m.line).splitOn 0x20)[4]? = some m.mountPoint := by
  rw [dropCR_line, List.splitOn_intercalate]
  · rfl
  · intro f hf
    rcases List.mem_append.mp hf with hf | hf
    · exact (m.isField_of_mem (List.mem_append_left _ hf)).1
    · rw [List.mem_singleton.mp hf]
      intro hb
      exact (m.isField_of_mem (List.mem_append_right _ (List.mem_singleton_self _))).1 (dropCR_subset hb)
  · simp

/-- What is looked for does not end in a carriage return. -/
theorem infix_dropCR (data : Bytes) : nsfs <:+: dropCR data ↔ nsfs <:+: data := by
  rw [dropCR]
  split
  · rename_i hlast
    obtain ⟨init, rfl⟩ := List.getLast?_eq_some_iff.mp hlast
    rw [List.dropLast_concat, List.infix_concat_iff]
    refine ⟨.inr, fun h => h.resolve_left ?_⟩
    rintro ⟨pre, hpre⟩
    have hend := congrArg List.getLast? hpre
    rw [List.getLast?_append_of_ne_nil _ (by decide), List.getLast?_concat] at hend
    exact absurd hend (by decide)
  · exact Iff.rfl

/-- The type is in the line. -/
theorem infix_of_fsType {m : Mount} (h : m.fsType = nsfs) : nsfs <:+: m.line := by
  have hmem : m.fsType ∈ m.first ++ [m.superOptions] := by
    simp [Mount.first]
  rw [Mount.line, ← h]
  generalize m.first ++ [m.superOptions] = fields at hmem
  induction fields with
  | nil => exact nomatch hmem
  | cons f fields ih =>
    rcases List.mem_cons.mp hmem with rfl | hmem
    · cases fields with
      | nil =>
        rw [List.intercalate_singleton]
      | cons f' fields =>
        rw [List.intercalate_cons_cons, List.append_assoc]
        exact (List.prefix_append _ _).isInfix
    · rw [List.intercalate_cons_of_ne_nil (List.ne_nil_of_mem hmem)]
      exact (ih hmem).trans (List.suffix_append _ _).isInfix

/-! ## 6. The lines of the file -/

theorem mem_of_mem_intercalate {b : UInt8} {fields : List Bytes}
    (h : b ∈ [0x20].intercalate fields) : b = 0x20 ∨ ∃ f ∈ fields, b ∈ f := by
  induction fields with
  | nil => exact nomatch h
  | cons f fields ih =>
    cases fields with
    | nil =>
      rw [List.intercalate_singleton] at h
      exact .inr ⟨f, List.mem_cons_self, h⟩
    | cons f' fields =>
      rw [List.intercalate_cons_cons, List.mem_append, List.mem_append, List.mem_singleton] at h
      rcases h with (h | h) | h
      · exact .inr ⟨f, List.mem_cons_self, h⟩
      · exact .inl h
      · refine (ih h).imp_right ?_
        rintro ⟨f'', hf'', hb⟩
        exact ⟨f'', List.mem_cons_of_mem _ hf'', hb⟩

theorem Mount.not_mem_line (m : Mount) : 0x0a ∉ m.line := by
  intro h
  rcases mem_of_mem_intercalate h with h | ⟨f, hf, h⟩
  · exact absurd h (by decide)
  · exact (m.isField_of_mem hf).2 h

theorem splitOn_file (mounts : List Mount) :
    (file mounts).splitOn 0x0a = mounts.map Mount.line ++ [[]] := by
  induction mounts with
  | nil => rfl
  | cons m mounts ih =>
    rw [file, List.flatMap_cons, List.append_assoc, List.singleton_append,
      List.splitOn_append_cons_self_of_not_mem m.not_mem_line, List.map_cons, List.cons_append, ← ih]
    rfl

/-- The scan goes on to the first line that does not fit. -/
theorem scanLines_file (mounts : List Mount) :
    scanLines (file mounts) = (seen mounts).map fun m => dropCR m.line := by
  rw [scanLines, splitOn_file]
  induction mounts with
  | nil => rfl
  | cons m mounts ih =>
    obtain ⟨data, rest, hrest⟩ := List.exists_cons_of_ne_nil (List.append_ne_nil_of_right_ne_nil
      (mounts.map Mount.line) (List.cons_ne_nil ([] : Bytes) []))
    rw [List.map_cons, List.cons_append, seen, List.takeWhile_cons]
    rw [hrest] at ih ⊢
    rw [scan]
    by_cases hfits : MaxScanTokenSize ≤ m.line.length
    · rw [if_pos hfits, if_neg]
      · rfl
      · simpa using hfits
    · rw [if_neg hfits, if_pos, List.map_cons, ih]
      · rfl
      · simpa using hfits
    · intro hnil
      exact nomatch hnil

section Loop

variable {k : Nsfs Fd} {opts : CmdLineOptions} {openFile : Bytes → Option (Opened Fd)}

/-- The call of `addNamespace()` that a line leads to. -/
def callOf (k : Nsfs Fd) (opts : CmdLineOptions) (openFile : Bytes → Option (Opened Fd))
    (m : Mount) : Option (Fd × ℤ) :=
  if nsfs <:+: m.line then
    match openFile m.mountPoint with
    | some (.ns nsfd) => if Shown k opts nsfd then some (nsfd, -1) else none
    | _ => none
  else none

theorem callOf_eq_some {m : Mount} {call : Fd × ℤ} :
    callOf k opts openFile m = some call ↔ nsfs <:+: m.line ∧
      openFile m.mountPoint = some (.ns call.1) ∧ Shown k opts call.1 ∧ call.2 = -1 := by
  rw [callOf]
  constructor
  · intro h
    obtain ⟨hpicked, h⟩ := Option.ite_none_right_eq_some.mp h
    split at h
    · rename_i nsfd hopen
      obtain ⟨hshown, h⟩ := Option.ite_none_right_eq_some.mp h
      rw [← Option.some.inj h]
      exact ⟨hpicked, hopen, hshown, rfl⟩
    · exact nomatch h
  · rintro ⟨hpicked, hopen, hshown, hpid⟩
    rw [if_pos hpicked, hopen]
    simp only [if_pos hshown, ← hpid]

theorem addNamespaces_singleton (fuel : ℕ) (nsi : NamespaceInfo) (call : Fd × ℤ) :
    addNamespaces k opts fuel nsi [call] = (addNamespace k opts fuel nsi call.1 call.2).map Prod.fst := by
  rw [addNamespaces]
  cases addNamespace k opts fuel nsi call.1 call.2 with
  | error stop => rfl
  | ok res => rfl

/-- What a line that is picked does. -/
theorem addFromLine_of_picked {m : Mount} (h : nsfs <:+: m.line) (fuel : ℕ) (nsi : NamespaceInfo) :
    addFromLine k opts openFile fuel nsi (dropCR m.line) =
      match openFile m.mountPoint with
      | none => .ok nsi
      | some .other => if opts.showPidnsHierarchy then .ok nsi else .error .namespaceType
      | some (.ns nsfd) =>
        if Shown k opts nsfd then
          ((addNamespace k opts fuel nsi nsfd (-1)).map Prod.fst).mapError .stop
        else .ok nsi := by
  rw [addFromLine, if_pos ((infix_dropCR m.line).mpr h), splitOn_line]

/-- A line that is not fatal leads to its call, if it leads to one. -/
theorem addFromLine_of_not_fatal {m : Mount} (h : ¬Fatal opts openFile m) (fuel : ℕ)
    (nsi : NamespaceInfo) : addFromLine k opts openFile fuel nsi (dropCR m.line) =
      (addNamespaces k opts fuel nsi (callOf k opts openFile m).toList).mapError .stop := by
  by_cases hpicked : nsfs <:+: m.line
  · rw [addFromLine_of_picked hpicked, callOf, if_pos hpicked]
    cases hopen : openFile m.mountPoint with
    | none => rfl
    | some opened =>
      cases opened with
      | other =>
        have hpid : opts.showPidnsHierarchy = true := by
          rw [← Bool.not_eq_false]
          exact fun hno => h ⟨hno, hpicked, hopen⟩
        simp only [hpid, if_true]
        rfl
      | ns nsfd =>
        by_cases hshown : Shown k opts nsfd
        · simp only [if_pos hshown, Option.toList_some, addNamespaces_singleton]
        · simp only [if_neg hshown]
          rfl
  · rw [addFromLine, if_neg fun hdrop => hpicked ((infix_dropCR m.line).mp hdrop), callOf, if_neg hpicked]
    rfl

theorem addFromLine_of_fatal {m : Mount} (h : Fatal opts openFile m) (fuel : ℕ)
    (nsi : NamespaceInfo) :
    addFromLine k opts openFile fuel nsi (dropCR m.line) = .error .namespaceType := by
  rw [addFromLine_of_picked h.2.1, h.2.2]
  simp only [h.1, Bool.false_eq_true, if_false]

theorem addNamespaces_append (fuel : ℕ) (calls calls' : List (Fd × ℤ)) : ∀ nsi : NamespaceInfo,
    addNamespaces k opts fuel nsi (calls ++ calls') =
      (addNamespaces k opts fuel nsi calls).bind fun nsi => addNamespaces k opts fuel nsi calls' := by
  induction calls with
  | nil => exact fun nsi => rfl
  | cons call calls ih =>
    intro nsi
    rw [List.cons_append, addNamespaces, addNamespaces]
    cases addNamespace k opts fuel nsi call.1 call.2 with
    | error stop => rfl
    | ok res => exact ih res.1

/-- **The loop is a sequence of calls** where no line is fatal. -/
theorem foldlM_addFromLine (fuel : ℕ) (mounts : List Mount) : ∀ nsi : NamespaceInfo,
    (∀ m ∈ mounts, ¬Fatal opts openFile m) →
      (mounts.map fun m => dropCR m.line).foldlM (addFromLine k opts openFile fuel) nsi =
        (addNamespaces k opts fuel nsi (mounts.filterMap (callOf k opts openFile))).mapError .stop := by
  induction mounts with
  | nil => exact fun nsi _ => rfl
  | cons m mounts ih =>
    intro nsi h
    have hcalls : (m :: mounts).filterMap (callOf k opts openFile) =
        (callOf k opts openFile m).toList ++ mounts.filterMap (callOf k opts openFile) := by
      rw [List.filterMap_cons]
      cases callOf k opts openFile m with
      | none => rfl
      | some call => rfl
    rw [List.map_cons, List.foldlM_cons, addFromLine_of_not_fatal (h m List.mem_cons_self), hcalls,
      addNamespaces_append]
    cases addNamespaces k opts fuel nsi (callOf k opts openFile m).toList with
    | error stop => rfl
    | ok nsi' => exact ih nsi' fun m' hm' => h m' (List.mem_cons_of_mem _ hm')

/-- A fatal line ends the program, if nothing before it does. -/
theorem foldlM_addFromLine_of_fatal (fuel : ℕ) (mounts : List Mount) : ∀ nsi : NamespaceInfo,
    (∃ m ∈ mounts, Fatal opts openFile m) → ∀ nsi',
      (mounts.map fun m => dropCR m.line).foldlM (addFromLine k opts openFile fuel) nsi ≠ .ok nsi' := by
  induction mounts with
  | nil => exact fun nsi ⟨m, hm, _⟩ => nomatch hm
  | cons m mounts ih =>
    intro nsi hfatal nsi' heq
    rw [List.map_cons, List.foldlM_cons] at heq
    by_cases hm : Fatal opts openFile m
    · rw [addFromLine_of_fatal hm] at heq
      exact nomatch heq
    · obtain ⟨m', hm', hfatal⟩ := hfatal
      rcases List.mem_cons.mp hm' with rfl | hm'
      · exact hm hfatal
      · cases hline : addFromLine k opts openFile fuel nsi (dropCR m.line) with
        | error failure =>
          rw [hline] at heq
          exact nomatch heq
        | ok nsi₁ =>
          rw [hline] at heq
          exact ih nsi₁ ⟨m', hm', hfatal⟩ nsi' heq

/-! ## 7. What is added -/

/-- The namespaces that are opened: those that are read as they are meant, and those that stray in. -/
theorem mem_calls {mounts : List Mount} {nsfd : Fd} :
    (∃ call ∈ (seen mounts).filterMap (callOf k opts openFile), call.1 = nsfd) ↔
      Read k opts openFile mounts nsfd ∨ Stray k opts openFile mounts nsfd := by
  constructor
  · rintro ⟨call, hcall, rfl⟩
    obtain ⟨m, hm, hcall⟩ := List.mem_filterMap.mp hcall
    obtain ⟨hpicked, hopen, hshown, -⟩ := callOf_eq_some.mp hcall
    by_cases hmeant : m.fsType = nsfs ∧ m.Plain
    · exact .inl ⟨m, hm, hmeant.1, hmeant.2, hopen, hshown⟩
    · exact .inr ⟨m, hm, hpicked, hopen, hshown, hmeant⟩
  · rintro (⟨m, hm, htype, -, hopen, hshown⟩ | ⟨m, hm, hpicked, hopen, hshown, -⟩)
    · exact ⟨(nsfd, -1), List.mem_filterMap.mpr ⟨m, hm, callOf_eq_some.mpr
        ⟨infix_of_fsType htype, hopen, hshown, rfl⟩⟩, rfl⟩
    · exact ⟨(nsfd, -1), List.mem_filterMap.mpr ⟨m, hm, callOf_eq_some.mpr
        ⟨hpicked, hopen, hshown, rfl⟩⟩, rfl⟩

/-- The namespaces that are wanted: those that are read as they are meant, and those that are missed. -/
theorem wanted_iff {mounts : List Mount} {nsfd : Fd} : Wanted k opts openFile mounts nsfd ↔
    Read k opts openFile mounts nsfd ∨ Missed k opts openFile mounts nsfd := by
  constructor
  · rintro ⟨m, hm, htype, hopen, hshown⟩
    by_cases hmeant : m ∈ seen mounts ∧ m.Plain
    · exact .inl ⟨m, hmeant.1, htype, hmeant.2, hmeant.2 ▸ hopen, hshown⟩
    · exact .inr ⟨m, hm, htype, hopen, hshown, hmeant⟩
  · rintro (⟨m, hm, htype, hplain, hopen, hshown⟩ | ⟨m, hm, htype, hopen, hshown, -⟩)
    · exact ⟨m, List.takeWhile_subset _ hm, htype, hplain.symm ▸ hopen, hshown⟩
    · exact ⟨m, hm, htype, hopen, hshown⟩

/-- Where no line is fatal, the function returns, and what is opened is added. -/
theorem addNamespacesFromMountinfo_returns {nsi : NamespaceInfo} (htable : Table k opts [] nsi)
    {mounts : List Mount} (h : ∀ m ∈ seen mounts, ¬Fatal opts openFile m) : ∃ nsi' N,
      (∀ fuel, N ≤ fuel →
        addNamespacesFromMountinfo k opts openFile fuel nsi (some (file mounts)) = .ok nsi') ∧
      ∀ x, (nsi'.nsList x).isSome ↔ (nsi.nsList x).isSome ∨
        ∃ nsfd, (Read k opts openFile mounts nsfd ∨ Stray k opts openFile mounts nsfd) ∧
          Above (link k opts) (k.fstat nsfd) x := by
  obtain ⟨nsi', N, hcalls, -, hkeys, -⟩ :=
    addNamespaces_table ((seen mounts).filterMap (callOf k opts openFile)) nsi htable
  refine ⟨nsi', N, ?_, ?_⟩
  · intro fuel hfuel
    rw [addNamespacesFromMountinfo]
    simp only [scanLines_file, foldlM_addFromLine fuel _ nsi h, hcalls fuel hfuel]
    rfl
  · intro x
    rw [hkeys, Reached]
    simp only [← mem_calls]
    constructor
    · refine Or.imp_right ?_
      rintro ⟨call, hcall, hx⟩
      exact ⟨call.1, ⟨call, hcall, rfl⟩, hx⟩
    · refine Or.imp_right ?_
      rintro ⟨nsfd, ⟨call, hcall, heq⟩, hx⟩
      exact ⟨call, hcall, heq ▸ hx⟩

theorem Harmless.of_addsExactly {nsi : NamespaceInfo} (htable : Table k opts [] nsi)
    {mounts : List Mount} (h : AddsExactly k opts openFile nsi mounts) :
    Harmless k opts openFile nsi mounts := by
  obtain ⟨nsi', N, hreturns, hkeys⟩ := h
  have hfatal : ∀ m ∈ seen mounts, ¬Fatal opts openFile m := by
    intro m hm hfatal
    have hN := hreturns N le_rfl
    rw [addNamespacesFromMountinfo] at hN
    simp only [scanLines_file] at hN
    exact foldlM_addFromLine_of_fatal N _ nsi ⟨m, hm, hfatal⟩ nsi' hN
  obtain ⟨nsi'', N', hreturns', hkeys'⟩ := addNamespacesFromMountinfo_returns htable hfatal
  have hsame : nsi' = nsi'' := Except.ok.inj <|
    (hreturns (max N N') (le_max_left _ _)).symm.trans (hreturns' (max N N') (le_max_right _ _))
  -- the two sets of keys are one, so what is in one of them is in the other
  have hset : ∀ x, ((nsi.nsList x).isSome ∨ ∃ nsfd, (Read k opts openFile mounts nsfd ∨
        Missed k opts openFile mounts nsfd) ∧ Above (link k opts) (k.fstat nsfd) x) ↔
      (nsi.nsList x).isSome ∨ ∃ nsfd, (Read k opts openFile mounts nsfd ∨
        Stray k opts openFile mounts nsfd) ∧ Above (link k opts) (k.fstat nsfd) x := by
    intro x
    rw [← hkeys', ← hsame, hkeys]
    simp only [wanted_iff]
  refine ⟨hfatal, ?_, ?_⟩
  · exact fun nsfd hmissed => (hset _).mp (.inr ⟨nsfd, .inr hmissed, .refl⟩)
  · exact fun nsfd hstray => (hset _).mpr (.inr ⟨nsfd, .inr hstray, .refl⟩)

theorem Harmless.addsExactly {nsi : NamespaceInfo} (htable : Table k opts [] nsi)
    {mounts : List Mount} (h : Harmless k opts openFile nsi mounts) :
    AddsExactly k opts openFile nsi mounts := by
  obtain ⟨nsi', N, hreturns, hkeys⟩ := addNamespacesFromMountinfo_returns htable h.fatal
  refine ⟨nsi', N, hreturns, fun x => ?_⟩
  -- what is above a namespace that is there is there
  have habove : ∀ {P : Fd → Prop} {nsfd : Fd}, ((nsi.nsList (k.fstat nsfd)).isSome ∨
      ∃ nsfd', P nsfd' ∧ Above (link k opts) (k.fstat nsfd') (k.fstat nsfd)) →
        Above (link k opts) (k.fstat nsfd) x → (nsi.nsList x).isSome ∨
          ∃ nsfd', P nsfd' ∧ Above (link k opts) (k.fstat nsfd') x := by
    rintro P nsfd (hsome | ⟨nsfd', hP, hup⟩) hx
    · exact .inl (htable.above hsome (fun _ _ => List.not_mem_nil) hx)
    · exact .inr ⟨nsfd', hP, hup.trans hx⟩
  rw [hkeys]
  simp only [wanted_iff]
  constructor
  · rintro (hsome | ⟨nsfd, hread | hstray, hx⟩)
    · exact .inl hsome
    · exact .inr ⟨nsfd, .inl hread, hx⟩
    · exact habove (h.stray nsfd hstray) hx
  · rintro (hsome | ⟨nsfd, hread | hmissed, hx⟩)
    · exact .inl hsome
    · exact .inr ⟨nsfd, .inl hread, hx⟩
    · exact habove (h.missed nsfd hmissed) hx

end Loop

/-- **Exactly the wanted namespaces are added where no line is fatal and the lines that are misread
do no harm.** -/
theorem addsExactly_iff (k : Nsfs Fd) (opts : CmdLineOptions)
    (openFile : Bytes → Option (Opened Fd)) (calls : List (Fd × ℤ)) (nsi : NamespaceInfo)
    (hbuilds : Builds k opts calls nsi) (mounts : List Mount) :
    AddsExactly k opts openFile nsi mounts ↔ Harmless k opts openFile nsi mounts := by
  obtain ⟨nsi₀, hbuilds₀, htable, -⟩ := builds_table k opts calls
  rw [hbuilds.unique hbuilds₀]
  exact ⟨.of_addsExactly htable, Harmless.addsExactly htable⟩

/-- A mount of type nsfs on `/n`. -/
def nsMount : Mount where
  mountID := [0x31]
  parentID := [0x31]
  majorMinor := [0x30, 0x3a, 0x34]
  root := [0x6e]
  mountPoint := [0x2f, 0x6e]
  mountOptions := [0x72, 0x77]
  optionalFields := [[0x73, 0x3a, 0x31]]
  fsType := nsfs
  mountSource := nsfs
  superOptions := [0x72, 0x77]
  isField := by decide

theorem seen_singleton {m : Mount} (h : m.line.length < MaxScanTokenSize) : seen [m] = [m] := by
  rw [seen, List.takeWhile_cons, if_pos (decide_eq_true h), List.takeWhile_nil]

/-- A UTS namespace is bound on `/n`. -/
theorem addsExactly_iff_uts : AddsExactly nestedUser ⟨false, CLONE_NEWUTS⟩
    (fun path => if path = [0x2f, 0x6e] then some (.ns 2) else none) {} [nsMount] := by
  refine (addsExactly_iff nestedUser ⟨false, CLONE_NEWUTS⟩ _ [] {} ⟨0, fun _ _ => rfl⟩ _).mpr ?_
  have hseen : seen [nsMount] = [nsMount] := seen_singleton (by decide)
  have hplain : nsMount.Plain := by
    rw [Mount.Plain]
    decide
  refine ⟨?_, ?_, ?_⟩
  · rw [hseen]
    rintro m hm ⟨-, -, hopen⟩
    rw [List.mem_singleton.mp hm] at hopen
    exact nomatch hopen
  · rintro nsfd ⟨m, hm, -, -, -, hnot⟩
    rw [List.mem_singleton.mp hm] at hnot
    exact absurd ⟨hseen ▸ List.mem_singleton_self _, hplain⟩ hnot
  · rintro nsfd ⟨m, hm, -, -, -, hnot⟩
    rw [hseen, List.mem_singleton] at hm
    rw [hm] at hnot
    exact absurd ⟨rfl, hplain⟩ hnot

/-- A tmpfs on `/nsfs`. -/
def tmpfsMount : Mount :=
  { nsMount with
    mountPoint := 0x2f :: nsfs
    fsType := [0x74, 0x6d, 0x70, 0x66, 0x73]
    mountSource := [0x74, 0x6d, 0x70, 0x66, 0x73]
    isField := by decide }

/-- A mount of type nsfs on `/a b`. -/
def blankMount : Mount :=
  { nsMount with
    mountPoint := [0x2f, 0x61, 0x5c, 0x30, 0x34, 0x30, 0x62]
    isField := by decide }

/-- The tmpfs ends the program, and the namespace on `/a b` is not found. -/
theorem mountinfo_misread :
    ¬AddsExactly nestedUser ⟨false, CLONE_NEWUTS⟩
      (fun path => if path = 0x2f :: nsfs then some .other else none) {} [tmpfsMount] ∧
    ¬AddsExactly nestedUser ⟨false, CLONE_NEWUTS⟩
      (fun path => if path = [0x2f, 0x61, 0x20, 0x62] then some (.ns 2) else none) {} [blankMount] := by
  constructor
  · intro h
    refine (Harmless.of_addsExactly Table.empty h).fatal tmpfsMount ?_ ⟨rfl, by decide, by decide⟩
    rw [seen_singleton (by decide)]
    exact List.mem_singleton_self _
  · intro h
    have hseen : seen [blankMount] = [blankMount] := seen_singleton (by decide)
    have hnone : ∀ m ∈ seen [blankMount], m.mountPoint ≠ [0x2f, 0x61, 0x20, 0x62] := by
      rw [hseen]
      decide
    have hmissed : ¬(blankMount ∈ seen [blankMount] ∧ blankMount.Plain) := by
      rintro ⟨-, hplain⟩
      exact absurd hplain (by rw [Mount.Plain]; decide)
    rcases (Harmless.of_addsExactly Table.empty h).missed 2
      ⟨blankMount, List.mem_singleton_self _, rfl, by decide, .inl rfl, hmissed⟩ with
      hsome | ⟨nsfd, ⟨m, hm, -, -, hopen, -⟩ | ⟨m, hm, -, hopen, -⟩, -⟩
    · exact nomatch hsome
    · exact nomatch (if_neg (hnone m hm)).symm.trans hopen
    · exact nomatch (if_neg (hnone m hm)).symm.trans hopen

end Tlpi.Mountinfo
