/-
`acl/acl_update.c`: the update of the access control list of a file.

`updateACL()` goes through the entries of a request. The steps that check the list and store it in the
file are inside the loop, so that a request of several entries is stored entry by entry, and whether
it is refused depends on what the list is like in between.

`acl_t` is a list of entries, and an `acl_entry_t` an index into it. `acl_valid()` is the predicate
of POSIX.1e, and of the functions of libacl that change a list (`Libacl`) it is known what their manual
pages say; like `acl_set_file()` they do not fail. What the
order of the entries is after that means nothing: everything is said about the permissions that a list
has under a tag and qualifier.
-/
import Mathlib.Data.List.Nodup
import Mathlib.Data.List.Perm.Basic
import Mathlib.Logic.Function.Basic
import Tlpi.AclText
import Tlpi.Batch

set_option autoImplicit false

namespace Tlpi.AclUpdate

open Tlpi.AclText Tlpi.Batch Tlpi.UgidFunctions

/-! ## 1. Lists of entries -/

/-- A tag, with the qualifier that is part of it. -/
inductive Key where
  | userObj
  | user (uid : Id)
  | groupObj
  | group (gid : Id)
  | mask
  | other
deriving Repr, DecidableEq

namespace Key

def tag : Key → AclTag
  | userObj => .ACL_USER_OBJ
  | user _ => .ACL_USER
  | groupObj => .ACL_GROUP_OBJ
  | group _ => .ACL_GROUP
  | mask => .ACL_MASK
  | other => .ACL_OTHER

/-- An entry for a user or group with a name. -/
def isNamed : Key → Bool
  | user _ | group _ => true
  | _ => false

/-- An entry of the file group class. -/
def inGroupClass : Key → Bool
  | user _ | groupObj | group _ => true
  | _ => false

end Key

structure AclEntry where
  key : Key
  perms : BitVec 32
deriving Repr, DecidableEq

/-- `acl_t` -/
abbrev Acl := List AclEntry

def keys (acl : Acl) : List Key := acl.map (·.key)

/-- The permissions under a tag and qualifier. -/
def lookup (acl : Acl) (key : Key) : Option (BitVec 32) :=
  (acl.find? fun entry => entry.key = key).map (·.perms)

/-- No two entries are for the same. -/
def Distinct (acl : Acl) : Prop := (keys acl).Nodup

instance (acl : Acl) : Decidable (Distinct acl) := inferInstanceAs (Decidable (List.Nodup _))

/-- `acl_valid()`: exactly one entry for the owner, for the owning group and for others, a mask if
there are entries with names, and no qualifier twice. -/
def acl_valid (acl : Acl) : Prop :=
  (keys acl).count .userObj = 1 ∧ (keys acl).count .groupObj = 1 ∧ (keys acl).count .other = 1 ∧
    ((∃ key ∈ keys acl, key.isNamed = true) → .mask ∈ keys acl) ∧
    ((keys acl).filter Key.isNamed).Nodup

instance (acl : Acl) : Decidable (acl_valid acl) :=
  inferInstanceAs (Decidable (_ ∧ _ ∧ _ ∧ (_ → _) ∧ _))

/-- The union of the permissions that are given to the file group class. -/
def IsUnion (m : Key → Option (BitVec 32)) (perms : BitVec 32) : Prop :=
  ∀ i, perms.getLsbD i = true ↔
    ∃ key p, key.inGroupClass = true ∧ m key = some p ∧ p.getLsbD i = true

/-- The functions of libacl that change a list. -/
structure Libacl where
  acl_calc_mask : Acl → Acl
  /-- With `acl_set_tag_type()` and `acl_set_qualifier()`; the number is that of the new entry. -/
  acl_create_entry : Acl → Key → Acl × ℕ
  acl_delete_entry : Acl → ℕ → Acl
  created : ∀ acl key, Distinct acl → key ∉ keys acl →
    Distinct (acl_create_entry acl key).1 ∧
      ((acl_create_entry acl key).1.findIdx? fun entry => entry.key = key) =
        some (acl_create_entry acl key).2 ∧
      ∀ k, k ≠ key → lookup (acl_create_entry acl key).1 k = lookup acl k
  deleted : ∀ acl key i, Distinct acl → (acl.findIdx? fun entry => entry.key = key) = some i →
    Distinct (acl_delete_entry acl i) ∧
      ∀ k, lookup (acl_delete_entry acl i) k = if k = key then none else lookup acl k
  distinct : ∀ acl, Distinct acl → Distinct (acl_calc_mask acl)
  others : ∀ acl, Distinct acl → ∀ key, key ≠ .mask → lookup (acl_calc_mask acl) key = lookup acl key
  /-- The permissions of the mask are set to the union, and there is a mask after that. -/
  mask : ∀ acl, Distinct acl → ∃ p, lookup (acl_calc_mask acl) .mask = some p ∧ IsUnion (lookup acl) p

/-! ## 2. The functions -/

inductive AclType where
  | ACL_TYPE_ACCESS
  | ACL_TYPE_DEFAULT
deriving Repr, DecidableEq

/-- A file, with its two lists; the default list of a file that has none is empty. -/
structure File where
  access : Acl
  default : Acl
deriving Repr, DecidableEq

def acl_get_file (file : File) : AclType → Acl
  | .ACL_TYPE_ACCESS => file.access
  | .ACL_TYPE_DEFAULT => file.default

def acl_set_file (file : File) (type : AclType) (acl : Acl) : File :=
  match type with
  | .ACL_TYPE_ACCESS => { file with access := acl }
  | .ACL_TYPE_DEFAULT => { file with default := acl }

inductive Operation where
  | unspecifiedOp
  | modifyEntries
  | removeEntries
  | removeDefaultACL
  | checkValidACL
deriving Repr, DecidableEq

def findEntry (acl : Acl) (tag : AclTag) (qaul : Id) : Option ℕ :=
  acl.findIdx? fun entry =>
    tag = entry.key.tag &&
      match entry.key with
      | .user uid => qaul = uid
      | .group gid => qaul = gid
      | _ => true

/-- The permissions are cleared, and added bit by bit. -/
def permset (perms : BitVec 32) : BitVec 32 :=
  (perms &&& ACL_READ) ||| (perms &&& ACL_WRITE) ||| (perms &&& ACL_EXECUTE)

def setPerms (acl : Acl) (entry : ℕ) (perms : BitVec 32) : Acl :=
  acl.modify entry fun entry => { entry with perms := permset perms }

/-- The tag and qualifier that are set in a new entry. -/
def keyOf (ace : AccessControlEntry) : Key :=
  match ace.tag with
  | .ACL_USER_OBJ => .userObj
  | .ACL_USER => .user ace.qual
  | .ACL_GROUP_OBJ => .groupObj
  | .ACL_GROUP => .group ace.qual
  | .ACL_MASK => .mask
  | .ACL_OTHER => .other

/-- An entry of the request is applied to the list. -/
def applyEntry (c : Libacl) (operation : Operation) (acl : Acl) (ace : AccessControlEntry) : Acl :=
  let entry := findEntry acl ace.tag ace.qual
  if operation = .removeEntries then
    match entry with
    | none => acl
    | some entry => c.acl_delete_entry acl entry
  else
    match entry with
    | none =>
      let (acl, entry) := c.acl_create_entry acl (keyOf ace)
      setPerms acl entry ace.perms
    | some entry => setPerms acl entry ace.perms

/-- What is left: the file, and the call that failed. -/
structure Left where
  file : File
  failed : Option String
deriving Repr, DecidableEq

/-- The loop over the entries of the request. -/
def updateLoop (c : Libacl) (type : AclType) (operation : Operation) (recalcMask : Bool) :
    File → Acl → List AccessControlEntry → Left
  | file, _, [] => ⟨file, none⟩
  | file, acl, ace :: aclist =>
    let acl := applyEntry c operation acl ace
    let acl := if recalcMask then c.acl_calc_mask acl else acl
    if ¬acl_valid acl then ⟨file, some "acl_valid"⟩
    else updateLoop c type operation recalcMask (acl_set_file file type acl) acl aclist

def typeOf (useDefaultACL : Bool) : AclType :=
  if useDefaultACL then .ACL_TYPE_DEFAULT else .ACL_TYPE_ACCESS

def updateACL (c : Libacl) (file : File) (useDefaultACL : Bool) (aclist : List AccessControlEntry)
    (operation : Operation) (recalcMask : Bool) : Left :=
  let type := typeOf useDefaultACL
  updateLoop c type operation recalcMask file (acl_get_file file type) aclist

/-! ## 3. What it is for -/

/-- What a request leaves under a tag and qualifier that it has an entry for. -/
def permsFor (operation : Operation) (ace : AccessControlEntry) : Option (BitVec 32) :=
  if operation = .removeEntries then none else some (permset ace.perms)

/-- The permissions after a request, the mask not recalculated. -/
def applied (operation : Operation) (m : Key → Option (BitVec 32)) (aclist : List AccessControlEntry) :
    Key → Option (BitVec 32) :=
  aclist.foldl (fun m ace => Function.update m (keyOf ace) (permsFor operation ace)) m

/-- **The request has been applied to the list as a whole**, and the mask recalculated if asked. -/
def Applied (operation : Operation) (recalcMask : Bool) (old : Acl) (aclist : List AccessControlEntry)
    (new : Acl) : Prop :=
  Distinct new ∧
    (∀ key, ¬(recalcMask = true ∧ key = .mask) →
      lookup new key = applied operation (lookup old) aclist key) ∧
    (recalcMask = true → ∃ p, lookup new .mask = some p ∧
      IsUnion (applied operation (lookup old) aclist) p)

/-- A list that comes of the request is valid. -/
def ValidAfter (operation : Operation) (recalcMask : Bool) (old : Acl)
    (aclist : List AccessControlEntry) : Prop :=
  ∃ new, Applied operation recalcMask old aclist new ∧ acl_valid new

/-- The same permissions, in whatever order. -/
def Same (acl acl' : Acl) : Prop := ∀ key, lookup acl key = lookup acl' key

/-- **What is claimed**: the request is applied as a whole, or it fails and nothing is changed; and
it does not fail if the list that comes of it is valid. -/
def AsAWhole (operation : Operation) (recalcMask : Bool) (old : Acl)
    (aclist : List AccessControlEntry) (stored : Acl) (failed : Option String) : Prop :=
  (Applied operation recalcMask old aclist stored ∨ (failed.isSome = true ∧ Same stored old)) ∧
    (ValidAfter operation recalcMask old aclist → failed = none)

/-- **When that is so**: every list in between is valid; or the last one is not, and the entries in
front of the first that gives a list that is not valid change nothing. (A request without entries
must have nothing to recalculate.) -/
def InOneGo (operation : Operation) (recalcMask : Bool) (old : Acl)
    (aclist : List AccessControlEntry) : Prop :=
  (aclist = [] → Applied operation recalcMask old [] old) ∧
    ((∀ k, 0 < k → k ≤ aclist.length → ValidAfter operation recalcMask old (aclist.take k)) ∨
      (¬ValidAfter operation recalcMask old aclist ∧
        ∃ k < aclist.length, ¬ValidAfter operation recalcMask old (aclist.take (k + 1)) ∧
          (∀ j, 0 < j → j ≤ k → ValidAfter operation recalcMask old (aclist.take j)) ∧
          (k = 0 ∨ Applied operation recalcMask old (aclist.take k) old)))

/-! ## 4. Lookups -/

section Lookup

variable {acl : Acl} {key : Key} {ace : AccessControlEntry}

@[simp] theorem lookup_nil (key : Key) : lookup [] key = none := rfl

theorem lookup_cons (entry : AclEntry) (acl : Acl) (key : Key) :
    lookup (entry :: acl) key = if entry.key = key then some entry.perms else lookup acl key := by
  rw [lookup, List.find?_cons]
  by_cases h : entry.key = key
  · simp only [h, decide_true, Option.map_some, if_true]
  · simp only [h, decide_false, if_false, lookup]

theorem lookup_ne_none_iff : lookup acl key ≠ none ↔ key ∈ keys acl := by
  rw [lookup, ne_eq, Option.map_eq_none_iff, List.find?_eq_none, keys, List.mem_map]
  simp only [decide_eq_true_eq]
  push Not
  rfl

/-- What the loop of `findEntry()` looks for. -/
theorem findEntry_eq (acl : Acl) (ace : AccessControlEntry) :
    findEntry acl ace.tag ace.qual = acl.findIdx? fun entry => entry.key = keyOf ace := by
  rw [findEntry]
  congr 1
  funext entry
  rw [keyOf, Bool.eq_iff_iff, decide_eq_true_eq, Bool.and_eq_true, decide_eq_true_eq]
  cases hkey : entry.key <;> cases htag : ace.tag <;> simp [Key.tag, eq_comm]

theorem keys_setPerms (acl : Acl) (i : ℕ) (perms : BitVec 32) :
    keys (setPerms acl i perms) = keys acl := by
  rw [setPerms, keys, keys]
  induction acl generalizing i with
  | nil => rw [List.modify_nil]
  | cons entry acl ih =>
    cases i with
    | zero => rfl
    | succ i => rw [List.modify_succ_cons, List.map_cons, List.map_cons, ih]

/-- The permissions of an entry are set. -/
theorem lookup_setPerms {i : ℕ} {perms : BitVec 32}
    (h : acl.findIdx? (fun entry => entry.key = key) = some i) (k : Key) :
    lookup (setPerms acl i perms) k = if k = key then some (permset perms) else lookup acl k := by
  rw [setPerms]
  induction acl generalizing i with
  | nil => exact nomatch h
  | cons entry acl ih =>
    rw [List.findIdx?_cons] at h
    by_cases hkey : entry.key = key
    · rw [if_pos (decide_eq_true hkey), Option.some.injEq] at h
      subst h
      rw [List.modify_zero_cons, lookup_cons, lookup_cons, hkey]
      by_cases hk : k = key
      · rw [if_pos hk.symm, if_pos hk]
      · rw [if_neg (Ne.symm hk), if_neg hk, if_neg (Ne.symm hk)]
    · rw [if_neg (by simpa using hkey), Option.map_eq_some_iff] at h
      obtain ⟨j, hj, rfl⟩ := h
      rw [List.modify_succ_cons, lookup_cons, lookup_cons, ih hj]
      by_cases hk : entry.key = k
      · rw [if_pos hk, if_pos hk, if_neg (hk ▸ hkey)]
      · rw [if_neg hk, if_neg hk]

theorem findIdx?_eq_none (h : acl.findIdx? (fun entry => entry.key = key) = none) : key ∉ keys acl := by
  rw [List.findIdx?_eq_none_iff] at h
  rw [keys, List.mem_map]
  rintro ⟨entry, hentry, hkey⟩
  exact absurd (h entry hentry) (by simpa using hkey)

/-- **What an entry of the request does to the list.** -/
theorem applyEntry_spec (c : Libacl) (operation : Operation) (hd : Distinct acl)
    (ace : AccessControlEntry) :
    Distinct (applyEntry c operation acl ace) ∧ ∀ k, lookup (applyEntry c operation acl ace) k =
      Function.update (lookup acl) (keyOf ace) (permsFor operation ace) k := by
  simp only [applyEntry, findEntry_eq, permsFor, Function.update_apply]
  cases hfind : acl.findIdx? (fun entry => entry.key = keyOf ace) with
  | none =>
    have hnotMem := findIdx?_eq_none hfind
    by_cases hop : operation = .removeEntries
    · simp only [hop, if_true]
      refine ⟨hd, fun k => ?_⟩
      split
      · rename_i hk
        rw [hk]
        by_contra hne
        exact hnotMem (lookup_ne_none_iff.mp hne)
      · rfl
    · simp only [hop, if_false]
      obtain ⟨hd', hnew, hothers⟩ := c.created acl (keyOf ace) hd hnotMem
      refine ⟨?_, fun k => ?_⟩
      · rw [Distinct, keys_setPerms]
        exact hd'
      · rw [lookup_setPerms hnew]
        split
        · rfl
        · rename_i hk
          exact hothers k hk
  | some i =>
    by_cases hop : operation = .removeEntries
    · simp only [hop, if_true]
      exact c.deleted acl (keyOf ace) i hd hfind
    · simp only [hop, if_false]
      refine ⟨?_, lookup_setPerms hfind⟩
      rw [Distinct, keys_setPerms]
      exact hd

end Lookup

/-! ## 5. One turn, and all of them -/

/-- What a turn of the loop makes of the list. -/
def turn (c : Libacl) (operation : Operation) (recalcMask : Bool) (acl : Acl)
    (ace : AccessControlEntry) : Acl :=
  if recalcMask then c.acl_calc_mask (applyEntry c operation acl ace) else applyEntry c operation acl ace

theorem acl_set_get (file : File) (type : AclType) :
    acl_set_file file type (acl_get_file file type) = file := by
  cases type <;> rfl

theorem acl_set_set (file : File) (type : AclType) (acl acl' : Acl) :
    acl_set_file (acl_set_file file type acl) type acl' = acl_set_file file type acl' := by
  cases type <;> rfl

@[simp] theorem acl_get_set (file : File) (type : AclType) (acl : Acl) :
    acl_get_file (acl_set_file file type acl) type = acl := by
  cases type <;> rfl

/-- **The loop stores the list after each turn.** -/
theorem updateLoop_eq (c : Libacl) (type : AclType) (operation : Operation) (recalcMask : Bool)
    (file : File) (acl : Acl) (aclist : List AccessControlEntry) :
    updateLoop c type operation recalcMask (acl_set_file file type acl) acl aclist =
      let stored := storeEach (turn c operation recalcMask) acl_valid acl aclist
      ⟨acl_set_file file type stored.1, if stored.2 then none else some "acl_valid"⟩ := by
  induction aclist generalizing acl with
  | nil => rfl
  | cons ace aclist ih =>
    rw [updateLoop, storeEach]
    by_cases hvalid : acl_valid (turn c operation recalcMask acl ace)
    · rw [if_pos hvalid, ← ih, turn] at *
      simp only [hvalid, not_true_eq_false, if_false, acl_set_set]
    · rw [if_neg hvalid]
      rw [turn] at hvalid
      simp only [hvalid, not_false_eq_true, if_true, Bool.false_eq_true, if_false]

theorem updateACL_eq (c : Libacl) (file : File) (useDefaultACL : Bool)
    (aclist : List AccessControlEntry) (operation : Operation) (recalcMask : Bool) :
    updateACL c file useDefaultACL aclist operation recalcMask =
      let type := typeOf useDefaultACL
      let stored := storeEach (turn c operation recalcMask) acl_valid (acl_get_file file type) aclist
      ⟨acl_set_file file type stored.1, if stored.2 then none else some "acl_valid"⟩ := by
  have h := updateLoop_eq c (typeOf useDefaultACL) operation recalcMask file
    (acl_get_file file (typeOf useDefaultACL)) aclist
  rwa [acl_set_get] at h

section Request

variable {c : Libacl} {operation : Operation} {recalcMask : Bool} {old : Acl}
  {aclist : List AccessControlEntry}

theorem applied_concat (operation : Operation) (m : Key → Option (BitVec 32))
    (aclist : List AccessControlEntry) (ace : AccessControlEntry) :
    applied operation m (aclist ++ [ace]) =
      Function.update (applied operation m aclist) (keyOf ace) (permsFor operation ace) := by
  rw [applied, List.foldl_append]
  rfl

/-- The union is over the group class only. -/
theorem isUnion_congr {m m' : Key → Option (BitVec 32)} {p : BitVec 32}
    (h : ∀ key, key.inGroupClass = true → m key = m' key) : IsUnion m p ↔ IsUnion m' p := by
  refine forall_congr' fun i => iff_congr Iff.rfl ?_
  refine exists_congr fun key => exists_congr fun q => ?_
  constructor
  · rintro ⟨hclass, hq, hi⟩
    exact ⟨hclass, h key hclass ▸ hq, hi⟩
  · rintro ⟨hclass, hq, hi⟩
    exact ⟨hclass, (h key hclass).symm ▸ hq, hi⟩

theorem ne_mask_of_inGroupClass {key : Key} (h : key.inGroupClass = true) : key ≠ .mask := by
  rintro rfl
  exact nomatch h

/-- **What a turn leaves**, by the list before it. -/
theorem turn_spec {acl : Acl} (hd : Distinct acl) (ace : AccessControlEntry) :
    Distinct (turn c operation recalcMask acl ace) ∧
      (∀ key, ¬(recalcMask = true ∧ key = .mask) → lookup (turn c operation recalcMask acl ace) key =
        Function.update (lookup acl) (keyOf ace) (permsFor operation ace) key) ∧
      (recalcMask = true → ∃ p, lookup (turn c operation recalcMask acl ace) .mask = some p ∧
        IsUnion (Function.update (lookup acl) (keyOf ace) (permsFor operation ace)) p) := by
  obtain ⟨hdistinct, hlookup⟩ := applyEntry_spec c operation hd ace
  rw [turn]
  cases recalcMask with
  | false => exact ⟨hdistinct, fun key _ => hlookup key, nofun⟩
  | true =>
    simp only [if_true, true_and]
    refine ⟨c.distinct _ hdistinct, fun key hkey => ?_, fun _ => ?_⟩
    · rw [c.others _ hdistinct key hkey, hlookup]
    · obtain ⟨p, hp, hunion⟩ := c.mask _ hdistinct
      exact ⟨p, hp, (isUnion_congr fun key _ => hlookup key).mp hunion⟩

/-- **The lists in between are what the first entries of the request give.** -/
theorem foldl_turn_spec (hd : Distinct old) (aclist : List AccessControlEntry) :
    Distinct (aclist.foldl (turn c operation recalcMask) old) ∧
      (∀ key, ¬(recalcMask = true ∧ key = .mask) →
        lookup (aclist.foldl (turn c operation recalcMask) old) key =
          applied operation (lookup old) aclist key) ∧
      (recalcMask = true → aclist ≠ [] →
        ∃ p, lookup (aclist.foldl (turn c operation recalcMask) old) .mask = some p ∧
          IsUnion (applied operation (lookup old) aclist) p) := by
  induction aclist using List.reverseRecOn with
  | nil => exact ⟨hd, fun _ _ => rfl, fun _ h => absurd rfl h⟩
  | append_singleton aclist ace ih =>
    obtain ⟨hdistinct, hlookup, -⟩ := ih
    obtain ⟨hd', hlookup', hmask'⟩ :=
      @turn_spec c operation recalcMask (aclist.foldl (turn c operation recalcMask) old) hdistinct ace
    rw [List.foldl_append, List.foldl_cons, List.foldl_nil, applied_concat]
    -- two maps that agree under a key agree there after the change
    have hupdate : ∀ key, ¬(recalcMask = true ∧ key = .mask) →
        Function.update (lookup (aclist.foldl (turn c operation recalcMask) old)) (keyOf ace)
          (permsFor operation ace) key =
        Function.update (applied operation (lookup old) aclist) (keyOf ace)
          (permsFor operation ace) key := by
      intro key hkey
      rw [Function.update_apply, Function.update_apply, hlookup key hkey]
    refine ⟨hd', fun key hkey => ?_, fun hrecalc _ => ?_⟩
    · rw [hlookup' key hkey, hupdate key hkey]
    · obtain ⟨p, hp, hunion⟩ := hmask' hrecalc
      refine ⟨p, hp, (isUnion_congr fun key hclass => ?_).mp hunion⟩
      exact hupdate key fun h => ne_mask_of_inGroupClass hclass h.2

theorem applied_upTo (hd : Distinct old) (hne : aclist ≠ []) :
    Applied operation recalcMask old aclist (aclist.foldl (turn c operation recalcMask) old) := by
  obtain ⟨hdistinct, hlookup, hmask⟩ := @foldl_turn_spec c operation recalcMask old hd aclist
  exact ⟨hdistinct, hlookup, fun hrecalc => hmask hrecalc hne⟩

end Request

/-! ## 6. What a request gives, it gives once -/

section Unique

variable {operation : Operation} {recalcMask : Bool} {old new new' : Acl}
  {aclist aclist' : List AccessControlEntry}

theorem isUnion_unique {m : Key → Option (BitVec 32)} {p p' : BitVec 32} (h : IsUnion m p)
    (h' : IsUnion m p') : p = p' := by
  refine BitVec.eq_of_getLsbD_eq fun i _ => ?_
  rw [Bool.eq_iff_iff, h i, h' i]

theorem Applied.same (h : Applied operation recalcMask old aclist new)
    (h' : Applied operation recalcMask old aclist new') : Same new new' := by
  intro key
  by_cases hkey : recalcMask = true ∧ key = .mask
  · obtain ⟨p, hp, hunion⟩ := h.2.2 hkey.1
    obtain ⟨p', hp', hunion'⟩ := h'.2.2 hkey.1
    rw [hkey.2, hp, hp', isUnion_unique hunion hunion']
  · rw [h.2.1 key hkey, h'.2.1 key hkey]

theorem Applied.of_same (h : Applied operation recalcMask old aclist new) (hd : Distinct new')
    (hsame : Same new new') : Applied operation recalcMask old aclist new' := by
  refine ⟨hd, fun key hkey => (hsame key).symm.trans (h.2.1 key hkey), fun hrecalc => ?_⟩
  obtain ⟨p, hp, hunion⟩ := h.2.2 hrecalc
  exact ⟨p, (hsame _).symm.trans hp, hunion⟩

/-- Validity is a matter of the tags and qualifiers that are there. -/
theorem Same.acl_valid (hsame : Same new new') (hd : Distinct new) (hd' : Distinct new')
    (h : acl_valid new) : acl_valid new' := by
  have hperm : (keys new).Perm (keys new') := by
    refine (List.perm_ext_iff_of_nodup hd hd').mpr fun key => ?_
    rw [← lookup_ne_none_iff, ← lookup_ne_none_iff, hsame key]
  obtain ⟨huser, hgroup, hother, hmask, hnamed⟩ := h
  refine ⟨?_, ?_, ?_, ?_, ?_⟩
  · rw [← hperm.count_eq, huser]
  · rw [← hperm.count_eq, hgroup]
  · rw [← hperm.count_eq, hother]
  · rintro ⟨key, hkey, hisNamed⟩
    exact hperm.mem_iff.mp (hmask ⟨key, hperm.mem_iff.mpr hkey, hisNamed⟩)
  · exact (hperm.filter _).nodup_iff.mp hnamed

theorem Applied.validAfter_iff (h : Applied operation recalcMask old aclist new) :
    ValidAfter operation recalcMask old aclist ↔ AclUpdate.acl_valid new := by
  constructor
  · rintro ⟨new', h', hvalid⟩
    exact (h'.same h).acl_valid h'.1 h.1 hvalid
  · exact fun hvalid => ⟨new, h, hvalid⟩

/-- **The order does not matter** for entries that are for different users, groups and so on. -/
theorem applied_perm (m : Key → Option (BitVec 32)) (hkeys : (aclist.map keyOf).Nodup)
    (hperm : aclist'.Perm aclist) : applied operation m aclist' = applied operation m aclist := by
  rw [applied, applied]
  refine hperm.foldl_eq' ?_ m
  intro ace hace ace' hace' m
  by_cases hkey : keyOf ace = keyOf ace'
  · rw [List.inj_on_of_nodup_map hkeys (hperm.mem_iff.mp hace) (hperm.mem_iff.mp hace') hkey]
  · exact Function.update_comm hkey _ _ _

theorem applied_perm_iff (hkeys : (aclist.map keyOf).Nodup) (hperm : aclist'.Perm aclist) :
    Applied operation recalcMask old aclist' new ↔ Applied operation recalcMask old aclist new := by
  rw [Applied, Applied, applied_perm _ hkeys hperm]

end Unique

/-! ## 7. Whether a request is applied as a whole -/

section Whole

variable {c : Libacl} {operation : Operation} {recalcMask : Bool} {old : Acl}
  {aclist : List AccessControlEntry}

theorem validAfter_take_iff (c : Libacl) (hd : Distinct old) {k : ℕ} (hk : 0 < k)
    (hlen : k ≤ aclist.length) :
    ValidAfter operation recalcMask old (aclist.take k) ↔
      acl_valid (upTo (turn c operation recalcMask) old aclist k) := by
  have hne : aclist.take k ≠ [] := by
    rw [← List.length_pos_iff, List.length_take]
    omega
  exact (applied_upTo hd hne).validAfter_iff

/-- All entries have been applied. -/
theorem asAWhole_iff_of_all (hd : Distinct old)
    (hvalids : ∀ k < aclist.length, acl_valid (upTo (turn c operation recalcMask) old aclist (k + 1))) :
    AsAWhole operation recalcMask old aclist (aclist.foldl (turn c operation recalcMask) old) none ↔
      InOneGo operation recalcMask old aclist := by
  have hleft : ∀ k, 0 < k → k ≤ aclist.length → ValidAfter operation recalcMask old (aclist.take k) := by
    intro k hk hlen
    obtain ⟨j, rfl⟩ := Nat.exists_eq_succ_of_ne_zero hk.ne'
    exact (validAfter_take_iff c hd hk hlen).mpr (hvalids j hlen)
  constructor
  · rintro ⟨happlied | ⟨hfailed, -⟩, -⟩
    · refine ⟨?_, .inl hleft⟩
      rintro rfl
      exact happlied
    · exact nomatch hfailed
  · rintro ⟨hnil, -⟩
    refine ⟨.inl ?_, fun _ => rfl⟩
    by_cases hne : aclist = []
    · subst hne
      exact hnil rfl
    · exact applied_upTo hd hne

/-- The entries in front of one that gives a list that is not valid have been applied. -/
theorem asAWhole_iff_of_stopped (hd : Distinct old) {k : ℕ} (hk : k < aclist.length) (message : String)
    (hbad : ¬acl_valid (upTo (turn c operation recalcMask) old aclist (k + 1)))
    (hvalids : ∀ j < k, acl_valid (upTo (turn c operation recalcMask) old aclist (j + 1))) :
    AsAWhole operation recalcMask old aclist (upTo (turn c operation recalcMask) old aclist k)
        (some message) ↔
      InOneGo operation recalcMask old aclist := by
  have hbad' : ¬ValidAfter operation recalcMask old (aclist.take (k + 1)) := by
    rwa [validAfter_take_iff c hd (Nat.succ_pos k) hk]
  have hvalids' : ∀ j, 0 < j → j ≤ k → ValidAfter operation recalcMask old (aclist.take j) := by
    intro j hj hjk
    rw [validAfter_take_iff c hd hj (hjk.trans hk.le)]
    obtain ⟨i, rfl⟩ := Nat.exists_eq_succ_of_ne_zero hj.ne'
    exact hvalids i hjk
  have htake : k ≠ 0 → Applied operation recalcMask old (aclist.take k)
      (upTo (turn c operation recalcMask) old aclist k) := by
    intro h0
    refine applied_upTo hd ?_
    rw [← List.length_pos_iff, List.length_take]
    omega
  constructor
  · rintro ⟨hstored, hnot⟩
    have hinvalid : ¬ValidAfter operation recalcMask old aclist := fun h => nomatch hnot h
    refine ⟨?_, .inr ⟨hinvalid, k, hk, hbad', hvalids', ?_⟩⟩
    · rintro rfl
      exact absurd hk (Nat.not_lt_zero k)
    · refine or_iff_not_imp_left.mpr fun h0 => ?_
      rcases hstored with happlied | ⟨-, hsame⟩
      · -- what is stored would be what the whole request gives, and it is valid
        refine absurd (happlied.validAfter_iff.mpr ?_) hinvalid
        exact (htake h0).validAfter_iff.mp (hvalids' k (Nat.pos_of_ne_zero h0) (Nat.le_refl k))
      · exact (htake h0).of_same hd hsame
  · rintro ⟨-, hall | ⟨hinvalid, k', hk', hbad'', hvalids'', hsame⟩⟩
    · exact absurd (hall (k + 1) (Nat.succ_pos k) hk) hbad'
    · -- the first list that is not valid is the one at which the loop was left
      obtain rfl : k = k' := by
        rcases Nat.lt_trichotomy k k' with hlt | heq | hgt
        · exact absurd (hvalids'' (k + 1) (Nat.succ_pos k) hlt) hbad'
        · exact heq
        · exact absurd (hvalids' (k' + 1) (Nat.succ_pos k') hgt) hbad''
      refine ⟨.inr ⟨rfl, ?_⟩, fun h => absurd h hinvalid⟩
      rcases hsame with rfl | happlied
      · exact fun key => rfl
      · by_cases h0 : k = 0
        · subst h0
          exact fun key => rfl
        · exact (htake h0).same happlied

/-- **When a request is applied as a whole.** And for entries that are for different users, groups and
so on, what the whole gives does not depend on the order in which they are written. -/
theorem updateACL_whole_iff (c : Libacl) (file : File) (useDefaultACL : Bool)
    (aclist : List AccessControlEntry) (operation : Operation) (recalcMask : Bool)
    (hfile : Distinct (acl_get_file file (typeOf useDefaultACL))) :
    (let old := acl_get_file file (typeOf useDefaultACL)
      let left := updateACL c file useDefaultACL aclist operation recalcMask
      AsAWhole operation recalcMask old aclist (acl_get_file left.file (typeOf useDefaultACL))
          left.failed ↔
        InOneGo operation recalcMask old aclist) ∧
      ((aclist.map keyOf).Nodup → ∀ aclist' : List AccessControlEntry, aclist'.Perm aclist →
        ∀ old new, Applied operation recalcMask old aclist' new ↔
          Applied operation recalcMask old aclist new) := by
  refine ⟨?_, fun hkeys aclist' hperm old new => applied_perm_iff hkeys hperm⟩
  rw [updateACL_eq]
  dsimp only
  rw [acl_get_set]
  rcases storeEach_cases (turn c operation recalcMask) acl_valid
    (acl_get_file file (typeOf useDefaultACL)) aclist with ⟨hall, hvalids⟩ | ⟨k, hk, hleft, hbad, hvalids⟩
  · rw [hall]
    exact asAWhole_iff_of_all hfile hvalids
  · rw [hleft]
    exact asAWhole_iff_of_stopped hfile hk _ hbad hvalids

end Whole

/-! ## 8. The functions of libacl, on lists -/

/-- The union over a list. -/
def unionOf (acl : Acl) : BitVec 32 :=
  acl.foldr (fun entry p => if entry.key.inGroupClass then entry.perms ||| p else p) 0

theorem getLsbD_unionOf (acl : Acl) (i : ℕ) :
    (unionOf acl).getLsbD i = true ↔
      ∃ entry ∈ acl, entry.key.inGroupClass = true ∧ entry.perms.getLsbD i = true := by
  induction acl with
  | nil => simp [unionOf]
  | cons entry acl ih =>
    rw [unionOf, List.foldr_cons, ← unionOf]
    split
    · rename_i hclass
      rw [BitVec.getLsbD_or, Bool.or_eq_true, ih]
      simp [hclass]
    · rename_i hclass
      rw [ih]
      simp [hclass]

/-- In a list without two entries for the same, an entry is what is looked up. -/
theorem lookup_eq_some_iff {acl : Acl} (hd : Distinct acl) {key : Key} {p : BitVec 32} :
    lookup acl key = some p ↔ ⟨key, p⟩ ∈ acl := by
  induction acl with
  | nil => simp
  | cons entry acl ih =>
    rw [Distinct, keys, List.map_cons, List.nodup_cons] at hd
    rw [lookup_cons, List.mem_cons]
    split
    · rename_i hkey
      subst hkey
      constructor
      · intro hp
        rw [← Option.some.inj hp]
        exact .inl rfl
      · rintro (hentry | hmem)
        · rw [← hentry]
        · exact absurd (List.mem_map_of_mem hmem) hd.1
    · rename_i hkey
      rw [ih hd.2]
      refine (or_iff_right ?_).symm
      rintro rfl
      exact hkey rfl

/-- The mask is taken out, if there is one, and put in again. -/
def replaceMask (acl : Acl) : Acl :=
  acl.filter (fun entry => entry.key ≠ .mask) ++ [⟨.mask, unionOf acl⟩]

theorem distinct_replaceMask {acl : Acl} (hd : Distinct acl) : Distinct (replaceMask acl) := by
  rw [Distinct, keys, replaceMask, List.map_append, List.map_singleton]
  refine List.Nodup.append (hd.sublist (List.filter_sublist.map _)) (List.nodup_singleton _) ?_
  rw [List.disjoint_singleton, List.mem_map]
  rintro ⟨entry, hentry, hkey⟩
  exact absurd hkey (of_decide_eq_true (List.mem_filter.mp hentry).2)

theorem mem_replaceMask {acl : Acl} {key : Key} {p : BitVec 32} :
    ⟨key, p⟩ ∈ replaceMask acl ↔
      (⟨key, p⟩ ∈ acl ∧ key ≠ .mask) ∨ (key = .mask ∧ p = unionOf acl) := by
  rw [replaceMask, List.mem_append, List.mem_filter, List.mem_singleton, AclEntry.mk.injEq,
    decide_eq_true_eq]

/-- An entry is taken out. -/
theorem eraseIdx_spec {acl : Acl} {key : Key} {i : ℕ} (h : acl.findIdx? (fun entry => entry.key = key) = some i)
    (hd : Distinct acl) :
    Distinct (acl.eraseIdx i) ∧
      ∀ k, lookup (acl.eraseIdx i) k = if k = key then none else lookup acl k := by
  refine ⟨hd.sublist ((List.eraseIdx_sublist acl i).map _), ?_⟩
  induction acl generalizing i with
  | nil => exact nomatch h
  | cons entry acl ih =>
    intro k
    rw [Distinct, keys, List.map_cons, List.nodup_cons] at hd
    rw [List.findIdx?_cons] at h
    by_cases hkey : entry.key = key
    · rw [if_pos (decide_eq_true hkey), Option.some.injEq] at h
      subst h
      rw [List.eraseIdx_cons_zero, lookup_cons, hkey]
      by_cases hk : k = key
      · rw [if_pos hk, hk]
        by_contra hne
        exact hd.1 (hkey ▸ lookup_ne_none_iff.mp hne)
      · rw [if_neg hk, if_neg (Ne.symm hk)]
    · rw [if_neg (by simpa using hkey), Option.map_eq_some_iff] at h
      obtain ⟨j, hj, rfl⟩ := h
      rw [List.eraseIdx_cons_succ, lookup_cons, lookup_cons, ih hj hd.2]
      by_cases hk : entry.key = k
      · rw [if_pos hk, if_pos hk, if_neg (hk ▸ hkey)]
      · rw [if_neg hk, if_neg hk]

/-- The new entry stands behind the others. -/
theorem lookup_append {acl : Acl} {entry : AclEntry} {k : Key} (h : k ≠ entry.key) :
    lookup (acl ++ [entry]) k = lookup acl k := by
  induction acl with
  | nil => rw [List.nil_append, lookup_cons, if_neg (Ne.symm h)]
  | cons entry' acl ih => rw [List.cons_append, lookup_cons, lookup_cons, ih]

theorem created_append {acl : Acl} {key : Key} (hd : Distinct acl) (h : key ∉ keys acl) :
    Distinct (acl ++ [⟨key, 0⟩]) ∧
      (List.findIdx? (fun entry : AclEntry => entry.key = key) (acl ++ [⟨key, 0⟩])) = some acl.length ∧
      ∀ k, k ≠ key → lookup (acl ++ [⟨key, 0⟩]) k = lookup acl k := by
  have hnone : (acl.findIdx? fun entry => entry.key = key) = none := by
    rw [List.findIdx?_eq_none_iff]
    intro entry hentry
    rw [decide_eq_false_iff_not]
    rintro rfl
    exact h (List.mem_map_of_mem hentry)
  refine ⟨?_, ?_, fun k hk => lookup_append hk⟩
  · rw [Distinct, keys, List.map_append, List.map_singleton]
    exact List.Nodup.append hd (List.nodup_singleton _) (List.disjoint_singleton.mpr h)
  · rw [List.findIdx?_append, hnone, List.findIdx?_cons]
    simp

def libacl : Libacl where
  acl_calc_mask := replaceMask
  acl_create_entry acl key := (acl ++ [⟨key, 0⟩], acl.length)
  acl_delete_entry := List.eraseIdx
  created _ _ hd h := created_append hd h
  deleted _ _ _ hd h := eraseIdx_spec h hd
  distinct _ hd := distinct_replaceMask hd
  others acl hd key hkey := by
    refine Option.ext fun p => ?_
    rw [lookup_eq_some_iff (distinct_replaceMask hd), lookup_eq_some_iff hd, mem_replaceMask]
    simp [hkey]
  mask acl hd := by
    refine ⟨unionOf acl, ?_, fun i => ?_⟩
    · rw [lookup_eq_some_iff (distinct_replaceMask hd), mem_replaceMask]
      exact .inr ⟨rfl, rfl⟩
    · rw [getLsbD_unionOf]
      constructor
      · rintro ⟨entry, hentry, hclass, hi⟩
        exact ⟨entry.key, entry.perms, hclass, (lookup_eq_some_iff hd).mpr hentry, hi⟩
      · rintro ⟨key, p, hclass, hp, hi⟩
        exact ⟨⟨key, p⟩, (lookup_eq_some_iff hd).mp hp, hclass, hi⟩

/-- `u::rw-,g::r--,o::r--` -/
def minimalAcl : Acl := [⟨.userObj, 6⟩, ⟨.groupObj, 4⟩, ⟨.other, 4⟩]

/-- `-m u:1000:rwx` -/
theorem updateACL_whole_minimal :
    Distinct minimalAcl ∧
      (AsAWhole .modifyEntries true minimalAcl [⟨.ACL_USER, 1000, 7⟩]
          (updateACL libacl ⟨minimalAcl, []⟩ false [⟨.ACL_USER, 1000, 7⟩] .modifyEntries true).file.access
          (updateACL libacl ⟨minimalAcl, []⟩ false [⟨.ACL_USER, 1000, 7⟩] .modifyEntries true).failed ↔
        InOneGo .modifyEntries true minimalAcl [⟨.ACL_USER, 1000, 7⟩]) :=
  ⟨by decide, (updateACL_whole_iff libacl ⟨minimalAcl, []⟩ false [⟨.ACL_USER, 1000, 7⟩] .modifyEntries
    true (by decide)).1⟩

/-- `-n -m` with these entries. -/
def modified (aclist : List AccessControlEntry) : Left :=
  updateACL libacl ⟨minimalAcl, []⟩ false aclist .modifyEntries false

/-- `o::---,u:1000:rw-` -/
def halfValid : List AccessControlEntry := [⟨.ACL_OTHER, 0, 0⟩, ⟨.ACL_USER, 1000, 6⟩]

/-- `u:1000:rw-,m::rw-` -/
def validAtTheEnd : List AccessControlEntry := [⟨.ACL_USER, 1000, 6⟩, ⟨.ACL_MASK, 0, 6⟩]

/-- Of the first request, one entry is stored before the other is refused; the second is refused
although the list would be valid. -/
theorem updateACL_halves :
    ¬AsAWhole .modifyEntries false minimalAcl halfValid (modified halfValid).file.access
        (modified halfValid).failed ∧
      ¬AsAWhole .modifyEntries false minimalAcl validAtTheEnd (modified validAtTheEnd).file.access
        (modified validAtTheEnd).failed := by
  refine ⟨?_, ?_⟩
  · rintro ⟨happlied | ⟨-, hsame⟩, -⟩
    · exact absurd (happlied.2.1 (.user 1000) nofun) (by decide)
    · exact absurd (hsame .other) (by decide)
  · rintro ⟨-, hnot⟩
    have happlied := @applied_upTo libacl .modifyEntries false minimalAcl validAtTheEnd (by decide)
      (List.cons_ne_nil _ _)
    exact absurd (hnot ⟨_, happlied, by decide⟩) (by decide)

end Tlpi.AclUpdate
