/-
`acl/acl_update.c`: the text form of an access control list, and the two functions that take it apart.

`parseACL()` cuts its argument at the commas and `parseEntrySpec()` cuts each piece at its colons, both
by storing null bytes into it. So a piece is a string of its own only after the comma behind it has
been overwritten, and a qualifier only after the second colon has been. Memory is a list of bytes with
offsets into it for the pointers; `aclist` goes on behind its last element.

Over this stands a model without memory: `readEntry` and `readEntries` work on the pieces, and
`parseEntrySpec_eq` and `parseACL_eq` say that the functions do the same.
-/
import Tlpi.Loop
import Tlpi.CString
import Tlpi.UgidFunctions

set_option autoImplicit false

namespace Tlpi.AclText

open Tlpi.CString Tlpi.Decimal Tlpi.Loop Tlpi.Strtol Tlpi.UgidFunctions

/-! ## 1. Entries -/

abbrev MAX_ENTRIES : ℕ := 10000

inductive AclTag where
  | ACL_USER_OBJ
  | ACL_USER
  | ACL_GROUP_OBJ
  | ACL_GROUP
  | ACL_MASK
  | ACL_OTHER
deriving Repr, DecidableEq

abbrev ACL_READ : BitVec 32 := 0x04
abbrev ACL_WRITE : BitVec 32 := 0x02
abbrev ACL_EXECUTE : BitVec 32 := 0x01

structure AccessControlEntry where
  tag : AclTag
  qual : Id
  perms : BitVec 32
deriving Repr, DecidableEq

/-- `aclist`, on behind its last element. -/
abbrev AclList := ℕ → AccessControlEntry

/-- A message on `stderr`: the format and what it is filled with. -/
structure Message where
  format : String
  arg : Option (List UInt8)
deriving Repr, DecidableEq

/-! ## 2. Characters -/

/-- `,` -/
abbrev comma : UInt8 := 44

/-- `:` -/
abbrev colon : UInt8 := 58

/-- `r` -/
abbrev charR : UInt8 := 114

/-- `w` -/
abbrev charW : UInt8 := 119

/-- `x` -/
abbrev charX : UInt8 := 120

/-- `-` -/
abbrev dash : UInt8 := 45

/-- `u`, `user` -/
abbrev userTags : List (List UInt8) := [[117], [117, 115, 101, 114]]

/-- `g`, `group` -/
abbrev groupTags : List (List UInt8) := [[103], [103, 114, 111, 117, 112]]

/-- `o`, `other` -/
abbrev otherTags : List (List UInt8) := [[111], [111, 116, 104, 101, 114]]

/-- `m`, `mask` -/
abbrev maskTags : List (List UInt8) := [[109], [109, 97, 115, 107]]

/-! ## 3. The functions -/

/-- The tag type of a tag string. -/
def tagType (tag : List UInt8) (hasQual : Bool) : Option AclTag :=
  if tag ∈ userTags then some (if hasQual then .ACL_USER else .ACL_USER_OBJ)
  else if tag ∈ groupTags then some (if hasQual then .ACL_GROUP else .ACL_GROUP_OBJ)
  else if tag ∈ otherTags then some .ACL_OTHER
  else if tag ∈ maskTags then some .ACL_MASK
  else none

/-- The message if there are permissions where there must not be any, or none where there must. -/
def checkPerms (hasPerms permsReqd : Bool) : Option Message :=
  if hasPerms && !permsReqd then some ⟨"Cannot specify permissions here\n", none⟩
  else if !hasPerms && permsReqd then some ⟨"Must specify permissions\n", none⟩
  else none

/-- For the tag types that have one, the ID in the qualifier, and the message if there is none. -/
def qualifierId (names : Names) (tag : AclTag) (qualifier : List UInt8) : Option (Id × String) :=
  match tag with
  | .ACL_USER => some (userIdFromName names (some qualifier), "Bad user ID: %s\n")
  | .ACL_GROUP => some (groupIdFromName names (some qualifier), "Bad group ID: %s\n")
  | _ => none

/-- The loop over the permissions: the bit mask, and the character at which it stops. -/
def permsLoop : BitVec 32 → List UInt8 → BitVec 32 × Option UInt8
  | perms, [] => (perms, none)
  | perms, p :: ps =>
    if p = charR then permsLoop (perms ||| ACL_READ) ps
    else if p = charW then permsLoop (perms ||| ACL_WRITE) ps
    else if p = charX then permsLoop (perms ||| ACL_EXECUTE) ps
    else if p ≠ dash then (perms, some p)
    else permsLoop perms ps

/-- The permissions are stored if there are any. -/
def storePerms (ace : AccessControlEntry) (perms : Option (List UInt8)) :
    AccessControlEntry × Option Message :=
  match perms with
  | none => (ace, none)
  | some text =>
    let res := permsLoop 0 text
    ({ ace with perms := res.1 },
      res.2.map fun p => ⟨"Bad character in permissions string: %c\n", some [p]⟩)

/-- The qualifier is stored, and then the permissions. -/
def storeQual (names : Names) (ace : AccessControlEntry) (tag : AclTag) (qualifier : List UInt8)
    (perms : Option (List UInt8)) : AccessControlEntry × Option Message :=
  match qualifierId names tag qualifier with
  | none => storePerms { ace with tag := tag, qual := 0 } perms
  | some (id, bad) =>
    if id = noId then ({ ace with tag := tag, qual := id }, some ⟨bad, some qualifier⟩)
    else storePerms { ace with tag := tag, qual := id } perms

/-- What `parseEntrySpec()` leaves; it returns true if there is no message. -/
structure EntrySpec where
  mem : List UInt8
  ace : AccessControlEntry
  message : Option Message
deriving Repr, DecidableEq

def parseEntrySpec (names : Names) (mem : List UInt8) (entryStr : ℕ) (ace : AccessControlEntry)
    (permsReqd : Bool) : EntrySpec :=
  match strchr (mem.drop entryStr) colon with
  | none =>
    ⟨mem, ace, some ⟨"Missing initial colon in ACL entry: %s\n", some (str (mem.drop entryStr))⟩⟩
  | some i =>
    let colon1 := entryStr + i
    let hasQual : Bool := mem[colon1 + 1]? ≠ some 0 ∧ mem[colon1 + 1]? ≠ some colon
    let mem := mem.set colon1 0
    let colon2 := (strchr (mem.drop (colon1 + 1)) colon).map (colon1 + 1 + ·)
    let hasPerms := colon2.any fun colon2 => mem[colon2 + 1]? ≠ some 0
    match checkPerms hasPerms permsReqd with
    | some message => ⟨mem, ace, some message⟩
    | none =>
      match tagType (str (mem.drop entryStr)) hasQual with
      | none => ⟨mem, ace, some ⟨"Bad tag: %s\n", some (str (mem.drop entryStr))⟩⟩
      | some tag =>
        let mem := colon2.elim mem fun colon2 => mem.set colon2 0
        let perms := (colon2.filter fun _ => hasPerms).map fun colon2 => str (mem.drop (colon2 + 1))
        let stored := storeQual names ace tag (str (mem.drop (colon1 + 1))) perms
        ⟨mem, stored.1, stored.2⟩

/-- The variables of `parseACL()`, its array, and the string that it cuts up. -/
structure AclLocals where
  mem : List UInt8
  aclist : AclList
  nextEntry : ℕ
  n : ℕ

structure AclRet where
  ret : ℤ
  aclist : AclList
  message : Option Message

def parseACLBody (names : Names) (permsReqd : Bool) (s : AclLocals) : Iter AclLocals AclRet :=
  if s.n ≥ MAX_ENTRIES then .done ⟨-1, s.aclist, some ⟨"Too many entries in ACL\n", none⟩⟩
  else
    let comma := (strchr (s.mem.drop s.nextEntry) comma).map (s.nextEntry + ·)
    let mem := comma.elim s.mem fun comma => s.mem.set comma 0
    let spec := parseEntrySpec names mem s.nextEntry (s.aclist s.n) permsReqd
    let aclist := Function.update s.aclist s.n spec.ace
    if spec.message.isSome then .done ⟨-1, aclist, spec.message⟩
    else
      match comma with
      | none => .done ⟨s.n + 1, aclist, none⟩
      | some comma => .next ⟨spec.mem, aclist, comma + 1, s.n + 1⟩

def parseACL (names : Names) (mem : List UInt8) (aclist : AclList) (permsReqd : Bool) :
    Option AclRet :=
  exec (parseACLBody names permsReqd) (fun s => MAX_ENTRIES - s.n) ⟨mem, aclist, 0, 0⟩

/-! ## 4. The pieces, without memory -/

/-- What becomes of a piece that has a colon: its tag, its qualifier and what follows that. -/
def readFields (names : Names) (permsReqd : Bool) (ace : AccessControlEntry)
    (tag qualifier : List UInt8) (more : Option (List UInt8)) : AccessControlEntry × Option Message :=
  let perms := more.filter fun text => text ≠ []
  match checkPerms perms.isSome permsReqd with
  | some message => (ace, some message)
  | none =>
    match tagType tag (qualifier ≠ []) with
    | none => (ace, some ⟨"Bad tag: %s\n", some tag⟩)
    | some tag => storeQual names ace tag qualifier perms

def readEntry (names : Names) (permsReqd : Bool) (ace : AccessControlEntry) (piece : List UInt8) :
    AccessControlEntry × Option Message :=
  match cut colon piece with
  | (_, none) => (ace, some ⟨"Missing initial colon in ACL entry: %s\n", some piece⟩)
  | (tag, some rest) => readFields names permsReqd ace tag (cut colon rest).1 (cut colon rest).2

/-- The pieces from number `n` on. -/
def readEntries (names : Names) (permsReqd : Bool) : ℕ → AclList → List (List UInt8) → ℤ × AclList
  | n, aclist, [] => (n, aclist)
  | n, aclist, piece :: pieces =>
    if n ≥ MAX_ENTRIES then (-1, aclist)
    else
      let entry := readEntry names permsReqd (aclist n) piece
      let aclist := Function.update aclist n entry.1
      if entry.2.isSome then (-1, aclist) else readEntries names permsReqd (n + 1) aclist pieces

/-! ## 5. The functions do with memory what is done with the pieces -/

section Memory

variable {names : Names} {permsReqd : Bool}

/-- A string without a null byte is empty if its first byte is the null byte behind it. -/
theorem head?_append_zero {s post : List UInt8} (h : (0 : UInt8) ∉ s) :
    (s ++ 0 :: post).head? = some 0 ↔ s = [] := by
  cases s with
  | nil => exact iff_of_true rfl rfl
  | cons b s =>
    rw [List.cons_append, List.head?_cons, Option.some.injEq]
    refine iff_of_false ?_ (List.cons_ne_nil _ _)
    rintro rfl
    exact h List.mem_cons_self

/-- There is a qualifier if neither the end of the string nor another colon comes first. -/
theorem hasQual_eq {qualifier : List UInt8} (hzero : (0 : UInt8) ∉ qualifier)
    (hcolon : colon ∉ qualifier) {b : UInt8} (hb : b = 0 ∨ b = colon) (t : List UInt8) :
    decide ((qualifier ++ b :: t).head? ≠ some 0 ∧ (qualifier ++ b :: t).head? ≠ some colon) =
      decide (qualifier ≠ []) := by
  rw [decide_eq_decide]
  cases qualifier with
  | nil =>
    rw [List.nil_append, List.head?_cons]
    rcases hb with rfl | rfl <;> decide
  | cons a qualifier =>
    rw [List.mem_cons, not_or] at hzero hcolon
    rw [List.cons_append, List.head?_cons]
    refine iff_of_true ⟨?_, ?_⟩ (List.cons_ne_nil _ _)
    · exact fun h => hzero.1 (Option.some.inj h).symm
    · exact fun h => hcolon.1 (Option.some.inj h).symm

/-- There are permissions if something stands behind the second colon. -/
theorem perms_eq {text : List UInt8} {colon2 : ℕ} (f : ℕ → List UInt8) (h : f colon2 = text) :
    (((some colon2).filter fun _ => decide ¬text = []).map f) =
      (some text).filter fun text => decide ¬text = [] := by
  by_cases hnil : text = []
  · simp [Option.filter_some, hnil]
  · simp [Option.filter_some, hnil, h]

/-- **`parseEntrySpec()` is `readEntry`**: it changes no byte but those of its piece. -/
theorem parseEntrySpec_eq (ace : AccessControlEntry) {piece : List UInt8} (hpiece : (0 : UInt8) ∉ piece)
    (pre post : List UInt8) :
    ∃ junk, junk.length = piece.length ∧
      parseEntrySpec names (pre ++ (piece ++ 0 :: post)) pre.length ace permsReqd =
        ⟨pre ++ (junk ++ 0 :: post), (readEntry names permsReqd ace piece).1,
          (readEntry names permsReqd ace piece).2⟩ := by
  rw [parseEntrySpec, List.drop_left, readEntry]
  by_cases hcolon : colon ∈ piece
  · obtain ⟨tag, rest, rfl, htag⟩ := List.eq_append_cons_of_mem hcolon
    rw [List.mem_append, List.mem_cons, not_or, not_or] at hpiece
    obtain ⟨hzero, -, hrest⟩ := hpiece
    rw [List.append_assoc, List.cons_append, strchr_eq_some hzero htag, cut_append_cons htag]
    simp only [set_at, getElem?_behind, drop_behind, List.drop_left, str_append hzero]
    by_cases hcolon2 : colon ∈ rest
    · obtain ⟨qualifier, text, rfl, hqual⟩ := List.eq_append_cons_of_mem hcolon2
      rw [List.mem_append, List.mem_cons, not_or, not_or] at hrest
      obtain ⟨hzeroq, -, htext⟩ := hrest
      rw [List.append_assoc, List.cons_append, strchr_eq_some hzeroq hqual, cut_append_cons hqual]
      -- the offset of the second colon, as one from the first
      have hmem : pre ++ (tag ++ 0 :: (qualifier ++ colon :: (text ++ 0 :: post))) =
          (pre ++ (tag ++ [0])) ++ (qualifier ++ colon :: (text ++ 0 :: post)) := by
        simp only [List.append_assoc, List.singleton_append]
      have hlen : pre.length + tag.length + 1 = (pre ++ (tag ++ [0])).length := by
        simp only [List.length_append, List.length_singleton, Nat.add_assoc]
      have hperms := perms_eq (fun colon2 => str (((pre ++ (tag ++ [0])) ++
        (qualifier ++ 0 :: (text ++ 0 :: post))).drop (colon2 + 1)))
        (by rw [drop_behind (pre ++ (tag ++ [0])) qualifier, str_append htext])
      have hjunk : ∀ b, (pre ++ (tag ++ [0])) ++ (qualifier ++ b :: (text ++ 0 :: post)) =
          pre ++ ((tag ++ 0 :: (qualifier ++ b :: text)) ++ 0 :: post) := by
        intro b
        simp
      simp only [hmem, hlen, Option.map_some, Option.any_some, getElem?_behind, Option.elim_some,
        set_at, List.drop_left, hasQual_eq hzeroq hqual (.inr rfl), str_append hzeroq,
        head?_append_zero htext, ne_eq, readFields, Option.isSome_filter, hperms]
      simp only [hjunk]
      cases checkPerms (decide ¬text = []) permsReqd with
      | some message => exact ⟨tag ++ 0 :: (qualifier ++ colon :: text), by simp, rfl⟩
      | none =>
        cases tagType tag (decide ¬qualifier = []) with
        | none => exact ⟨tag ++ 0 :: (qualifier ++ colon :: text), by simp, rfl⟩
        | some _ => exact ⟨tag ++ 0 :: (qualifier ++ 0 :: text), by simp, rfl⟩
    · rw [strchr_eq_none hrest hcolon2 (by decide), cut_of_notMem hcolon2]
      simp only [Option.map_none, Option.any_none, Option.elim_none, Option.filter_none,
        hasQual_eq hrest hcolon2 (.inl rfl), drop_behind, str_append hrest, readFields,
        Option.isSome_none]
      refine ⟨tag ++ 0 :: rest, by simp, ?_⟩
      rw [List.append_assoc, List.cons_append]
      cases checkPerms false permsReqd with
      | some message => rfl
      | none =>
        dsimp only
        cases tagType tag (rest ≠ []) with
        | none => rfl
        | some tag => rfl
  · rw [strchr_eq_none hpiece hcolon (by decide), cut_of_notMem hcolon, str_append hpiece]
    exact ⟨piece, rfl, rfl⟩

theorem parseACLBody_decreases (names : Names) (permsReqd : Bool) (s s' : AclLocals)
    (h : parseACLBody names permsReqd s = .next s') : MAX_ENTRIES - s'.n < MAX_ENTRIES - s.n := by
  rw [parseACLBody] at h
  split at h
  · exact nomatch h
  · rename_i hn
    dsimp only at h
    split at h
    · exact nomatch h
    · split at h
      · exact nomatch h
      · rw [← Iter.next.inj h]
        dsimp only
        omega

/-- The strings between the commas, the first of them at offset `pre.length`. -/
def atPieces (pre : List UInt8) (pieces : List (List UInt8)) (post : List UInt8) (aclist : AclList)
    (n : ℕ) : AclLocals :=
  ⟨pre ++ ([comma].intercalate pieces ++ 0 :: post), aclist, pre.length, n⟩

/-- One turn of the loop, on the last piece. -/
theorem parseACLBody_last {piece : List UInt8} (hzero : (0 : UInt8) ∉ piece) (hcomma : comma ∉ piece)
    (pre post : List UInt8) (aclist : AclList) {n : ℕ} (hn : n < MAX_ENTRIES) :
    parseACLBody names permsReqd (atPieces pre [piece] post aclist n) =
      let entry := readEntry names permsReqd (aclist n) piece
      let aclist := Function.update aclist n entry.1
      if entry.2.isSome then .done ⟨-1, aclist, entry.2⟩ else .done ⟨n + 1, aclist, none⟩ := by
  obtain ⟨junk, -, hspec⟩ := @parseEntrySpec_eq names permsReqd (aclist n) piece hzero pre post
  rw [parseACLBody, atPieces, if_neg (Nat.not_le_of_lt hn), List.intercalate_singleton]
  simp only [List.drop_left, strchr_eq_none hzero hcomma (by decide), Option.map_none,
    Option.elim_none, hspec]

/-- One turn of the loop, on a piece with a comma behind it. -/
theorem parseACLBody_next {piece : List UInt8} (hzero : (0 : UInt8) ∉ piece) (hcomma : comma ∉ piece)
    {pieces : List (List UInt8)} (hne : pieces ≠ []) (pre post : List UInt8) (aclist : AclList) {n : ℕ}
    (hn : n < MAX_ENTRIES) :
    ∃ pre', parseACLBody names permsReqd (atPieces pre (piece :: pieces) post aclist n) =
      let entry := readEntry names permsReqd (aclist n) piece
      let aclist := Function.update aclist n entry.1
      if entry.2.isSome then .done ⟨-1, aclist, entry.2⟩
      else .next (atPieces pre' pieces post aclist (n + 1)) := by
  obtain ⟨junk, hjunk, hspec⟩ := @parseEntrySpec_eq names permsReqd (aclist n) piece hzero pre
    ([comma].intercalate pieces ++ 0 :: post)
  refine ⟨pre ++ (junk ++ [0]), ?_⟩
  have hlen : (pre ++ (junk ++ [0])).length = pre.length + piece.length + 1 := by
    rw [List.length_append, List.length_append, hjunk, List.length_singleton, Nat.add_assoc]
  have hmem : pre ++ ([comma].intercalate (piece :: pieces) ++ 0 :: post) =
      pre ++ (piece ++ comma :: ([comma].intercalate pieces ++ 0 :: post)) := by
    rw [List.intercalate_cons_of_ne_nil hne]
    simp
  rw [parseACLBody, atPieces, if_neg (Nat.not_le_of_lt hn), hmem]
  simp only [List.drop_left, strchr_eq_some hzero hcomma, Option.map_some, Option.elim_some, set_at,
    hspec, atPieces, hlen, List.append_assoc, List.singleton_append]

/-- **`parseACL()` is `readEntries`**, from any piece on. -/
theorem exec_atPieces (post : List UInt8) {pieces : List (List UInt8)} (hne : pieces ≠ [])
    (hzero : ∀ piece ∈ pieces, (0 : UInt8) ∉ piece) (hcomma : ∀ piece ∈ pieces, comma ∉ piece)
    (pre : List UInt8) (aclist : AclList) (n : ℕ) :
    ∃ r, exec (parseACLBody names permsReqd) (fun s => MAX_ENTRIES - s.n)
        (atPieces pre pieces post aclist n) = some r ∧
      (r.ret, r.aclist) = readEntries names permsReqd n aclist pieces := by
  induction pieces generalizing pre aclist n with
  | nil => exact absurd rfl hne
  | cons piece pieces ih =>
    rw [exec_eq (parseACLBody_decreases names permsReqd), readEntries]
    by_cases hn : n ≥ MAX_ENTRIES
    · rw [parseACLBody, atPieces, if_pos hn, if_pos hn]
      exact ⟨_, rfl, rfl⟩
    · rw [if_neg hn]
      have hzero' := hzero piece List.mem_cons_self
      have hcomma' := hcomma piece List.mem_cons_self
      by_cases hnil : pieces = []
      · subst hnil
        rw [parseACLBody_last hzero' hcomma' pre post aclist (Nat.lt_of_not_le hn)]
        dsimp only
        cases (readEntry names permsReqd (aclist n) piece).2.isSome with
        | true => exact ⟨_, rfl, rfl⟩
        | false => exact ⟨_, rfl, rfl⟩
      · obtain ⟨pre', hnext⟩ := @parseACLBody_next names permsReqd piece hzero' hcomma' pieces hnil
          pre post aclist n (Nat.lt_of_not_le hn)
        rw [hnext]
        dsimp only
        cases (readEntry names permsReqd (aclist n) piece).2.isSome with
        | true => exact ⟨_, rfl, rfl⟩
        | false =>
          exact ih hnil (fun p hp => hzero p (List.mem_cons_of_mem _ hp))
            (fun p hp => hcomma p (List.mem_cons_of_mem _ hp)) pre' _ (n + 1)

/-- **`parseACL()` reads the pieces between the commas.** -/
theorem parseACL_eq {s : List UInt8} (hzero : (0 : UInt8) ∉ s) (post : List UInt8) (aclist : AclList) :
    ∃ r, parseACL names (s ++ 0 :: post) aclist permsReqd = some r ∧
      (r.ret, r.aclist) = readEntries names permsReqd 0 aclist (s.splitOn comma) := by
  have hrun := @exec_atPieces names permsReqd post (s.splitOn comma) (List.splitOn_ne_nil _ _)
    (fun piece hpiece h => hzero ((of_mem_splitOn hpiece).2 _ h))
    (fun piece hpiece => (of_mem_splitOn hpiece).1) [] aclist 0
  rw [atPieces, List.intercalate_splitOn] at hrun
  exact hrun

end Memory

end Tlpi.AclText
