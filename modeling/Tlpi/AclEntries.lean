/-
`acl/acl_update.c`: what the text form of an access control list is, and that it is read back.

Everything is said about the pieces between the commas, as `readEntry` reads them: that a piece that is
accepted has the form of an entry, that a printed entry is accepted and read back, and what becomes
of a number in a qualifier. `parseACL_eq` makes statements about `parseACL()` of it.
-/
import Mathlib.Data.List.Forall2
import Tlpi.AclText

set_option autoImplicit false

namespace Tlpi.AclEntries

open Tlpi.AclText Tlpi.CString Tlpi.Decimal Tlpi.Strtol Tlpi.UgidFunctions

/-! ## 1. A list of pieces -/

section Pieces

variable {names : Names} {permsReqd : Bool}

/-- What is wrong with a piece does not depend on what is in the array. -/
theorem readEntry_message (ace ace' : AccessControlEntry) (piece : List UInt8) :
    (readEntry names permsReqd ace piece).2 = (readEntry names permsReqd ace' piece).2 := by
  rw [readEntry, readEntry]
  cases cut colon piece with
  | mk tag rest =>
    cases rest with
    | none => rfl
    | some rest =>
      dsimp only
      rw [readFields, readFields]
      cases checkPerms ((cut colon rest).2.filter fun text => decide (text ≠ [])).isSome permsReqd with
      | some message => rfl
      | none =>
        dsimp only
        cases tagType tag (decide ((cut colon rest).1 ≠ [])) with
        | none => rfl
        | some t =>
          dsimp only
          rw [storeQual, storeQual]
          cases qualifierId names t (cut colon rest).1 with
          | none => cases (cut colon rest).2.filter fun text => decide (text ≠ []) <;> rfl
          | some q =>
            dsimp only
            split
            · rfl
            · cases (cut colon rest).2.filter fun text => decide (text ≠ []) <;> rfl

/-- The piece is an entry. -/
def Accepted (names : Names) (permsReqd : Bool) (piece : List UInt8) : Prop :=
  ∀ ace, (readEntry names permsReqd ace piece).2 = none

theorem accepted_of {ace : AccessControlEntry} {piece : List UInt8}
    (h : (readEntry names permsReqd ace piece).2 = none) : Accepted names permsReqd piece :=
  fun ace' => (readEntry_message ace' ace piece).trans h

/-- Only the elements for the pieces are stored, and none behind the last element. -/
theorem readEntries_outside {pieces : List (List UInt8)} {n : ℕ} {aclist : AclList} {i : ℕ}
    (hi : i < n ∨ MAX_ENTRIES ≤ i) : (readEntries names permsReqd n aclist pieces).2 i = aclist i := by
  induction pieces generalizing n aclist with
  | nil => rfl
  | cons piece pieces ih =>
    rw [readEntries]
    split
    · rfl
    · have hne : i ≠ n := by omega
      dsimp only
      split
      · exact Function.update_of_ne hne _ _
      · rw [ih (by omega)]
        exact Function.update_of_ne hne _ _

/-- **If every piece is an entry and there are not too many**, they are all stored. -/
theorem readEntries_ok {pieces : List (List UInt8)} {n : ℕ} (aclist : AclList)
    (haccepted : ∀ piece ∈ pieces, Accepted names permsReqd piece)
    (hn : n + pieces.length ≤ MAX_ENTRIES) :
    (readEntries names permsReqd n aclist pieces).1 = ((n + pieces.length : ℕ) : ℤ) ∧
      ∀ k piece, pieces[k]? = some piece → (readEntries names permsReqd n aclist pieces).2 (n + k) =
        (readEntry names permsReqd (aclist (n + k)) piece).1 := by
  induction pieces generalizing n aclist with
  | nil => exact ⟨rfl, nofun⟩
  | cons piece pieces ih =>
    rw [List.length_cons] at hn
    have hmessage := haccepted piece List.mem_cons_self (aclist n)
    have hstep : readEntries names permsReqd n aclist (piece :: pieces) =
        readEntries names permsReqd (n + 1)
          (Function.update aclist n (readEntry names permsReqd (aclist n) piece).1) pieces := by
      rw [readEntries, if_neg (by omega)]
      simp only [hmessage, Option.isSome_none, Bool.false_eq_true, if_false]
    obtain ⟨hret, hstored⟩ := ih (Function.update aclist n (readEntry names permsReqd (aclist n) piece).1)
      (fun p hp => haccepted p (List.mem_cons_of_mem _ hp)) (by omega : n + 1 + pieces.length ≤ MAX_ENTRIES)
    rw [hstep, hret, List.length_cons]
    refine ⟨by omega, ?_⟩
    intro k p hp
    cases k with
    | zero =>
      rw [List.getElem?_cons_zero, Option.some.injEq] at hp
      simp only [Nat.add_zero]
      rw [readEntries_outside (.inl (Nat.lt_add_one n)), Function.update_self, hp]
    | succ k =>
      rw [List.getElem?_cons_succ] at hp
      have hk := hstored k p hp
      rw [show n + 1 + k = n + (k + 1) by omega, Function.update_of_ne (by omega)] at hk
      exact hk

/-- **If not**, it fails. -/
theorem readEntries_accepted {pieces : List (List UInt8)} {n : ℕ} {aclist : AclList} (hn : n ≤ MAX_ENTRIES)
    (h : (readEntries names permsReqd n aclist pieces).1 ≠ -1) :
    n + pieces.length ≤ MAX_ENTRIES ∧ ∀ piece ∈ pieces, Accepted names permsReqd piece := by
  induction pieces generalizing n aclist with
  | nil => exact ⟨hn, nofun⟩
  | cons piece pieces ih =>
    rw [readEntries] at h
    split at h
    · exact absurd rfl h
    · dsimp only at h
      split at h
      · exact absurd rfl h
      · rename_i hlt hnone
        rw [Bool.not_eq_true, Option.isSome_eq_false_iff, Option.isNone_iff_eq_none] at hnone
        obtain ⟨hlen, hrest⟩ := ih (by omega) h
        rw [List.length_cons]
        refine ⟨by omega, ?_⟩
        intro p hp
        rcases List.mem_cons.mp hp with rfl | hp
        · exact accepted_of hnone
        · exact hrest p hp

end Pieces

/-! ## 2. What an entry looks like -/

/-- The form of an entry, `tag:[qualifier][:[perms]]`, with permissions exactly if they are required. -/
def WellFormed (permsReqd : Bool) (piece : List UInt8) : Prop :=
  ∃ tag qualifier, tag ∈ userTags ++ groupTags ++ otherTags ++ maskTags ∧ colon ∉ qualifier ∧
    if permsReqd then
      ∃ perms, perms ≠ [] ∧ (∀ p ∈ perms, p ∈ [charR, charW, charX, dash]) ∧
        piece = tag ++ colon :: (qualifier ++ colon :: perms)
    else piece = tag ++ colon :: qualifier ∨ piece = tag ++ colon :: (qualifier ++ [colon])

section Form

variable {names : Names} {permsReqd : Bool} {ace : AccessControlEntry}

theorem readEntry_one {tag qualifier : List UInt8} (htag : colon ∉ tag) (hqual : colon ∉ qualifier) :
    readEntry names permsReqd ace (tag ++ colon :: qualifier) =
      readFields names permsReqd ace tag qualifier none := by
  rw [readEntry, cut_append_cons htag]
  dsimp only
  rw [cut_of_notMem hqual]

theorem readEntry_two {tag qualifier : List UInt8} (htag : colon ∉ tag) (hqual : colon ∉ qualifier)
    (text : List UInt8) :
    readEntry names permsReqd ace (tag ++ colon :: (qualifier ++ colon :: text)) =
      readFields names permsReqd ace tag qualifier (some text) := by
  rw [readEntry, cut_append_cons htag]
  dsimp only
  rw [cut_append_cons hqual]

/-- A piece with a colon has one or two of them that count. -/
theorem fields_cases {piece : List UInt8} (h : colon ∈ piece) :
    ∃ tag qualifier, colon ∉ tag ∧ colon ∉ qualifier ∧
      (piece = tag ++ colon :: qualifier ∨ ∃ text, piece = tag ++ colon :: (qualifier ++ colon :: text)) := by
  obtain ⟨tag, rest, rfl, htag⟩ := List.eq_append_cons_of_mem h
  by_cases hrest : colon ∈ rest
  · obtain ⟨qualifier, text, rfl, hqual⟩ := List.eq_append_cons_of_mem hrest
    exact ⟨tag, qualifier, htag, hqual, .inr ⟨text, rfl⟩⟩
  · exact ⟨tag, rest, htag, hrest, .inl rfl⟩

theorem tagType_isSome {tag : List UInt8} {hasQual : Bool} {t : AclTag}
    (h : tagType tag hasQual = some t) : tag ∈ userTags ++ groupTags ++ otherTags ++ maskTags := by
  simp only [List.mem_append]
  rw [tagType] at h
  split at h
  · exact .inl (.inl (.inl ‹_›))
  · split at h
    · exact .inl (.inl (.inr ‹_›))
    · split at h
      · exact .inl (.inr ‹_›)
      · split at h
        · exact .inr ‹_›
        · exact nomatch h

/-- The loop over the permissions stops at any other character. -/
theorem permsLoop_eq_none {text : List UInt8} : ∀ {perms : BitVec 32},
    (permsLoop perms text).2 = none → ∀ p ∈ text, p ∈ [charR, charW, charX, dash] := by
  induction text with
  | nil => exact fun _ => nofun
  | cons p ps ih =>
    intro perms h q hq
    rw [permsLoop] at h
    rcases List.mem_cons.mp hq with rfl | hq
    · by_contra hbad
      simp only [List.mem_cons, List.not_mem_nil, or_false, not_or] at hbad
      rw [if_neg hbad.1, if_neg hbad.2.1, if_neg hbad.2.2.1, if_pos hbad.2.2.2] at h
      exact nomatch h
    · split at h
      · exact ih h q hq
      · split at h
        · exact ih h q hq
        · split at h
          · exact ih h q hq
          · split at h
            · exact nomatch h
            · exact ih h q hq

theorem checkPerms_eq_none {hasPerms : Bool} (h : checkPerms hasPerms permsReqd = none) :
    hasPerms = permsReqd := by
  revert h
  cases hasPerms <;> cases permsReqd <;> simp [checkPerms]

/-- **What is accepted**: a known tag, permissions exactly if they are required, a good qualifier. -/
theorem readFields_accepted {tag qualifier : List UInt8} {more : Option (List UInt8)}
    (h : (readFields names permsReqd ace tag qualifier more).2 = none) :
    (more.filter fun text => decide (text ≠ [])).isSome = permsReqd ∧
      ∃ t, tagType tag (decide (qualifier ≠ [])) = some t ∧
        (storeQual names ace t qualifier (more.filter fun text => decide (text ≠ []))).2 = none ∧
        readFields names permsReqd ace tag qualifier more =
          storeQual names ace t qualifier (more.filter fun text => decide (text ≠ [])) := by
  rw [readFields] at h ⊢
  cases hcheck : checkPerms (more.filter fun text => decide (text ≠ [])).isSome permsReqd with
  | some message =>
    rw [hcheck] at h
    cases h
  | none =>
    rw [hcheck] at h
    dsimp only at h ⊢
    refine ⟨checkPerms_eq_none hcheck, ?_⟩
    cases htag : tagType tag (decide (qualifier ≠ [])) with
    | none =>
      rw [htag] at h
      cases h
    | some t =>
      rw [htag] at h
      exact ⟨t, rfl, h, rfl⟩

theorem storeQual_accepted {t : AclTag} {qualifier : List UInt8} {perms : Option (List UInt8)}
    (h : (storeQual names ace t qualifier perms).2 = none) :
    (∀ text ∈ perms, (permsLoop 0 text).2 = none) ∧
      ∃ id, storeQual names ace t qualifier perms = storePerms { ace with tag := t, qual := id } perms ∧
        match qualifierId names t qualifier with
        | none => id = 0
        | some q => id = q.1 ∧ id ≠ noId := by
  have hperms : ∀ ace' : AccessControlEntry, (storePerms ace' perms).2 = none →
      ∀ text ∈ perms, (permsLoop 0 text).2 = none := by
    rintro ace' h text ht
    rw [Option.mem_def] at ht
    rw [ht, storePerms, Option.map_eq_none_iff] at h
    exact h
  rw [storeQual] at h ⊢
  cases hid : qualifierId names t qualifier with
  | none =>
    rw [hid] at h
    exact ⟨hperms _ h, 0, rfl, rfl⟩
  | some q =>
    rw [hid] at h
    dsimp only at h ⊢
    by_cases hno : q.1 = noId
    · rw [if_pos hno] at h
      exact nomatch h
    · rw [if_neg hno] at h ⊢
      exact ⟨hperms _ h, q.1, rfl, rfl, hno⟩

theorem wellFormed_of_accepted {piece : List UInt8} (h : Accepted names permsReqd piece) :
    WellFormed permsReqd piece := by
  have ace : AccessControlEntry := ⟨.ACL_MASK, 0, 0⟩
  have hmessage := h ace
  by_cases hcolon : colon ∈ piece
  · obtain ⟨tag, qualifier, htag, hqual, rfl | ⟨text, rfl⟩⟩ := fields_cases hcolon
    · rw [readEntry_one htag hqual] at hmessage
      obtain ⟨hreqd, t, htype, -⟩ := readFields_accepted hmessage
      refine ⟨tag, qualifier, tagType_isSome htype, hqual, ?_⟩
      rw [← hreqd]
      exact .inl rfl
    · rw [readEntry_two htag hqual] at hmessage
      obtain ⟨hreqd, t, htype, hstored, -⟩ := readFields_accepted hmessage
      refine ⟨tag, qualifier, tagType_isSome htype, hqual, ?_⟩
      rw [← hreqd, Option.isSome_filter, Option.any_some]
      by_cases hnil : text = []
      · rw [hnil]
        exact .inr rfl
      · rw [if_pos (decide_eq_true hnil)]
        refine ⟨text, hnil, ?_, rfl⟩
        refine permsLoop_eq_none ((storeQual_accepted hstored).1 text ?_)
        rw [Option.mem_def, Option.filter_some, if_pos (decide_eq_true hnil)]
  · rw [readEntry, cut_of_notMem hcolon] at hmessage
    cases hmessage

end Form

/-! ## 3. Printed entries -/

/-- A permission set. -/
structure Perms where
  read : Bool
  write : Bool
  execute : Bool
deriving Repr, DecidableEq

def Perms.mask (p : Perms) : BitVec 32 :=
  (if p.read then ACL_READ else 0) ||| (if p.write then ACL_WRITE else 0) |||
    (if p.execute then ACL_EXECUTE else 0)

/-- Whom an entry is for, with an ID that is not the error value. -/
inductive Who where
  | userObj
  | user (uid : {id : Id // id ≠ noId})
  | groupObj
  | group (gid : {id : Id // id ≠ noId})
  | mask
  | other

namespace Who

def tag : Who → AclTag
  | userObj => .ACL_USER_OBJ
  | user _ => .ACL_USER
  | groupObj => .ACL_GROUP_OBJ
  | group _ => .ACL_GROUP
  | mask => .ACL_MASK
  | other => .ACL_OTHER

def qual : Who → Id
  | user uid => uid.val
  | group gid => gid.val
  | _ => 0

/-- The names of the tag, and the qualifier. -/
def tags : Who → List (List UInt8)
  | userObj | user _ => userTags
  | groupObj | group _ => groupTags
  | mask => maskTags
  | other => otherTags

def qualifier : Who → List UInt8
  | user uid => decimal uid.val.toNat
  | group gid => decimal gid.val.toNat
  | _ => []

/-- `tag:[id]` -/
def Prints (w : Who) (text : List UInt8) : Prop := ∃ tag ∈ w.tags, text = tag ++ colon :: w.qualifier

/-- `tag:[id][:]` -/
def PrintsAlone (w : Who) (text : List UInt8) : Prop :=
  ∃ who, w.Prints who ∧ (text = who ∨ text = who ++ [colon])

end Who

structure Entry where
  who : Who
  perms : Perms

/-- At least one of `r`, `w`, `x` and `-`, where the letters are the permissions. -/
structure PermText (p : Perms) (text : List UInt8) : Prop where
  ne_nil : text ≠ []
  chars : ∀ c ∈ text, c ∈ [charR, charW, charX, dash]
  read : p.read = decide (charR ∈ text)
  write : p.write = decide (charW ∈ text)
  execute : p.execute = decide (charX ∈ text)

namespace Entry

def ace (e : Entry) : AccessControlEntry := ⟨e.who.tag, e.who.qual, e.perms.mask⟩

/-- `tag:[id]:perms` -/
def Prints (e : Entry) (text : List UInt8) : Prop :=
  ∃ who perms, e.who.Prints who ∧ PermText e.perms perms ∧ text = who ++ colon :: perms

end Entry

/-- The letters that a text has. -/
def lettersOf (text : List UInt8) : Perms :=
  ⟨decide (charR ∈ text), decide (charW ∈ text), decide (charX ∈ text)⟩

/-- One more letter is one more bit. -/
theorem mask_lettersOf_cons (ps : List UInt8) :
    (lettersOf (charR :: ps)).mask = ACL_READ ||| (lettersOf ps).mask ∧
      (lettersOf (charW :: ps)).mask = ACL_WRITE ||| (lettersOf ps).mask ∧
      (lettersOf (charX :: ps)).mask = ACL_EXECUTE ||| (lettersOf ps).mask ∧
      (lettersOf (dash :: ps)).mask = (lettersOf ps).mask := by
  simp only [lettersOf, List.mem_cons, Bool.decide_or]
  generalize decide (charR ∈ ps) = r, decide (charW ∈ ps) = w, decide (charX ∈ ps) = x
  cases r <;> cases w <;> cases x <;> decide

/-- The bits of the letters are added. -/
theorem permsLoop_eq {text : List UInt8} (hchars : ∀ c ∈ text, c ∈ [charR, charW, charX, dash]) :
    ∀ m : BitVec 32, permsLoop m text = (m ||| (lettersOf text).mask, none) := by
  induction text with
  | nil =>
    intro m
    simp [permsLoop, lettersOf, Perms.mask]
  | cons p ps ih =>
    intro m
    have hps := ih fun c hc => hchars c (List.mem_cons_of_mem _ hc)
    obtain ⟨hr, hw, hx, hd⟩ := mask_lettersOf_cons ps
    have hp := hchars p List.mem_cons_self
    simp only [List.mem_cons, List.not_mem_nil, or_false] at hp
    rcases hp with rfl | rfl | rfl | rfl
    · rw [permsLoop, if_pos rfl, hps, hr, BitVec.or_assoc]
    · rw [permsLoop, if_neg (by decide), if_pos rfl, hps, hw, BitVec.or_assoc]
    · rw [permsLoop, if_neg (by decide), if_neg (by decide), if_pos rfl, hps, hx, BitVec.or_assoc]
    · rw [permsLoop, if_neg (by decide), if_neg (by decide), if_neg (by decide), if_neg (by decide),
        hps, hd]

theorem PermText.lettersOf {p : Perms} {text : List UInt8} (h : PermText p text) :
    lettersOf text = p := by
  rw [AclEntries.lettersOf, ← h.read, ← h.write, ← h.execute]

/-- No delimiter and no null byte is in a tag. -/
theorem Who.notMem_tag {w : Who} {tag : List UInt8} (h : tag ∈ w.tags) :
    colon ∉ tag ∧ comma ∉ tag ∧ (0 : UInt8) ∉ tag := by
  have hall : ∀ tag ∈ userTags ++ groupTags ++ otherTags ++ maskTags,
      colon ∉ tag ∧ comma ∉ tag ∧ (0 : UInt8) ∉ tag := by decide
  refine hall tag ?_
  simp only [List.mem_append]
  cases w with
  | userObj | user => exact .inl (.inl (.inl h))
  | groupObj | group => exact .inl (.inl (.inr h))
  | mask => exact .inr h
  | other => exact .inl (.inr h)

theorem Who.notMem_qualifier (w : Who) :
    colon ∉ w.qualifier ∧ comma ∉ w.qualifier ∧ (0 : UInt8) ∉ w.qualifier := by
  have hdecimal : ∀ n, colon ∉ decimal n ∧ comma ∉ decimal n ∧ (0 : UInt8) ∉ decimal n := by
    intro n
    refine ⟨fun h => ?_, fun h => ?_, fun h => ?_⟩
    · exact absurd (isDigit_of_mem_decimal h).2 (by decide)
    · exact absurd (isDigit_of_mem_decimal h).1 (by decide)
    · exact absurd (isDigit_of_mem_decimal h).1 (by decide)
  cases w with
  | user uid => exact hdecimal _
  | group gid => exact hdecimal _
  | userObj | groupObj | mask | other => exact ⟨List.not_mem_nil, List.not_mem_nil, List.not_mem_nil⟩

section Printed

variable {names : Names} {permsReqd : Bool} {ace : AccessControlEntry}

theorem Who.tagType_eq (w : Who) {tag : List UInt8} (h : tag ∈ w.tags) :
    tagType tag (decide (w.qualifier ≠ [])) = some w.tag := by
  have huser : ∀ tag ∈ userTags, ∀ q, tagType tag q = some (if q then .ACL_USER else .ACL_USER_OBJ) := by
    decide
  have hgroup : ∀ tag ∈ groupTags, ∀ q,
      tagType tag q = some (if q then .ACL_GROUP else .ACL_GROUP_OBJ) := by
    decide
  have hother : ∀ tag ∈ otherTags, ∀ q, tagType tag q = some .ACL_OTHER := by decide
  have hmask : ∀ tag ∈ maskTags, ∀ q, tagType tag q = some .ACL_MASK := by decide
  have hne : ∀ n, decide (decimal n ≠ []) = true :=
    fun n => decide_eq_true (List.map_eq_nil_iff.not.mpr (decimalDigits_ne_nil n))
  cases w with
  | userObj => exact huser tag h _
  | user uid => rw [huser tag h, qualifier, hne]; rfl
  | groupObj => exact hgroup tag h _
  | group gid => rw [hgroup tag h, qualifier, hne]; rfl
  | mask => exact hmask tag h _
  | other => exact hother tag h _

/-- The qualifier of a printed entry is read back. -/
theorem Who.storeQual_eq (w : Who) (perms : Option (List UInt8)) :
    storeQual names ace w.tag w.qualifier perms =
      storePerms { ace with tag := w.tag, qual := w.qual } perms := by
  have hid : ∀ (lookup : List UInt8 → Option Id) (id : Id),
      idFromName lookup (some (decimal id.toNat)) = id := fun lookup id =>
    (idFromName_of_denotes lookup (denotes_decimal id.toNat)).trans (convertId_toNat id)
  rw [storeQual]
  cases w with
  | user uid =>
    simp only [tag, qualifierId, qualifier, userIdFromName, hid, if_neg uid.property, qual]
  | group gid =>
    simp only [tag, qualifierId, qualifier, groupIdFromName, hid, if_neg gid.property, qual]
  | userObj | groupObj | mask | other => rfl

theorem Who.readFields_eq (w : Who) {tag : List UInt8} (htag : tag ∈ w.tags)
    {more : Option (List UInt8)}
    (hperms : (more.filter fun text => decide (text ≠ [])).isSome = permsReqd) :
    readFields names permsReqd ace tag w.qualifier more =
      storePerms { ace with tag := w.tag, qual := w.qual }
        (more.filter fun text => decide (text ≠ [])) := by
  have hcheck : checkPerms permsReqd permsReqd = none := by
    cases permsReqd <;> rfl
  rw [readFields]
  simp only [hperms, hcheck, w.tagType_eq htag, w.storeQual_eq]

/-- **A printed entry is read back.** -/
theorem Entry.readEntry_eq {e : Entry} {text : List UInt8} (h : e.Prints text) :
    readEntry names true ace text = (e.ace, none) := by
  obtain ⟨who, perms, ⟨tag, htag, rfl⟩, hperms, rfl⟩ := h
  have hfilter : (some perms).filter (fun text => decide (text ≠ [])) = some perms := by
    rw [Option.filter_some, if_pos (decide_eq_true hperms.ne_nil)]
  rw [List.append_assoc, List.cons_append, readEntry_two (Who.notMem_tag htag).1 e.who.notMem_qualifier.1,
    e.who.readFields_eq htag (by rw [hfilter]; rfl), hfilter, storePerms]
  have hzero : (0 : BitVec 32) ||| e.perms.mask = e.perms.mask := BitVec.zero_or
  simp only [permsLoop_eq hperms.chars, hperms.lettersOf, hzero, Option.map_none]
  rfl

theorem Who.readEntry_eq {w : Who} {text : List UInt8} (h : w.PrintsAlone text) :
    readEntry names false ace text = ({ ace with tag := w.tag, qual := w.qual }, none) := by
  obtain ⟨who, ⟨tag, htag, rfl⟩, rfl | rfl⟩ := h
  · rw [readEntry_one (Who.notMem_tag htag).1 w.notMem_qualifier.1,
      @Who.readFields_eq names false ace w tag htag none rfl]
    rfl
  · rw [List.append_assoc, List.cons_append, readEntry_two (Who.notMem_tag htag).1 w.notMem_qualifier.1,
      @Who.readFields_eq names false ace w tag htag (some []) rfl]
    rfl

end Printed

/-- No delimiter of the list and no null byte is in a printed entry. -/
theorem Who.Prints.notMem {w : Who} {text : List UInt8} (h : w.Prints text) :
    comma ∉ text ∧ (0 : UInt8) ∉ text := by
  obtain ⟨tag, htag, rfl⟩ := h
  have ht := Who.notMem_tag htag
  have hq := w.notMem_qualifier
  simp only [List.mem_append, List.mem_cons, not_or]
  exact ⟨⟨ht.2.1, by decide, hq.2.1⟩, ht.2.2, by decide, hq.2.2⟩

theorem Who.PrintsAlone.notMem {w : Who} {text : List UInt8} (h : w.PrintsAlone text) :
    comma ∉ text ∧ (0 : UInt8) ∉ text := by
  obtain ⟨who, hwho, rfl | rfl⟩ := h
  · exact hwho.notMem
  · simp only [List.mem_append, List.mem_singleton, not_or]
    exact ⟨⟨hwho.notMem.1, by decide⟩, hwho.notMem.2, by decide⟩

theorem Entry.Prints.notMem {e : Entry} {text : List UInt8} (h : e.Prints text) :
    comma ∉ text ∧ (0 : UInt8) ∉ text := by
  obtain ⟨who, perms, hwho, hperms, rfl⟩ := h
  have hc : comma ∉ perms := fun h => absurd (hperms.chars _ h) (by decide)
  have hz : (0 : UInt8) ∉ perms := fun h => absurd (hperms.chars _ h) (by decide)
  simp only [List.mem_append, List.mem_cons, not_or]
  exact ⟨⟨hwho.notMem.1, by decide, hc⟩, hwho.notMem.2, by decide, hz⟩

/-! ## 4. The list -/

theorem getElem?_of_forall₂ {α β : Type} {R : α → β → Prop} {xs : List α} {ys : List β}
    (h : List.Forall₂ R xs ys) {k : ℕ} {x : α} (hk : xs[k]? = some x) :
    ∃ y, ys[k]? = some y ∧ R x y := by
  induction h generalizing k with
  | nil => exact nomatch hk
  | cons hxy _ ih =>
    cases k with
    | zero =>
      rw [List.getElem?_cons_zero, Option.some.injEq] at hk
      exact ⟨_, rfl, hk ▸ hxy⟩
    | succ k => exact ih hk

/-- **A printed list is read back**, whatever its elements are, if each of their texts is accepted. -/
theorem parseACL_joined (names : Names) {permsReqd : Bool} (aclist : AclList) (post : List UInt8)
    {α : Type} {prints : α → List UInt8 → Prop} {xs : List α} {texts : List (List UInt8)}
    (hprints : List.Forall₂ prints xs texts) (hne : xs ≠ []) (hlen : xs.length ≤ MAX_ENTRIES)
    (hchars : ∀ x text, prints x text → comma ∉ text ∧ (0 : UInt8) ∉ text)
    (haccepted : ∀ x text, prints x text → Accepted names permsReqd text) :
    ∃ r, parseACL names ([comma].intercalate texts ++ 0 :: post) aclist permsReqd = some r ∧
      r.ret = xs.length ∧ ∀ k x, xs[k]? = some x →
        ∃ text, prints x text ∧ r.aclist k = (readEntry names permsReqd (aclist k) text).1 := by
  have hmem : ∀ text ∈ texts, ∃ x, prints x text := by
    intro text htext
    obtain ⟨k, hk⟩ := List.mem_iff_getElem?.mp htext
    obtain ⟨x, -, hx⟩ := getElem?_of_forall₂ hprints.flip hk
    exact ⟨x, hx⟩
  have htexts : texts.length = xs.length := hprints.length_eq.symm
  have hsplit : ([comma].intercalate texts).splitOn comma = texts := by
    refine List.splitOn_intercalate comma (fun text htext => ?_) ?_
    · obtain ⟨x, hx⟩ := hmem text htext
      exact (hchars x text hx).1
    · rw [← List.length_pos_iff, htexts]
      exact List.length_pos_iff.mpr hne
  have hzero : (0 : UInt8) ∉ [comma].intercalate texts := by
    refine notMem_intercalate (by decide) fun text htext => ?_
    obtain ⟨x, hx⟩ := hmem text htext
    exact (hchars x text hx).2
  obtain ⟨r, hr, hread⟩ := @parseACL_eq names permsReqd _ hzero post aclist
  rw [hsplit] at hread
  obtain ⟨hret, hstored⟩ := @readEntries_ok names permsReqd texts 0 aclist
    (fun text htext => (hmem text htext).elim fun x hx => haccepted x text hx)
    (by rwa [Nat.zero_add, htexts])
  rw [← hread, Nat.zero_add, htexts] at hret
  refine ⟨r, hr, hret, ?_⟩
  intro k x hk
  obtain ⟨text, htext, hx⟩ := getElem?_of_forall₂ hprints hk
  have h := hstored k text htext
  rw [Nat.zero_add, ← hread] at h
  exact ⟨text, hx, h⟩

/-- **The text form of a list**: a printed list is read back, with its permissions or without them; a
string with a piece of another form or with too many pieces is rejected; and only the elements of
the array are stored. -/
theorem acl_text_round_trip (names : Names) (aclist : AclList) (post : List UInt8) :
    (∀ (entries : List Entry) (texts : List (List UInt8)), entries ≠ [] →
        entries.length ≤ MAX_ENTRIES → List.Forall₂ Entry.Prints entries texts →
        ∃ r, parseACL names ([comma].intercalate texts ++ 0 :: post) aclist true = some r ∧
          r.ret = entries.length ∧ ∀ k e, entries[k]? = some e → r.aclist k = e.ace) ∧
      (∀ (whos : List Who) (texts : List (List UInt8)), whos ≠ [] → whos.length ≤ MAX_ENTRIES →
        List.Forall₂ Who.PrintsAlone whos texts →
        ∃ r, parseACL names ([comma].intercalate texts ++ 0 :: post) aclist false = some r ∧
          r.ret = whos.length ∧
          ∀ k w, whos[k]? = some w → (r.aclist k).tag = w.tag ∧ (r.aclist k).qual = w.qual) ∧
      ∀ (s : CStr) (permsReqd : Bool),
        ∃ r, parseACL names (s.val ++ 0 :: post) aclist permsReqd = some r ∧
          ((∃ piece ∈ s.val.splitOn comma, ¬WellFormed permsReqd piece) ∨
            MAX_ENTRIES < (s.val.splitOn comma).length → r.ret = -1) ∧
          ∀ i ≥ MAX_ENTRIES, r.aclist i = aclist i := by
  refine ⟨?_, ?_, ?_⟩
  · intro entries texts hne hlen hprints
    obtain ⟨r, hr, hret, hstored⟩ := parseACL_joined names aclist post hprints hne hlen
      (fun e text h => h.notMem)
      (fun e text h ace => congrArg Prod.snd (Entry.readEntry_eq h))
    refine ⟨r, hr, hret, fun k e hk => ?_⟩
    obtain ⟨text, htext, h⟩ := hstored k e hk
    rw [h, Entry.readEntry_eq htext]
  · intro whos texts hne hlen hprints
    obtain ⟨r, hr, hret, hstored⟩ := parseACL_joined names aclist post hprints hne hlen
      (fun w text h => h.notMem)
      (fun w text h ace => congrArg Prod.snd (Who.readEntry_eq h))
    refine ⟨r, hr, hret, fun k w hk => ?_⟩
    obtain ⟨text, htext, h⟩ := hstored k w hk
    rw [h, Who.readEntry_eq htext]
    exact ⟨rfl, rfl⟩
  · intro s permsReqd
    obtain ⟨r, hr, hread⟩ := @parseACL_eq names permsReqd _ s.property post aclist
    refine ⟨r, hr, ?_, ?_⟩
    · intro hbad
      by_contra hret
      have hret' : (readEntries names permsReqd 0 aclist (s.val.splitOn comma)).1 ≠ -1 := by
        rw [← hread]
        exact hret
      obtain ⟨hlen, haccepted⟩ := readEntries_accepted (Nat.zero_le _) hret'
      rcases hbad with ⟨piece, hpiece, hform⟩ | htoo
      · exact hform (wellFormed_of_accepted (haccepted piece hpiece))
      · omega
    · intro i hi
      have h := @readEntries_outside names permsReqd (s.val.splitOn comma) 0 aclist i (.inr hi)
      rwa [← hread] at h

/-! ## 5. Numeric qualifiers -/

/-- The qualifier of a piece. -/
def HasQualifier (piece qualifier : List UInt8) : Prop :=
  ∃ tag, colon ∉ tag ∧ colon ∉ qualifier ∧
    (piece = tag ++ colon :: qualifier ∨ ∃ more, piece = tag ++ colon :: (qualifier ++ colon :: more))

/-- Where the string is numeric, an ID that is not the error value is the number. -/
def IdsRight (names : Names) (s : List UInt8) (n : ℤ) : Prop :=
  ∀ id, id ≠ noId → (userIdFromName names (some s) = id ∨ groupIdFromName names (some s) = id) →
    (id.toNat : ℤ) = n

theorem idsRight_iff (names : Names) {s : List UInt8} {n : ℤ} (h : Denotes s n) :
    IdsRight names s n ↔ Survives n := by
  rw [← convertId_eq_iff, IdsRight, userIdFromName, groupIdFromName,
    idFromName_of_denotes names.getpwnam h, idFromName_of_denotes names.getgrnam h]
  constructor
  · exact fun hright hno => hright _ hno (.inl rfl)
  · rintro hright id hno (rfl | rfl)
    · exact hright hno
    · exact hright hno

theorem storePerms_fields (ace : AccessControlEntry) (perms : Option (List UInt8)) :
    (storePerms ace perms).1.tag = ace.tag ∧ (storePerms ace perms).1.qual = ace.qual := by
  cases perms <;> exact ⟨rfl, rfl⟩

/-- The ID of an entry that is accepted. -/
theorem qual_of_accepted {names : Names} {permsReqd : Bool} {ace : AccessControlEntry}
    {piece qualifier : List UInt8} {n : ℤ} (haccepted : Accepted names permsReqd piece)
    (hqualifier : HasQualifier piece qualifier) (hn : Denotes qualifier n)
    (htag : (readEntry names permsReqd ace piece).1.tag = .ACL_USER ∨
      (readEntry names permsReqd ace piece).1.tag = .ACL_GROUP) :
    (readEntry names permsReqd ace piece).1.qual = convertId n ∧ convertId n ≠ noId := by
  have hmessage := haccepted ace
  obtain ⟨tag, more, hread⟩ : ∃ tag more, readEntry names permsReqd ace piece =
      readFields names permsReqd ace tag qualifier more := by
    obtain ⟨tag, hcolon, hqual, rfl | ⟨more, rfl⟩⟩ := hqualifier
    · exact ⟨tag, _, readEntry_one hcolon hqual⟩
    · exact ⟨tag, _, readEntry_two hcolon hqual more⟩
  rw [hread] at hmessage htag ⊢
  obtain ⟨-, t, -, hstored, hfields⟩ := readFields_accepted hmessage
  obtain ⟨-, id, hperms, hid⟩ := storeQual_accepted hstored
  rw [hfields, hperms, (storePerms_fields _ _).1] at htag
  rw [hfields, hperms, (storePerms_fields _ _).2]
  rcases htag with htag | htag
  · dsimp only at htag ⊢
    rw [htag] at hid
    simp only [qualifierId, userIdFromName, idFromName_of_denotes names.getpwnam hn] at hid
    exact ⟨hid.1, hid.1 ▸ hid.2⟩
  · dsimp only at htag ⊢
    rw [htag] at hid
    simp only [qualifierId, groupIdFromName, idFromName_of_denotes names.getgrnam hn] at hid
    exact ⟨hid.1, hid.1 ▸ hid.2⟩

/-- **Which numeric IDs are mangled**: a number is the ID that comes of it, if any does, exactly when
it fits a `uid_t` or its low half, once it has been saturated to a `long`, is that of -1; and the
entries of a list that is accepted have no other IDs. -/
theorem numericIds_iff (names : Names) :
    (∀ (s : List UInt8) (n : ℤ), Denotes s n → (IdsRight names s n ↔ Survives n)) ∧
      ∀ (s : CStr) (permsReqd : Bool) (aclist : AclList) (post : List UInt8),
        ∃ r, parseACL names (s.val ++ 0 :: post) aclist permsReqd = some r ∧
          (r.ret ≠ -1 → ∀ (k : ℕ) (piece qualifier : List UInt8) (n : ℤ),
            (s.val.splitOn comma)[k]? = some piece → HasQualifier piece qualifier →
            Denotes qualifier n → (r.aclist k).tag = .ACL_USER ∨ (r.aclist k).tag = .ACL_GROUP →
            (((r.aclist k).qual.toNat : ℤ) = n ↔ Survives n)) := by
  refine ⟨fun s n h => idsRight_iff names h, ?_⟩
  intro s permsReqd aclist post
  obtain ⟨r, hr, hread⟩ := @parseACL_eq names permsReqd _ s.property post aclist
  refine ⟨r, hr, ?_⟩
  intro hret k piece qualifier n hk hqualifier hn htag
  have hret' : (readEntries names permsReqd 0 aclist (s.val.splitOn comma)).1 ≠ -1 := by
    rw [← hread]
    exact hret
  obtain ⟨hlen, haccepted⟩ := readEntries_accepted (Nat.zero_le _) hret'
  have hstored := (readEntries_ok aclist haccepted hlen).2 k piece hk
  rw [Nat.zero_add, ← hread] at hstored
  dsimp only at hstored
  rw [hstored] at htag ⊢
  obtain ⟨hqual, hno⟩ := qual_of_accepted (haccepted piece (List.mem_of_getElem? hk)) hqualifier hn htag
  rw [hqual, ← convertId_eq_iff]
  exact ⟨fun h _ => h, fun h => h hno⟩

/-- 2^32 is the ID 0. -/
theorem numericIds_mangled : ¬∀ (names : Names) (s : List UInt8) (n : ℤ), Denotes s n →
    IdsRight names s n := by
  intro hall
  have hright := hall ⟨fun _ => none, fun _ => none⟩ _ _ (denotes_decimal 4294967296)
  rw [idsRight_iff _ (denotes_decimal 4294967296)] at hright
  exact absurd hright (by decide)

end Tlpi.AclEntries
