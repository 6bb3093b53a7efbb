/-
`cgroups/view_v2_cgroups.go`: the wrapping of text that is displayed in colour.

This `wrapText()` puts a prefix in front of the first line and as many blanks in front of the others,
and it counts displayed characters, the sequences that set a colour left out. The prefix is counted
twice on the first line: `column` starts behind it, and `displayWidth` has become smaller by its
length. So the first line is full `len(prefix)` columns too early, which makes a difference if a word
would have fitted in these columns (`wrapsWell_iff_first`).

The lines are the greedy division of the words of `Tlpi.Filling`, with a limit for the first line and
another one for the rest (`wrapText_eq`). What is displayed of a line is at most what is counted word
by word, and the same if each sequence ends in the word in which it begins.
-/
import Tlpi.CString
import Tlpi.Filling
import Tlpi.WrapText

set_option autoImplicit false

namespace Tlpi.ViewV2Cgroups

open Tlpi.CString Tlpi.Filling Tlpi.WrapText

/-! ## 1. `displayLength()` -/

abbrev ESC : UInt8 := 0x1b

/-- `m`, the end of a colour sequence. -/
abbrev endColor : UInt8 := 0x6d

/-- What `re.ReplaceAllString(word, "")` leaves for the expression `ESC[^m]*m`; `inside` is whether
the scan is inside a match. An `ESC` begins one if there is an `m` behind it. -/
def strip : Bool → Bytes → Bytes
  | _, [] => []
  | true, b :: s => if b = endColor then strip false s else strip true s
  | false, b :: s => if b = ESC ∧ endColor ∈ s then strip true s else b :: strip false s

def displayLength (word : Bytes) : ℕ := (strip false word).length

/-! ## 2. `wrapText()` -/

/-- The body of the loop. -/
def wrapWord (displayWidth : ℤ) (indent : Bytes) (w : Wrapping) (word : Bytes) : Wrapping :=
  let wordLen : ℤ := displayLength word
  if w.column + wordLen + 1 > displayWidth then
    ⟨w.result ++ newline :: (indent ++ word), wordLen⟩
  else ⟨w.result ++ blank :: word, w.column + (1 + wordLen)⟩

def wrapText (text pre : Bytes) (displayWidth : ℤ) (indent : Bytes) : Bytes :=
  match fields text with
  | [] => []
  | word :: words =>
    let start : Wrapping := ⟨indent ++ pre ++ word, pre.length + displayLength word⟩
    let displayWidth := displayWidth - pre.length
    let indent := indent ++ List.replicate pre.length blank
    (words.foldl (wrapWord displayWidth indent) start).result

/-! ## 3. What it is for -/

/-- What is in front of the words of a line, without the indent. -/
def lead (pre : Bytes) (i : ℕ) : Bytes := if i = 0 then pre else List.replicate pre.length blank

/-- The lines of the result, without the indent and what is in front of the words. -/
def bodies (pre indent result : Bytes) : List Bytes :=
  (result.splitOn newline).map fun line => line.drop (indent.length + pre.length)

/-- What the comment on `wrapText()` asks for, for a text with words. -/
structure WrapsWell (text pre : Bytes) (displayWidth : ℤ) (indent result : Bytes) : Prop where
  leads : result.splitOn newline =
    (bodies pre indent result).mapIdx fun i body => indent ++ lead pre i ++ body
  words : ((bodies pre indent result).map fields).flatten = fields text
  fits : ∀ i body, (bodies pre indent result)[i]? = some body →
    displayLength (lead pre i ++ body) ≤ displayWidth ∨ (fields body).length = 1
  /-- The first word of a line would not have fitted on the line before. -/
  late : ∀ i body next word, (bodies pre indent result)[i]? = some body →
    (bodies pre indent result)[i + 1]? = some next → (fields next).head? = some word →
    displayWidth < displayLength (lead pre i ++ (body ++ blank :: word))

/-- A text without words is wrapped to nothing, which has no lines. -/
def Wraps (text pre : Bytes) (displayWidth : ℤ) (indent result : Bytes) : Prop :=
  if fields text = [] then result = [] else WrapsWell text pre displayWidth indent result

/-- How many columns there are for words on a line, as they are counted in the loop. -/
def countedLimit (pre : Bytes) (displayWidth : ℤ) (i : ℕ) : ℤ :=
  if i = 0 then displayWidth - 2 * pre.length else displayWidth - pre.length

/-- Wherever the words are divided into lines that are full as they are counted, they are full as
they are displayed. -/
def LateEverywhere (pre : Bytes) (displayWidth : ℤ) (words : List Bytes) : Prop :=
  ∀ lines, Filled displayLength (countedLimit pre displayWidth) 0 words lines →
    ∀ i line next word, lines[i]? = some line → lines[i + 1]? = some next →
      next.head? = some word →
      displayWidth < displayLength (lead pre i ++ (joined line ++ blank :: word))

/-- No beginning of the words fits behind the prefix, but not behind a prefix of twice its length. -/
def LateOnFirst (pre : Bytes) (displayWidth : ℤ) (words : List Bytes) : Prop :=
  ∀ k, 2 ≤ k → k ≤ words.length →
    ¬(displayWidth - 2 * pre.length < columns displayLength (words.take k) ∧
      columns displayLength (words.take k) ≤ displayWidth - pre.length)

/-- No colour sequence that begins in the text goes on behind it. -/
def Complete (s : Bytes) : Prop := ESC ∉ strip false s

/-! ## 4. What is displayed -/

theorem length_strip_true_le (s : Bytes) : (strip true s).length ≤ (strip false s).length := by
  induction s with
  | nil => exact le_rfl
  | cons b s ih =>
    rw [strip, strip]
    by_cases hm : b = endColor
    · rw [if_pos hm, if_neg (by rintro ⟨rfl, -⟩; exact absurd hm (by decide)), List.length_cons]
      exact Nat.le_succ _
    · rw [if_neg hm]
      split
      · exact le_rfl
      · rw [List.length_cons]
        exact ih.trans (Nat.le_succ _)

/-- What is displayed of two texts together is at most what is displayed of each. -/
theorem length_strip_append_le (inside : Bool) (s t : Bytes) :
    (strip inside (s ++ t)).length ≤ (strip inside s).length + displayLength t := by
  induction s generalizing inside with
  | nil =>
    rw [List.nil_append]
    cases inside with
    | false => exact Nat.le_add_left _ _
    | true => exact (length_strip_true_le t).trans (Nat.le_add_left _ _)
  | cons b s ih =>
    rw [List.cons_append]
    cases inside with
    | true =>
      rw [strip, strip]
      split
      · exact ih false
      · exact ih true
    | false =>
      rw [strip, strip]
      by_cases hboth : b = ESC ∧ endColor ∈ s
      · rw [if_pos hboth, if_pos ⟨hboth.1, List.mem_append_left _ hboth.2⟩]
        exact ih true
      · rw [if_neg hboth, List.length_cons]
        split
        · -- the sequence ends in the second text
          have htrue := ih true
          have hle := length_strip_true_le s
          omega
        · have hfalse := ih false
          rw [List.length_cons]
          omega

theorem displayLength_append_le (s t : Bytes) :
    displayLength (s ++ t) ≤ displayLength s + displayLength t := length_strip_append_le false s t

theorem displayLength_le_length (s : Bytes) : displayLength s ≤ s.length := by
  induction s with
  | nil => exact le_rfl
  | cons b s ih =>
    have hcons := displayLength_append_le [b] s
    have hone : displayLength [b] = 1 := by
      rw [displayLength, strip, if_neg (fun h => nomatch h.2)]
      rfl
    rw [List.length_cons]
    rw [List.singleton_append] at hcons
    omega

/-- Where no sequence goes on, texts are displayed each for itself. -/
theorem strip_append {inside : Bool} {s : Bytes} (hs : ESC ∉ strip inside s)
    (hend : inside = true → endColor ∈ s) (t : Bytes) :
    strip inside (s ++ t) = strip inside s ++ strip false t := by
  induction s generalizing inside with
  | nil =>
    cases inside with
    | false => rfl
    | true => exact nomatch hend rfl
  | cons b s ih =>
    rw [List.cons_append]
    cases inside with
    | true =>
      rw [strip] at hs
      rw [strip, strip]
      by_cases hm : b = endColor
      · rw [if_pos hm] at hs ⊢
        rw [if_pos hm]
        exact ih hs nofun
      · rw [if_neg hm] at hs ⊢
        rw [if_neg hm]
        exact ih hs fun _ => (List.mem_cons.mp (hend rfl)).resolve_left (Ne.symm hm)
    | false =>
      rw [strip] at hs
      rw [strip, strip]
      by_cases hboth : b = ESC ∧ endColor ∈ s
      · rw [if_pos hboth] at hs ⊢
        rw [if_pos ⟨hboth.1, List.mem_append_left _ hboth.2⟩]
        exact ih hs fun _ => hboth.2
      · rw [if_neg hboth, List.mem_cons, not_or] at hs
        rw [if_neg hboth, if_neg (fun h => hs.1 h.1.symm), ih hs.2 nofun, List.cons_append]

theorem displayLength_append {s : Bytes} (hs : Complete s) (t : Bytes) :
    displayLength (s ++ t) = displayLength s + displayLength t := by
  rw [displayLength, strip_append hs nofun, List.length_append]
  rfl

theorem strip_of_notMem {s : Bytes} (hs : ESC ∉ s) : strip false s = s := by
  induction s with
  | nil => rfl
  | cons b s ih =>
    rw [List.mem_cons, not_or] at hs
    rw [strip, if_neg (fun h => hs.1 h.1.symm), ih hs.2]

theorem complete_of_notMem {s : Bytes} (hs : ESC ∉ s) : Complete s := by
  rw [Complete, strip_of_notMem hs]
  exact hs

theorem displayLength_of_notMem {s : Bytes} (hs : ESC ∉ s) : displayLength s = s.length := by
  rw [displayLength, strip_of_notMem hs]

theorem displayLength_blank_cons (t : Bytes) : displayLength (blank :: t) = 1 + displayLength t := by
  have happend := displayLength_append (complete_of_notMem (show ESC ∉ [blank] by decide)) t
  rwa [List.singleton_append] at happend

/-- What is displayed of a line is at most what is counted. -/
theorem displayLength_joined_le (line : List Bytes) :
    displayLength (joined line) ≤ columns displayLength line := by
  induction line with
  | nil => exact le_rfl
  | cons word line ih =>
    by_cases hnil : line = []
    · rw [hnil, joined_singleton, columns_singleton]
    · have hword := displayLength_append_le word (blank :: joined line)
      rw [displayLength_blank_cons] at hword
      rw [joined, List.intercalate_cons_of_ne_nil hnil, columns_cons word hnil, List.append_assoc,
        List.singleton_append]
      rw [joined] at hword ih
      omega

theorem displayLength_joined {line : List Bytes} (h : ∀ word ∈ line, Complete word) :
    displayLength (joined line) = columns displayLength line := by
  induction line with
  | nil => rfl
  | cons word line ih =>
    have hline := ih fun w hw => h w (List.mem_cons_of_mem _ hw)
    by_cases hnil : line = []
    · rw [hnil, joined_singleton, columns_singleton]
    · rw [joined] at hline
      rw [joined, List.intercalate_cons_of_ne_nil hnil, columns_cons word hnil, List.append_assoc,
        List.singleton_append, displayLength_append (h word List.mem_cons_self),
        displayLength_blank_cons, hline]
      omega

theorem length_lead (pre : Bytes) (i : ℕ) : (lead pre i).length = pre.length := by
  rw [lead]
  split
  · rfl
  · exact List.length_replicate

/-! ## 5. Words -/

/-- A word that is a field of itself: no white space begins anywhere in it. -/
def Solid (word : Bytes) : Prop := ∀ s, s ≠ [] → s <:+ word → leadingSpace s = none

/-- White space that begins in a text begins there too where more follows. -/
theorem leadingSpace_of_append {s t : Bytes} (h : leadingSpace (s ++ t) = none) :
    leadingSpace s = none := by
  rw [leadingSpace, List.find?_eq_none] at h ⊢
  intro sp hsp hprefix
  rw [List.isPrefixOf_iff_prefix] at hprefix
  have hlonger := hprefix.trans (List.prefix_append s t)
  exact h sp hsp (List.isPrefixOf_iff_prefix.mpr hlonger)

/-- No white space goes over a blank. -/
theorem leadingSpace_append_blank {s : Bytes} (hne : s ≠ []) (h : leadingSpace s = none) (t : Bytes) :
    leadingSpace (s ++ blank :: t) = none := by
  have hspaces : ∀ sp ∈ spaces, blank ∉ sp.tail := by decide
  rw [leadingSpace, List.find?_eq_none] at h ⊢
  intro sp hsp hprefix
  rw [List.isPrefixOf_iff_prefix] at hprefix
  rcases List.prefix_or_prefix_of_prefix hprefix (List.prefix_append s (blank :: t)) with hle | hle
  · exact h sp hsp (List.isPrefixOf_iff_prefix.mpr hle)
  · -- the blank would be in the white space, behind its first byte
    obtain ⟨rest, rfl⟩ := hle
    rw [List.prefix_append_right_inj] at hprefix
    obtain ⟨b, s', rfl⟩ := List.exists_cons_of_ne_nil hne
    cases rest with
    | nil =>
      rw [List.append_nil] at hsp
      exact h _ hsp (List.isPrefixOf_iff_prefix.mpr (List.prefix_refl _))
    | cons c rest =>
      obtain rfl := (List.cons_prefix_cons.mp hprefix).1
      refine hspaces _ hsp ?_
      rw [List.cons_append, List.tail_cons]
      exact List.mem_append_right _ List.mem_cons_self

theorem leadingSpace_blank (t : Bytes) : leadingSpace (blank :: t) = some [blank] := rfl

theorem solid_of_mem_flush {word w rest : Bytes}
    (hclean : ∀ s, s ≠ [] → s <:+ word → leadingSpace (s ++ rest) = none) (h : w ∈ flush word) :
    Solid w := by
  rw [flush] at h
  split at h
  · cases h
  · rw [List.mem_singleton.mp h]
    exact fun s hs hsuffix => leadingSpace_of_append (hclean s hs hsuffix)

theorem solid_of_mem_scan : ∀ (rest : Bytes) (skip : ℕ) {word w : Bytes},
    (∀ s, s ≠ [] → s <:+ word → leadingSpace (s ++ rest) = none) → (skip = 0 ∨ word = []) →
      w ∈ scan rest skip word → Solid w := by
  intro rest
  induction rest with
  | nil => exact fun skip word w hclean _ h => solid_of_mem_flush hclean h
  | cons b rest ih =>
    intro skip word w hclean hskip h
    have hnil : ∀ s : Bytes, s ≠ [] → s <:+ [] → leadingSpace (s ++ rest) = none :=
      fun _ hs hsuffix => absurd (List.suffix_nil.mp hsuffix) hs
    cases skip with
    | succ skip =>
      obtain rfl := hskip.resolve_left (Nat.succ_ne_zero _)
      exact ih skip hnil (.inr rfl) h
    | zero =>
      rw [scan] at h
      split at h
      · rename_i hnone
        refine ih 0 ?_ (.inl rfl) h
        intro s hs hsuffix
        -- the end of the longer word is the new byte, or begins in the word before
        rcases List.suffix_concat_iff.mp hsuffix with rfl | ⟨s', rfl, hsuffix'⟩
        · exact absurd rfl hs
        · rw [List.append_assoc, List.singleton_append]
          by_cases hs' : s' = []
          · rw [hs', List.nil_append]
            exact hnone
          · exact hclean s' hs' hsuffix'
      · rcases List.mem_append.mp h with h | h
        · exact solid_of_mem_flush hclean h
        · exact ih _ hnil (.inr rfl) h

theorem solid_of_mem_fields {text w : Bytes} (h : w ∈ fields text) : Solid w :=
  solid_of_mem_scan text 0 (fun _ hs hsuffix => absurd (List.suffix_nil.mp hsuffix) hs) (.inl rfl) h

/-- A text that goes on with a blank, or ends. -/
def Broken (rest : Bytes) : Prop := rest = [] ∨ ∃ t, rest = blank :: t

theorem scan_solid {word rest : Bytes} (hword : Solid word) (hrest : Broken rest) (before : Bytes) :
    scan (word ++ rest) 0 before = scan rest 0 (before ++ word) := by
  induction word generalizing before with
  | nil => rw [List.nil_append, List.append_nil]
  | cons b word ih =>
    have hnone : leadingSpace (b :: (word ++ rest)) = none := by
      have hb := hword (b :: word) (List.cons_ne_nil _ _) List.suffix_rfl
      rcases hrest with rfl | ⟨t, rfl⟩
      · rwa [List.append_nil]
      · exact leadingSpace_append_blank (List.cons_ne_nil _ _) hb t
    rw [List.cons_append, scan]
    simp only [hnone]
    rw [ih fun s hs hsuffix => hword s hs (hsuffix.trans (List.suffix_cons b word)), List.append_assoc,
      List.singleton_append]

theorem flush_of_ne_nil {word : Bytes} (h : word ≠ []) : flush word = [word] := if_neg h

/-- **The words of a line** are the fields of its text. -/
theorem fields_joined {line : List Bytes} (hsolid : ∀ word ∈ line, Solid word)
    (hword : ∀ word ∈ line, IsWord word) : fields (joined line) = line := by
  induction line with
  | nil => rfl
  | cons word line ih =>
    have hline := ih (fun w hw => hsolid w (List.mem_cons_of_mem _ hw))
      fun w hw => hword w (List.mem_cons_of_mem _ hw)
    have hs := hsolid word List.mem_cons_self
    have hne := (hword word List.mem_cons_self).ne_nil
    by_cases hnil : line = []
    · have hscan := scan_solid hs (.inl rfl) []
      rw [List.append_nil, List.nil_append] at hscan
      rw [hnil, joined_singleton, fields, hscan, scan, flush_of_ne_nil hne]
    · rw [joined, List.intercalate_cons_of_ne_nil hnil, List.append_assoc, List.singleton_append,
        fields, scan_solid hs (.inr ⟨_, rfl⟩), scan]
      simp only [leadingSpace_blank, List.nil_append]
      rw [flush_of_ne_nil hne, List.singleton_append]
      exact congrArg (word :: ·) hline

/-! ## 6. The loop -/

/-- What is in front of the words of a line. -/
def leadOf (pre indent : Bytes) (i : ℕ) : Bytes := indent ++ lead pre i

/-- How far the count is behind the prefix on the first line. -/
def countedLead (pre : Bytes) (i : ℕ) : ℕ := if i = 0 then pre.length else 0

theorem countedLimit_eq (pre : Bytes) (displayWidth : ℤ) (i : ℕ) :
    countedLimit pre displayWidth i = displayWidth - pre.length - countedLead pre i := by
  rw [countedLimit, countedLead]
  split <;> push_cast <;> omega

/-- **The loop** makes the lines of the greedy division, from any line of it on. -/
theorem foldl_wrapWord (pre indent : Bytes) (displayWidth : ℤ) (words : List Bytes) :
    ∀ (i : ℕ) {line : List Bytes} (before : Bytes), line ≠ [] →
      (words.foldl (wrapWord (displayWidth - pre.length) (indent ++ List.replicate pre.length blank))
        ⟨before ++ (leadOf pre indent i ++ joined line),
          countedLead pre i + columns displayLength line⟩).result =
      before ++ [newline].intercalate
        ((fill displayLength (countedLimit pre displayWidth) i line words).mapIdx
          fun j l => leadOf pre indent (i + j) ++ joined l) := by
  induction words with
  | nil =>
    intro i line before hne
    rw [fill, List.mapIdx_cons, List.mapIdx_nil, List.intercalate_singleton]
    rfl
  | cons word words ih =>
    intro i line before hne
    have hcost : columns displayLength (line ++ [word]) =
        columns displayLength line + 1 + displayLength word := columns_concat hne word
    have hlimit := countedLimit_eq pre displayWidth i
    rw [List.foldl_cons, wrapWord, fill]
    dsimp only
    by_cases hfits :
        (columns displayLength line : ℤ) + 1 + displayLength word ≤ countedLimit pre displayWidth i
    · rw [if_neg (by omega), if_pos hfits, ← ih i before (List.append_ne_nil_of_left_ne_nil hne _),
        joined_concat hne, hcost]
      have hcolumn : (countedLead pre i : ℤ) + columns displayLength line + (1 + displayLength word) =
          countedLead pre i + ((columns displayLength line + 1 + displayLength word : ℕ) : ℤ) := by
        push_cast
        omega
      rw [hcolumn]
      simp only [List.append_assoc]
    · have hnext := ih (i + 1) (before ++ (leadOf pre indent i ++ joined line) ++ [newline])
        (List.cons_ne_nil word [])
      have hlead : leadOf pre indent (i + 1) = indent ++ List.replicate pre.length blank := by
        rw [leadOf, lead, if_neg (Nat.succ_ne_zero i)]
      have hcount : countedLead pre (i + 1) = 0 := if_neg (Nat.succ_ne_zero i)
      rw [hlead, hcount, joined_singleton, columns_singleton] at hnext
      have hindex : (fun j l => leadOf pre indent (i + 1 + j) ++ joined l) =
          fun j l => leadOf pre indent (i + (j + 1)) ++ joined l := by
        funext j l
        rw [Nat.add_assoc, Nat.add_comm 1]
      have hrest : ((fill displayLength (countedLimit pre displayWidth) (i + 1) [word] words).mapIdx
          fun j l => leadOf pre indent (i + (j + 1)) ++ joined l) ≠ [] := by
        rw [ne_eq, List.mapIdx_eq_nil_iff]
        exact fill_ne_nil (i + 1) [word] words
      rw [hindex, Int.natCast_zero, Int.zero_add] at hnext
      rw [if_pos (by omega), if_neg hfits, List.mapIdx_cons, List.intercalate_cons_of_ne_nil hrest]
      simp only [List.append_assoc, List.singleton_append, Nat.add_zero] at hnext ⊢
      exact hnext

section

variable {text pre indent : Bytes} {displayWidth : ℤ} {lines : List (List Bytes)}

/-- **The result** is the text of the greedy division. -/
theorem wrapText_eq {word : Bytes} {words : List Bytes} (hfields : fields text = word :: words) :
    wrapText text pre displayWidth indent = [newline].intercalate
      ((fill displayLength (countedLimit pre displayWidth) 0 [word] words).mapIdx
        fun i l => leadOf pre indent i ++ joined l) := by
  have hloop := foldl_wrapWord pre indent displayWidth words 0 [] (List.cons_ne_nil word [])
  simp only [Nat.zero_add, List.nil_append, joined_singleton, columns_singleton] at hloop
  rw [wrapText, hfields]
  exact hloop

/-- The words of a division are words of the text. -/
theorem mem_fields_of_filled {limit : ℕ → ℤ} (h : Filled displayLength limit 0 (fields text) lines)
    {line : List Bytes} (hline : line ∈ lines) {word : Bytes} (hword : word ∈ line) :
    word ∈ fields text := h.words ▸ List.mem_flatten_of_mem hline hword

theorem newline_notMem_lead (hpre : newline ∉ pre) (i : ℕ) : newline ∉ lead pre i := by
  rw [lead]
  split
  · exact hpre
  · exact fun h => absurd (List.eq_of_mem_replicate h) (by decide)

/-- The lines of the result. -/
theorem splitOn_wrapText (hfilled : Filled displayLength (countedLimit pre displayWidth) 0
    (fields text) lines) (hne : fields text ≠ []) (hpre : newline ∉ pre) (hindent : newline ∉ indent) :
    (wrapText text pre displayWidth indent).splitOn newline =
      lines.mapIdx fun i l => leadOf pre indent i ++ joined l := by
  obtain ⟨word, words, hfields⟩ := List.exists_cons_of_ne_nil hne
  have hlines := filled_iff.mp (hfields ▸ hfilled)
  rw [wrapText_eq hfields, ← hlines]
  refine List.splitOn_intercalate newline ?_ ?_
  · intro l hl
    obtain ⟨i, hi, rfl⟩ := List.mem_mapIdx.mp hl
    rw [leadOf, List.mem_append, List.mem_append, not_or, not_or]
    refine ⟨⟨hindent, newline_notMem_lead hpre i⟩, newline_not_mem_joined fun w hw => ?_⟩
    exact (isWord_of_mem_fields (mem_fields_of_filled hfilled (List.getElem_mem hi) hw)).newline
  · rw [ne_eq, List.mapIdx_eq_nil_iff, hlines]
    exact fill_ne_nil 0 [word] words

theorem bodies_wrapText (hfilled : Filled displayLength (countedLimit pre displayWidth) 0
    (fields text) lines) (hne : fields text ≠ []) (hpre : newline ∉ pre) (hindent : newline ∉ indent) :
    bodies pre indent (wrapText text pre displayWidth indent) = lines.map joined := by
  rw [bodies, splitOn_wrapText hfilled hne hpre hindent]
  refine List.ext_getElem? fun i => ?_
  rw [List.getElem?_map, List.getElem?_mapIdx, List.getElem?_map, Option.map_map]
  congr 1
  funext l
  have hlen : indent.length + pre.length = (leadOf pre indent i).length := by
    rw [leadOf, List.length_append, length_lead]
  rw [Function.comp_apply, hlen, List.drop_left]

theorem fields_joined_of_filled {limit : ℕ → ℤ}
    (h : Filled displayLength limit 0 (fields text) lines) {line : List Bytes} (hline : line ∈ lines) :
    fields (joined line) = line :=
  fields_joined (fun _ hw => solid_of_mem_fields (mem_fields_of_filled h hline hw))
    fun _ hw => isWord_of_mem_fields (mem_fields_of_filled h hline hw)

theorem map_fields_joined {limit : ℕ → ℤ} (h : Filled displayLength limit 0 (fields text) lines) :
    (lines.map joined).map fields = lines := by
  rw [List.map_map]
  calc lines.map (fields ∘ joined) = lines.map id :=
        List.map_congr_left fun line hline => fields_joined_of_filled h hline
    _ = lines := List.map_id lines

/-- What is displayed of a line is within the width, unless the line is a single word. -/
theorem displayLength_le {line : List Bytes} {i : ℕ}
    (h : (columns displayLength line : ℤ) ≤ countedLimit pre displayWidth i) :
    (displayLength (lead pre i ++ joined line) : ℤ) ≤ displayWidth := by
  have happend := displayLength_append_le (lead pre i) (joined line)
  have hlead := displayLength_le_length (lead pre i)
  have hline := displayLength_joined_le line
  have hlimit := countedLimit_eq pre displayWidth i
  rw [length_lead] at hlead
  omega

/-- **All but the last of what is asked for** holds, and the last for the lines of the division. -/
theorem wrapsWell_iff (hfilled : Filled displayLength (countedLimit pre displayWidth) 0
    (fields text) lines) (hne : fields text ≠ []) (hpre : newline ∉ pre) (hindent : newline ∉ indent) :
    WrapsWell text pre displayWidth indent (wrapText text pre displayWidth indent) ↔
      ∀ i line next word, lines[i]? = some line → lines[i + 1]? = some next →
        next.head? = some word →
        displayWidth < displayLength (lead pre i ++ (joined line ++ blank :: word)) := by
  have hbodies := bodies_wrapText hfilled hne hpre hindent
  have hget : ∀ i line, lines[i]? = some line → (lines.map joined)[i]? = some (joined line) :=
    fun i line hline => by rw [List.getElem?_map, hline, Option.map_some]
  constructor
  · intro h i line next word hline hnext hword
    refine h.late i (joined line) (joined next) word ?_ ?_ ?_
    · rw [hbodies, hget i line hline]
    · rw [hbodies, hget (i + 1) next hnext]
    · rw [fields_joined_of_filled hfilled (List.mem_of_getElem? hnext), hword]
  · intro hlate
    refine ⟨?_, ?_, ?_, ?_⟩
    · rw [hbodies, splitOn_wrapText hfilled hne hpre hindent]
      refine List.ext_getElem? fun i => ?_
      rw [List.getElem?_mapIdx, List.getElem?_mapIdx, List.getElem?_map, Option.map_map]
      rfl
    · rw [hbodies, map_fields_joined hfilled, hfilled.words]
    · intro i body hbody
      rw [hbodies, List.getElem?_map] at hbody
      obtain ⟨line, hline, rfl⟩ := Option.map_eq_some_iff.mp hbody
      have hfits := hfilled.fits i line hline
      rw [Nat.zero_add] at hfits
      rw [fields_joined_of_filled hfilled (List.mem_of_getElem? hline)]
      exact hfits.imp_left displayLength_le
    · intro i body next word hbody hnext hword
      rw [hbodies, List.getElem?_map] at hbody hnext
      obtain ⟨line, hline, rfl⟩ := Option.map_eq_some_iff.mp hbody
      obtain ⟨nextLine, hnextLine, rfl⟩ := Option.map_eq_some_iff.mp hnext
      rw [fields_joined_of_filled hfilled (List.mem_of_getElem? hnextLine)] at hword
      exact hlate i line nextLine word hline hnextLine hword

/-- What is displayed of a line with one more word, where no sequence goes on. -/
theorem displayLength_line (hescape : ESC ∉ pre) (i : ℕ) {line : List Bytes} (hne : line ≠ [])
    {word : Bytes} (h : ∀ w ∈ line ++ [word], Complete w) :
    displayLength (lead pre i ++ (joined line ++ blank :: word)) =
      pre.length + columns displayLength (line ++ [word]) := by
  have hlead : ESC ∉ lead pre i := by
    rw [lead]
    split
    · exact hescape
    · exact fun hmem => absurd (List.eq_of_mem_replicate hmem) (by decide)
  rw [displayLength_append (complete_of_notMem hlead), displayLength_of_notMem hlead, length_lead,
    ← joined_concat hne, displayLength_joined h]

/-- **It is the first line only**, where no sequence goes on behind its word. -/
theorem lateEverywhere_iff (hescape : ESC ∉ pre) {words : List Bytes} (hne : words ≠ [])
    (hcomplete : ∀ word ∈ words, Complete word) :
    LateEverywhere pre displayWidth words ↔ LateOnFirst pre displayWidth words := by
  have hline : ∀ {lines : List (List Bytes)},
      Filled displayLength (countedLimit pre displayWidth) 0 words lines →
      ∀ i line next word, lines[i]? = some line → lines[i + 1]? = some next →
        next.head? = some word →
        displayLength (lead pre i ++ (joined line ++ blank :: word)) =
          pre.length + columns displayLength (line ++ [word]) := by
    intro lines hfilled i line next word hline hnext hword
    have hmem := List.mem_of_getElem? hline
    refine displayLength_line hescape i (hfilled.ne_nil line hmem) fun w hw => hcomplete w ?_
    rw [← hfilled.words]
    rcases List.mem_append.mp hw with hw | hw
    · exact List.mem_flatten_of_mem hmem hw
    · rw [List.mem_singleton.mp hw]
      exact List.mem_flatten_of_mem (List.mem_of_getElem? hnext) (List.mem_of_head? hword)
  constructor
  · rintro hlate k hk hlen ⟨hover, hfits⟩
    obtain ⟨lines, hfilled⟩ :
        ∃ lines, Filled displayLength (countedLimit pre displayWidth) 0 words lines :=
      exists_filled hne
    obtain ⟨line, next, word, hzero, hone, hword, htake, hshort⟩ :=
      hfilled.exists_next hk hlen hover
    have hwide := hlate lines hfilled 0 line next word hzero hone hword
    have hle : columns displayLength (words.take (line.length + 1)) ≤
        columns displayLength (words.take k) := columns_take_le hshort
    rw [hline hfilled 0 line next word hzero hone hword, ← htake] at hwide
    push_cast at hwide
    omega
  · intro hfirst lines hfilled i line next word hget hnext hword
    have hne' := hfilled.ne_nil line (List.mem_of_getElem? hget)
    have hover := hfilled.full i line next word hget hnext hword
    have hcost : columns displayLength (line ++ [word]) =
        columns displayLength line + 1 + displayLength word := columns_concat hne' word
    rw [hline hfilled i line next word hget hnext hword]
    cases i with
    | zero =>
      obtain ⟨htake, hlen⟩ := hfilled.take hget hnext hword
      have hpos := List.length_pos_of_ne_nil hne'
      have hnot := hfirst (line.length + 1) (by omega) hlen
      rw [htake] at hnot
      rw [Nat.zero_add, countedLimit, if_pos rfl] at hover
      push_cast
      omega
    | succ i =>
      rw [Nat.zero_add, countedLimit, if_neg (Nat.succ_ne_zero i)] at hover
      push_cast
      omega

end

/-- Wherever the words are divided as they are counted: there is one such division. -/
theorem wraps_iff_lateEverywhere (text pre : Bytes) (displayWidth : ℤ) (indent : Bytes)
    (hpre : newline ∉ pre) (hindent : newline ∉ indent) :
    Wraps text pre displayWidth indent (wrapText text pre displayWidth indent) ↔
      LateEverywhere pre displayWidth (fields text) := by
  rw [Wraps]
  by_cases hnil : fields text = []
  · rw [if_pos hnil]
    refine iff_of_true (by rw [wrapText, hnil]) ?_
    intro lines hfilled i line next word hline
    have hmem := List.mem_of_getElem? hline
    have hempty := List.flatten_eq_nil_iff.mp (hfilled.words.trans hnil) line hmem
    exact absurd hempty (hfilled.ne_nil line hmem)
  · rw [if_neg hnil]
    constructor
    · exact fun h lines hfilled => (wrapsWell_iff hfilled hnil hpre hindent).mp h
    · intro h
      obtain ⟨lines, hfilled⟩ :
          ∃ lines, Filled displayLength (countedLimit pre displayWidth) 0 (fields text) lines :=
        exists_filled hnil
      exact (wrapsWell_iff hfilled hnil hpre hindent).mpr (h lines hfilled)

/-- **When `wrapText()` does what its comment says**: exactly if no word that is counted as too long
for a line would have fitted on it as it is displayed; where each colour sequence ends in the word in
which it begins, exactly if no beginning of the words fits on the first line but would not fit if the
prefix stood there twice. -/
theorem wrapText_wraps_iff (text pre : Bytes) (displayWidth : ℤ) (indent : Bytes)
    (hpre : newline ∉ pre) (hindent : newline ∉ indent) :
    (Wraps text pre displayWidth indent (wrapText text pre displayWidth indent) ↔
      LateEverywhere pre displayWidth (fields text)) ∧
    (ESC ∉ pre → (∀ word ∈ fields text, Complete word) →
      (Wraps text pre displayWidth indent (wrapText text pre displayWidth indent) ↔
        LateOnFirst pre displayWidth (fields text))) := by
  have hwraps := wraps_iff_lateEverywhere text pre displayWidth indent hpre hindent
  refine ⟨hwraps, fun hescape hcomplete => hwraps.trans ?_⟩
  by_cases hnil : fields text = []
  · have hlate : LateOnFirst pre displayWidth [] := by
      intro k hk hlen
      rw [List.length_nil] at hlen
      omega
    rw [hnil] at hwraps ⊢
    refine iff_of_true (hwraps.mp ?_) hlate
    rw [Wraps, if_pos hnil, wrapText, hnil]
  · exact lateEverywhere_iff hescape hnil hcomplete

/-- "aa bb" behind "PIDs: {", at a width at which it fits twice over. -/
theorem wrapText_wraps_iff_wide :
    Wraps [97, 97, 32, 98, 98] [80, 73, 68, 115, 58, 32, 123] 24 []
        (wrapText [97, 97, 32, 98, 98] [80, 73, 68, 115, 58, 32, 123] 24 []) ↔
      LateOnFirst [80, 73, 68, 115, 58, 32, 123] 24 [[97, 97], [98, 98]] :=
  (wrapText_wraps_iff [97, 97, 32, 98, 98] [80, 73, 68, 115, 58, 32, 123] 24 [] (by decide)
    (by decide)).2 (by decide) (by unfold Complete; decide)

/-- "PIDs: {aa bb" has 12 characters, and is broken at a width of 15. -/
theorem wrapText_breaks_early :
    newline ∉ ([80, 73, 68, 115, 58, 32, 123] : Bytes) ∧ ESC ∉ ([80, 73, 68, 115, 58, 32, 123] : Bytes) ∧
      ¬Wraps [97, 97, 32, 98, 98] [80, 73, 68, 115, 58, 32, 123] 15 []
        (wrapText [97, 97, 32, 98, 98] [80, 73, 68, 115, 58, 32, 123] 15 []) := by
  refine ⟨by decide, by decide, fun h => ?_⟩
  rw [Wraps, if_neg (by decide)] at h
  have hlate := h.late 0 [97, 97] [98, 98] [98, 98] (by decide) (by decide) (by decide)
  exact absurd hlate (by decide)

end Tlpi.ViewV2Cgroups
