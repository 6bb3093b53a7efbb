/-
`namespaces/namespaces_of.go`: the wrapping of text.

`wrapText()` goes through the words of a text once, with the length of the line that it is at in
`column`. The lines are not in any variable; `Wrapped` says what they are, and the invariant of the
loop is that the text so far is the lines so far, with the last of them `column` bytes long.

A string is its bytes, as in Go. `strings.Fields()` splits at white space: a table of the UTF-8
encodings of the characters for which `unicode.IsSpace()` holds. None of them begins with a byte
that can stand inside a character, so to look at every byte finds the same as to look at every
character, also where the bytes are no valid UTF-8.
-/
import Mathlib.Data.List.Chain
import Mathlib.Tactic.Common
import Tlpi.CString

set_option autoImplicit false

namespace Tlpi.WrapText

abbrev Bytes := List UInt8

/-! ## 1. `strings.Fields()` -/

/-- The encodings of the white space characters. -/
def spaces : List Bytes :=
  [[0x09], [0x0a], [0x0b], [0x0c], [0x0d], [0x20],
    -- U+0085, U+00A0, U+1680
    [0xc2, 0x85], [0xc2, 0xa0], [0xe1, 0x9a, 0x80],
    -- U+2000 to U+200A
    [0xe2, 0x80, 0x80], [0xe2, 0x80, 0x81], [0xe2, 0x80, 0x82], [0xe2, 0x80, 0x83],
    [0xe2, 0x80, 0x84], [0xe2, 0x80, 0x85], [0xe2, 0x80, 0x86], [0xe2, 0x80, 0x87],
    [0xe2, 0x80, 0x88], [0xe2, 0x80, 0x89], [0xe2, 0x80, 0x8a],
    -- U+2028, U+2029, U+202F, U+205F, U+3000
    [0xe2, 0x80, 0xa8], [0xe2, 0x80, 0xa9], [0xe2, 0x80, 0xaf], [0xe2, 0x81, 0x9f],
    [0xe3, 0x80, 0x80]]

/-- The white space character that a string begins with. -/
def leadingSpace (s : Bytes) : Option Bytes := spaces.find? fun sp => sp.isPrefixOf s

/-- A word that has ended. -/
def flush (word : Bytes) : List Bytes := if word = [] then [] else [word]

/-- The scan: `skip` bytes of a white space character are left, and `word` is the word so far. -/
def scan : Bytes → ℕ → Bytes → List Bytes
  | [], _, word => flush word
  | _ :: s, skip + 1, word => scan s skip word
  | b :: s, 0, word =>
    match leadingSpace (b :: s) with
    | none => scan s 0 (word ++ [b])
    | some sp => flush word ++ scan s (sp.length - 1) []

def fields (s : Bytes) : List Bytes := scan s 0 []

/-! ## 2. `wrapText()` -/

abbrev newline : UInt8 := 0x0a
abbrev blank : UInt8 := 0x20

/-- The text so far, and the length of its last line without the indent. -/
structure Wrapping where
  result : Bytes
  column : ℤ
deriving Repr, DecidableEq

/-- The body of the loop. -/
def wrapWord (width : ℤ) (indent : Bytes) (w : Wrapping) (word : Bytes) : Wrapping :=
  if w.column + word.length + 1 > width then
    ⟨w.result ++ newline :: (indent ++ word), word.length⟩
  else ⟨w.result ++ blank :: word, w.column + (1 + word.length)⟩

def wrapText (text : Bytes) (width : ℤ) (indent : Bytes) : Bytes :=
  match fields text with
  | [] => []
  | word :: words => (words.foldl (wrapWord width indent) ⟨indent ++ word, word.length⟩).result

/-! ## 3. Words -/

/-- A word has bytes, and none of them is white space of its own. -/
structure IsWord (word : Bytes) : Prop where
  ne_nil : word ≠ []
  newline : newline ∉ word
  blank : blank ∉ word

/-- A byte at which no white space begins. -/
theorem of_leadingSpace_none {b : UInt8} {s : Bytes} (h : leadingSpace (b :: s) = none) :
    b ≠ newline ∧ b ≠ blank := by
  have hnone := List.find?_eq_none.mp h
  constructor
  · rintro rfl
    exact hnone [0x0a] (by decide) (by simp [List.isPrefixOf])
  · rintro rfl
    exact hnone [0x20] (by decide) (by simp [List.isPrefixOf])

theorem isWord_of_mem_flush {word w : Bytes} (hnew : newline ∉ word) (hblank : blank ∉ word)
    (h : w ∈ flush word) : IsWord w := by
  rw [flush] at h
  split at h
  · exact nomatch h
  · rename_i hne
    rw [List.mem_singleton.mp h]
    exact ⟨hne, hnew, hblank⟩

theorem isWord_of_mem_scan : ∀ (s : Bytes) (skip : ℕ) {word w : Bytes}, newline ∉ word →
    blank ∉ word → w ∈ scan s skip word → IsWord w := by
  intro s
  induction s with
  | nil => exact fun skip word w hnew hblank h => isWord_of_mem_flush hnew hblank h
  | cons b s ih =>
    intro skip word w hnew hblank h
    cases skip with
    | succ skip => exact ih skip hnew hblank h
    | zero =>
      rw [scan] at h
      split at h
      · rename_i hnone
        obtain ⟨hb, hb'⟩ := of_leadingSpace_none hnone
        refine ih 0 ?_ ?_ h
        · simpa [hnew] using hb.symm
        · simpa [hblank] using hb'.symm
      · rcases List.mem_append.mp h with h | h
        · exact isWord_of_mem_flush hnew hblank h
        · exact ih _ List.not_mem_nil List.not_mem_nil h

theorem isWord_of_mem_fields {text w : Bytes} (h : w ∈ fields text) : IsWord w :=
  isWord_of_mem_scan text 0 List.not_mem_nil List.not_mem_nil h

/-! ## 4. Lines -/

/-- Words joined by single blanks. -/
def joined (line : List Bytes) : Bytes := [blank].intercalate line

/-- **The words, wrapped**: lines of words, each as full as it can be. -/
structure Wrapped (words : List Bytes) (width : ℤ) (lines : List (List Bytes)) : Prop where
  ne_nil : ∀ line ∈ lines, line ≠ []
  words : lines.flatten = words
  fits : ∀ line ∈ lines, (joined line).length ≤ width ∨ line.length = 1
  /-- The first word of a line would not have fitted on the line before. -/
  greedy : lines.IsChain fun line next =>
    ∀ word, next.head? = some word → width < (joined line).length + 1 + word.length

theorem intercalate_append_last {sep x y : Bytes} (ls : List Bytes) :
    sep.intercalate (ls ++ [x]) ++ y = sep.intercalate (ls ++ [x ++ y]) := by
  induction ls with
  | nil => simp only [List.nil_append, List.intercalate_singleton]
  | cons l ls ih =>
    have hne : ∀ z : Bytes, ls ++ [z] ≠ [] := fun z => List.append_ne_nil_of_right_ne_nil _ (by simp)
    rw [List.cons_append, List.cons_append, List.intercalate_cons_of_ne_nil (hne _),
      List.intercalate_cons_of_ne_nil (hne _), List.append_assoc, ih]

theorem intercalate_concat {sep x y : Bytes} (ls : List Bytes) :
    sep.intercalate (ls ++ [x] ++ [y]) = sep.intercalate (ls ++ [x]) ++ (sep ++ y) := by
  induction ls with
  | nil => simp
  | cons l ls ih =>
    have hne : ∀ z : Bytes, ls ++ [z] ≠ [] := fun z => List.append_ne_nil_of_right_ne_nil _ (by simp)
    rw [List.cons_append, List.cons_append, List.intercalate_cons_of_ne_nil (hne x),
      List.intercalate_cons_of_ne_nil (List.append_ne_nil_of_left_ne_nil (hne x) _), ih]
    simp only [List.append_assoc]

theorem joined_singleton (word : Bytes) : joined [word] = word := List.intercalate_singleton

theorem joined_concat {line : List Bytes} (h : line ≠ []) (word : Bytes) :
    joined (line ++ [word]) = joined line ++ blank :: word := by
  obtain ⟨front, last, rfl⟩ := List.eq_nil_or_concat line |>.resolve_left h
  rw [List.concat_eq_append]
  exact intercalate_concat front

theorem newline_not_mem_joined {line : List Bytes} (h : ∀ word ∈ line, newline ∉ word) :
    newline ∉ joined line := CString.notMem_intercalate (by decide) h

/-! ## 5. The loop -/

/-- The text so far is the lines `front` and then the line that the loop is at. -/
structure Progress (width : ℤ) (indent : Bytes) (words : List Bytes) (w : Wrapping)
    (front : List (List Bytes)) (line : List Bytes) : Prop where
  wrapped : Wrapped words width (front ++ [line])
  result : w.result = [newline].intercalate ((front ++ [line]).map fun l => indent ++ joined l)
  column : w.column = (joined line).length

section Loop

variable {width : ℤ} {indent : Bytes} {words : List Bytes} {w : Wrapping}
  {front : List (List Bytes)} {line : List Bytes}

theorem progress_start (width : ℤ) (indent word : Bytes) :
    Progress width indent [word] ⟨indent ++ word, word.length⟩ [] [word] where
  wrapped := by
    refine ⟨?_, rfl, ?_, List.isChain_singleton _⟩
    · intro line hline
      rw [List.mem_singleton.mp hline]
      exact List.cons_ne_nil _ _
    · intro line hline
      rw [List.mem_singleton.mp hline]
      exact .inr rfl
  result := by
    rw [List.nil_append, List.map_singleton, List.intercalate_singleton, joined_singleton]
  column := by rw [joined_singleton]

/-- The word goes on a new line. -/
theorem Progress.overflow
    (h : Progress width indent words w front line) (word : Bytes)
    (hover : w.column + word.length + 1 > width) :
    Progress width indent (words ++ [word]) ⟨w.result ++ newline :: (indent ++ word), word.length⟩
      (front ++ [line]) [word] where
  wrapped := by
    refine ⟨?_, ?_, ?_, ?_⟩
    · intro l hl
      rcases List.mem_append.mp hl with hl | hl
      · exact h.wrapped.ne_nil l hl
      · rw [List.mem_singleton.mp hl]
        exact List.cons_ne_nil _ _
    · rw [List.flatten_append, h.wrapped.words, List.flatten_singleton]
    · intro l hl
      rcases List.mem_append.mp hl with hl | hl
      · exact h.wrapped.fits l hl
      · rw [List.mem_singleton.mp hl]
        exact .inr rfl
    · -- the word is the first of its line, and it did not fit on the line before
      refine h.wrapped.greedy.append (List.isChain_singleton _) ?_
      rw [List.getLast?_concat, List.head?_cons]
      rintro l hl l' hl' word' hword'
      obtain rfl := Option.some.inj hl
      obtain rfl := Option.some.inj hl'
      obtain rfl := Option.some.inj hword'
      rw [h.column] at hover
      omega
  result := by
    have hresult := h.result
    rw [List.map_append, List.map_singleton] at hresult
    rw [List.map_append, List.map_append, List.map_singleton, List.map_singleton, intercalate_concat,
      ← hresult, joined_singleton]
    rfl
  column := by rw [joined_singleton]

/-- The word fits on the line. -/
theorem Progress.fit
    (h : Progress width indent words w front line) (word : Bytes)
    (hfit : w.column + word.length + 1 ≤ width) :
    Progress width indent (words ++ [word]) ⟨w.result ++ blank :: word, w.column + (1 + word.length)⟩
      front (line ++ [word]) := by
  have hne : line ≠ [] := h.wrapped.ne_nil line (List.mem_append_right _ (List.mem_singleton_self _))
  have hlen : ((joined (line ++ [word])).length : ℤ) = w.column + (1 + word.length) := by
    rw [joined_concat hne, List.length_append, List.length_cons, h.column]
    push_cast
    omega
  have hchain := List.isChain_append.mp h.wrapped.greedy
  refine ⟨⟨?_, ?_, ?_, ?_⟩, ?_, hlen.symm⟩
  · intro l hl
    rcases List.mem_append.mp hl with hl | hl
    · exact h.wrapped.ne_nil l (List.mem_append_left _ hl)
    · rw [List.mem_singleton.mp hl]
      exact List.append_ne_nil_of_left_ne_nil hne _
  · rw [← h.wrapped.words, List.flatten_append, List.flatten_append, List.flatten_singleton,
      List.flatten_singleton, List.append_assoc]
  · intro l hl
    rcases List.mem_append.mp hl with hl | hl
    · exact h.wrapped.fits l (List.mem_append_left _ hl)
    · rw [List.mem_singleton.mp hl, hlen]
      -- the column is the length of the line, so the test is the one for the longer line
      exact .inl (by omega)
  · -- the first word of the line is still what it was
    refine hchain.1.append (List.isChain_singleton _) ?_
    intro l hl l' hl' word' hword'
    rw [List.head?_cons] at hl'
    obtain rfl := Option.some.inj hl'
    rw [List.head?_append_of_ne_nil _ hne] at hword'
    exact hchain.2.2 l hl line rfl word' hword'
  · dsimp only
    rw [h.result, List.map_append, List.map_append, List.map_singleton, List.map_singleton,
      intercalate_append_last, joined_concat hne, List.append_assoc]

theorem Progress.wrapWord
    (h : Progress width indent words w front line) (word : Bytes) :
    ∃ front line, Progress width indent (words ++ [word]) (wrapWord width indent w word) front line := by
  rw [WrapText.wrapWord]
  split
  · rename_i hover
    exact ⟨_, _, h.overflow word hover⟩
  · rename_i hover
    exact ⟨_, _, h.fit word (by omega)⟩

theorem Progress.foldl (rest : List Bytes)
    (h : Progress width indent words w front line) :
    ∃ front line, Progress width indent (words ++ rest)
      (rest.foldl (WrapText.wrapWord width indent) w) front line := by
  induction rest generalizing words w front line with
  | nil =>
    rw [List.append_nil]
    exact ⟨front, line, h⟩
  | cons word rest ih =>
    obtain ⟨front', line', h'⟩ := h.wrapWord word
    rw [List.append_cons]
    exact ih h'

end Loop

/-- **The text is wrapped**: the lines of the result, without the indent, are the words of the text,
joined by single blanks, each line as full as it can be and no longer than the width. -/
theorem wrapText_wraps (text : Bytes) (width : ℤ) (indent : Bytes) (hindent : newline ∉ indent) :
    (fields text = [] → wrapText text width indent = []) ∧
      (fields text ≠ [] → ∃ lines, Wrapped (fields text) width lines ∧
        (wrapText text width indent).splitOn newline = lines.map fun line => indent ++ joined line) := by
  constructor
  · intro hnil
    rw [wrapText, hnil]
  · intro hne
    cases hfields : fields text with
    | nil => exact absurd hfields hne
    | cons word words =>
      obtain ⟨front, line, h⟩ := (progress_start width indent word).foldl words
      refine ⟨front ++ [line], h.wrapped, ?_⟩
      rw [wrapText, hfields]
      dsimp only
      rw [h.result]
      refine List.splitOn_intercalate newline ?_ (by simp)
      intro l hl
      obtain ⟨ws, hws, rfl⟩ := List.mem_map.mp hl
      rw [List.mem_append, not_or]
      refine ⟨hindent, newline_not_mem_joined fun word' hword' => ?_⟩
      have hmem : word' ∈ fields text := by
        rw [hfields, ← List.singleton_append, ← h.wrapped.words]
        exact List.mem_flatten_of_mem hws hword'
      exact (isWord_of_mem_fields hmem).newline

/-- Three words at width 4, on two lines. -/
theorem wrapText_wraps_two_lines :
    newline ∉ [blank] ∧ ∃ lines, Wrapped [[97, 98], [99], [100]] 4 lines ∧
      ([32, 97, 98, 32, 99, 10, 32, 100] : Bytes).splitOn newline =
        lines.map fun line => [blank] ++ joined line := by
  have hfields : fields [97, 98, 32, 99, 9, 100] = [[97, 98], [99], [100]] := by decide
  have htext : wrapText [97, 98, 32, 99, 9, 100] 4 [blank] = [32, 97, 98, 32, 99, 10, 32, 100] := by decide
  have h := (wrapText_wraps [97, 98, 32, 99, 9, 100] 4 [blank] (by decide)).2 (by decide)
  rw [hfields, htext] at h
  exact ⟨by decide, h⟩

end Tlpi.WrapText
