/-
The **line filling layer**: words put on lines one after another, each line as full as it can be.
Nothing here is about this repository.

A word has a cost, a line costs what its words do and one for the space between two of them
(`columns`), and a line may have a limit of its own, which depends on its number. `fill` is the
greedy division that starts a new line for a word that does not fit any more. `Filled` says what such
a division is without saying how it is found: the words in their order, lines that keep to their
limits unless they are a single word, and no line whose first word would have fitted on the one
before. As a line costs no less than a beginning of it, there is one such division (`filled_iff`).
-/
import Mathlib.Algebra.GroupWithZero.Nat
import Mathlib.Data.Int.Notation
import Mathlib.Data.List.Basic
import Mathlib.Tactic.Common

set_option autoImplicit false

namespace Tlpi.Filling

universe u

variable {α : Type u} (cost : α → ℕ) (limit : ℕ → ℤ)

/-- What a line costs. -/
def columns (line : List α) : ℕ := (line.map cost).sum + (line.length - 1)

/-- The greedy division: `i` is the number of the line that is being filled. -/
def fill : ℕ → List α → List α → List (List α)
  | _, line, [] => [line]
  | i, line, word :: words =>
    if (columns cost line : ℤ) + 1 + cost word ≤ limit i then fill i (line ++ [word]) words
    else line :: fill (i + 1) [word] words

/-- A division into full lines, the first of which has the number `i`. -/
structure Filled (i : ℕ) (words : List α) (lines : List (List α)) : Prop where
  ne_nil : ∀ line ∈ lines, line ≠ []
  words : lines.flatten = words
  fits : ∀ j line, lines[j]? = some line → columns cost line ≤ limit (i + j) ∨ line.length = 1
  full : ∀ j line next word, lines[j]? = some line → lines[j + 1]? = some next →
    next.head? = some word → limit (i + j) < columns cost line + 1 + cost word

variable {cost limit}

/-! ## What a line costs -/

theorem columns_singleton (word : α) : columns cost [word] = cost word := by
  simp only [columns, List.map_cons, List.map_nil, List.sum_cons, List.sum_nil, List.length_singleton,
    Nat.sub_self, Nat.add_zero]

theorem columns_cons (word : α) {line : List α} (h : line ≠ []) :
    columns cost (word :: line) = cost word + 1 + columns cost line := by
  have hlen := List.length_pos_of_ne_nil h
  simp only [columns, List.map_cons, List.sum_cons, List.length_cons]
  omega

theorem columns_concat {line : List α} (h : line ≠ []) (word : α) :
    columns cost (line ++ [word]) = columns cost line + 1 + cost word := by
  have hlen := List.length_pos_of_ne_nil h
  simp only [columns, List.map_append, List.map_cons, List.map_nil, List.sum_append, List.sum_cons,
    List.sum_nil, List.length_append, List.length_singleton]
  omega

/-- A line costs no less than a beginning of it. -/
theorem columns_le_append (line more : List α) : columns cost line ≤ columns cost (line ++ more) := by
  simp only [columns, List.map_append, List.sum_append, List.length_append]
  omega

theorem columns_take_le {line : List α} {k m : ℕ} (h : k ≤ m) :
    columns cost (line.take k) ≤ columns cost (line.take m) := by
  obtain ⟨more, hmore⟩ := List.take_prefix_take_left (l := line) h
  rw [← hmore]
  exact columns_le_append _ _

/-! ## The greedy division -/

theorem fill_ne_nil (i : ℕ) (line words : List α) : fill cost limit i line words ≠ [] := by
  induction words generalizing i line with
  | nil => exact List.cons_ne_nil _ _
  | cons word words ih =>
    rw [fill]
    split
    · exact ih i _
    · exact List.cons_ne_nil _ _

/-- A full line in front of full lines. -/
theorem Filled.cons {i : ℕ} {line : List α} {words : List α} {lines : List (List α)}
    (h : Filled cost limit (i + 1) words lines) (hne : line ≠ [])
    (hfits : columns cost line ≤ limit i ∨ line.length = 1)
    (hfull : ∀ word, words.head? = some word → limit i < columns cost line + 1 + cost word) :
    Filled cost limit i (line ++ words) (line :: lines) where
  ne_nil := by
    rintro l (_ | ⟨_, hl⟩)
    · exact hne
    · exact h.ne_nil l hl
  words := by rw [List.flatten_cons, h.words]
  fits := by
    rintro (_ | j) l hl
    · exact Option.some.inj hl ▸ hfits
    · rw [← Nat.add_assoc, Nat.add_right_comm]
      exact h.fits j l hl
  full := by
    rintro (_ | j) l next word hl hnext hword
    · obtain rfl := Option.some.inj hl
      refine hfull word ?_
      -- the first word of the next line is the first of those that follow
      obtain ⟨next', rest, rfl⟩ : ∃ next' rest, lines = next' :: rest := by
        cases lines with
        | nil => exact nomatch hnext
        | cons next' rest => exact ⟨next', rest, rfl⟩
      obtain rfl := Option.some.inj hnext
      rw [← h.words, List.flatten_cons, List.head?_append, hword]
      rfl
    · rw [← Nat.add_assoc, Nat.add_right_comm]
      exact h.full j l next word hl hnext hword

theorem filled_singleton {i : ℕ} {line : List α} (hne : line ≠ [])
    (hfits : columns cost line ≤ limit i ∨ line.length = 1) : Filled cost limit i line [line] where
  ne_nil := fun l hl => List.mem_singleton.mp hl ▸ hne
  words := List.flatten_singleton
  fits := by
    rintro (_ | j) l hl
    · exact Option.some.inj hl ▸ hfits
    · exact nomatch hl
  full := by
    rintro (_ | j) l next word hl hnext
    · exact nomatch hnext
    · exact nomatch hnext

/-- **What is found is such a division.** -/
theorem filled_fill (i : ℕ) {line words : List α} (hne : line ≠ [])
    (hfits : columns cost line ≤ limit i ∨ line.length = 1) :
    Filled cost limit i (line ++ words) (fill cost limit i line words) := by
  induction words generalizing i line with
  | nil =>
    rw [fill, List.append_nil]
    exact filled_singleton hne hfits
  | cons word words ih =>
    rw [fill]
    split
    · rename_i hword
      have hcost : columns cost (line ++ [word]) = columns cost line + 1 + cost word :=
        columns_concat hne word
      rw [List.append_cons]
      exact ih i (List.append_ne_nil_of_left_ne_nil hne _) (.inl (by omega))
    · rename_i hover
      refine (ih (i + 1) (List.cons_ne_nil word []) (.inr rfl)).cons hne hfits ?_
      rintro word' ⟨⟩
      omega

/-- Words that are on the line in the end are put on it. -/
theorem fill_append {i : ℕ} {line more : List α} (hne : line ≠ [])
    (hfits : columns cost (line ++ more) ≤ limit i ∨ more = []) (rest : List α) :
    fill cost limit i line (more ++ rest) = fill cost limit i (line ++ more) rest := by
  induction more generalizing line with
  | nil => rw [List.nil_append, List.append_nil]
  | cons word more ih =>
    have hle := hfits.resolve_right (List.cons_ne_nil _ _)
    rw [List.append_cons] at hle
    have hword : columns cost (line ++ [word]) ≤ columns cost (line ++ [word] ++ more) :=
      columns_le_append _ _
    have hcost : columns cost (line ++ [word]) = columns cost line + 1 + cost word :=
      columns_concat hne word
    rw [List.cons_append, fill, if_pos (by omega), List.append_cons line word more]
    exact ih (List.append_ne_nil_of_left_ne_nil hne _) (.inl hle)

theorem Filled.tail {i : ℕ} {line : List α} {words : List α} {lines : List (List α)}
    (h : Filled cost limit i words (line :: lines)) :
    Filled cost limit (i + 1) lines.flatten lines where
  ne_nil := fun l hl => h.ne_nil l (List.mem_cons_of_mem _ hl)
  words := rfl
  fits := by
    intro j l hl
    rw [Nat.add_right_comm]
    exact h.fits (j + 1) l hl
  full := by
    intro j l next word hl hnext hword
    rw [Nat.add_right_comm]
    exact h.full (j + 1) l next word hl hnext hword

theorem Filled.fits_head {i : ℕ} {line more words : List α} {lines : List (List α)}
    (h : Filled cost limit i words ((line ++ more) :: lines)) (hne : line ≠ []) :
    columns cost (line ++ more) ≤ limit i ∨ more = [] := by
  refine (h.fits 0 _ rfl).imp_right fun hone => ?_
  have hlen := List.length_pos_of_ne_nil hne
  rw [List.length_append] at hone
  exact List.eq_nil_of_length_eq_zero (by omega)

/-- **There is no other**: what is on the first line already makes no difference. -/
theorem Filled.eq_fill {lines : List (List α)} :
    ∀ {i : ℕ} {line more words : List α}, Filled cost limit i words ((line ++ more) :: lines) →
      line ≠ [] → (line ++ more) :: lines = fill cost limit i line (more ++ lines.flatten) := by
  induction lines with
  | nil =>
    intro i line more words h hne
    rw [fill_append hne (h.fits_head hne), List.flatten_nil, fill]
  | cons next lines ih =>
    intro i line more words h hne
    obtain ⟨word, more', rfl⟩ :=
      List.exists_cons_of_ne_nil (h.ne_nil next (List.mem_cons_of_mem _ List.mem_cons_self))
    have hover := h.full 0 (line ++ more) (word :: more') word rfl rfl rfl
    rw [Nat.add_zero] at hover
    have htail := @ih (i + 1) [word] more' _ h.tail (List.cons_ne_nil _ _)
    rw [List.singleton_append] at htail
    rw [fill_append hne (h.fits_head hne), List.flatten_cons, List.cons_append, fill,
      if_neg (by omega), htail]

/-- **The division into full lines**, for at least one word. -/
theorem filled_iff {word : α} {words : List α} {lines : List (List α)} :
    Filled cost limit 0 (word :: words) lines ↔ lines = fill cost limit 0 [word] words := by
  constructor
  · intro h
    cases lines with
    | nil => exact nomatch h.words
    | cons line lines =>
      obtain ⟨word', more, rfl⟩ := List.exists_cons_of_ne_nil (h.ne_nil line List.mem_cons_self)
      have hwords := h.words
      rw [List.flatten_cons, List.cons_append, List.cons.injEq] at hwords
      obtain ⟨rfl, rfl⟩ := hwords
      exact Filled.eq_fill (show Filled cost limit 0 _ (([word'] ++ more) :: lines) from h)
        (List.cons_ne_nil _ _)
  · rintro rfl
    exact filled_fill 0 (List.cons_ne_nil word []) (.inr rfl)

/-- The beginning of the words that is on the first line, with the first word of the next line. -/
theorem Filled.take {i : ℕ} {words line next : List α} {word : α} {lines : List (List α)}
    (h : Filled cost limit i words lines) (hline : lines[0]? = some line)
    (hnext : lines[1]? = some next) (hword : next.head? = some word) :
    words.take (line.length + 1) = line ++ [word] ∧ line.length + 1 ≤ words.length := by
  rcases lines with _ | ⟨line', _ | ⟨next', lines⟩⟩
  · exact nomatch hline
  · exact nomatch hnext
  · obtain rfl := Option.some.inj hline
    obtain rfl := Option.some.inj hnext
    obtain ⟨more, rfl⟩ := List.head?_eq_some_iff.mp hword
    rw [← h.words, List.flatten_cons, List.flatten_cons, List.cons_append]
    constructor
    · rw [List.take_length_add_append, List.take_succ_cons, List.take_zero]
    · rw [List.length_append, List.length_cons]
      omega

theorem exists_filled {words : List α} (hne : words ≠ []) :
    ∃ lines, Filled cost limit 0 words lines := by
  obtain ⟨word, words, rfl⟩ := List.exists_cons_of_ne_nil hne
  exact ⟨_, filled_iff.mpr rfl⟩

/-- If the first line is over its limit after some of the words, there is a next line, and the
first line is over its limit with the first word of it after no more of the words. -/
theorem Filled.exists_next {words : List α} {lines : List (List α)}
    (h : Filled cost limit 0 words lines) {k : ℕ} (hk : 2 ≤ k) (hlen : k ≤ words.length)
    (hover : limit 0 < columns cost (words.take k)) :
    ∃ line next word, lines[0]? = some line ∧ lines[1]? = some next ∧ next.head? = some word ∧
      words.take (line.length + 1) = line ++ [word] ∧ line.length + 1 ≤ k := by
  cases lines with
  | nil =>
    rw [← h.words] at hlen
    exact absurd hlen (by rw [List.flatten_nil, List.length_nil]; omega)
  | cons line rest =>
    have hwords : words = line ++ rest.flatten := by rw [← h.words, List.flatten_cons]
    -- as many words are not on the first line
    have hshort : line.length < k := by
      by_contra hlong
      have htake : words.take k = line.take k := by
        rw [hwords, List.take_append_of_le_length (by omega)]
      have hle : columns cost (line.take k) ≤ columns cost (line.take line.length) :=
        columns_take_le (by omega)
      rw [List.take_length] at hle
      rw [htake] at hover
      have hfits := h.fits 0 line rfl
      rw [Nat.zero_add] at hfits
      omega
    cases rest with
    | nil =>
      rw [hwords, List.flatten_nil, List.append_nil] at hlen
      omega
    | cons next rest =>
      obtain ⟨word, more, rfl⟩ := List.exists_cons_of_ne_nil
        (h.ne_nil next (List.mem_cons_of_mem _ List.mem_cons_self))
      exact ⟨line, word :: more, word, rfl, rfl, rfl, (h.take rfl rfl rfl).1, hshort⟩

end Tlpi.Filling
