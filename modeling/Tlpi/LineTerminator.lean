/-
The promise in the header of `sockets/yread_line.c`: whatever happens, the caller gets a
null-terminated string. Both `yreadLine` and `ybio_readl` have one exit that leaves without a
terminator, the end of file with nothing stored.

`lineSpec_of_nextLine` says what one call leaves, over every line and every size, the size 1
included, where nothing is ever stored and a line cut short by the end of file takes that
exit too. `lineSpec_terminated_iff` reads off it when the promise is kept, and the two
functions inherit it by their simulations.
-/
import Tlpi.Ybio

set_option autoImplicit false

namespace Tlpi.LineTerminator

open Tlpi.Descriptor Tlpi.Loop Tlpi.ReadLine Tlpi.Ybio

/-! ## The promise -/

/-- What a caller is promised of a call that returns: a string of at most `n - 1` bytes of the
line the call met, and its terminator. -/
def Terminated {σ : Type} (ms : List Mark) (n : ℕ) (out : Option (Ret × σ)) : Prop :=
  ∀ r mem s, out = some ({ ret := .ok r, buffer := some mem }, s) →
    r ≤ n - 1 ∧ mem r = nul ∧ ∃ l rest, nextLine ms = some (l, rest) ∧ slice mem 0 r = l.take r

/-- The call meets the end of file with nothing stored, and the buffer does not happen to
start with a terminator. -/
def Unterminated (ms : List Mark) (n : ℕ) (mem : Mem) : Prop :=
  mem 0 ≠ nul ∧ ∃ l rest, nextLine ms = some (l, rest) ∧ newline ∉ l ∧ (l = [] ∨ n = 1)

/-! ## What one call leaves -/

/-- Without a line to come, a call blocks or fails. -/
theorem getLine_none {n : ℕ} : ∀ (ms : List Mark) (tot : ℕ) (mem : Mem), nextLine ms = none →
    getLine n ms tot mem = none ∨
      ∃ e mem' rest, getLine n ms tot mem = some ({ ret := .error e, buffer := some mem' }, rest) := by
  intro ms
  induction ms with
  | nil => intro tot mem _; exact Or.inl rfl
  | cons m ms ih =>
    intro tot mem h
    cases m with
    | fail e =>
      simp only [getLine]
      by_cases he : e = .EINTR
      · rw [if_pos he]
        simp only [nextLine, if_pos he] at h
        exact ih tot mem h
      · rw [if_neg he]
        exact Or.inr ⟨_, _, _, rfl⟩
    | eof => cases h
    | byte b =>
      by_cases hnl : b = newline
      · simp only [nextLine, if_pos hnl, reduceCtorEq] at h
      · simp only [nextLine, if_neg hnl, Option.map_eq_none_iff] at h
        simp only [getLine, if_neg hnl]
        exact ih _ _ h

/-- With room for the terminator only, a newline is what decides between the two exits. -/
theorem getLine_one : ∀ (ms : List Mark) (mem : Mem) (l : List UInt8) (rest : List Mark),
    nextLine ms = some (l, rest) →
    getLine 1 ms 0 mem
      = some ({ ret := .ok 0
                buffer := some (if newline ∈ l then store mem 0 nul else mem) }, rest) := by
  intro ms
  induction ms with
  | nil => intro mem l rest h; exact nomatch h
  | cons m ms ih =>
    intro mem l rest h
    cases m with
    | fail e =>
      by_cases he : e = .EINTR
      · simp only [nextLine, if_pos he] at h
        simp only [getLine, if_pos he]
        exact ih mem l rest h
      · simp only [nextLine, if_neg he, reduceCtorEq] at h
    | eof =>
      simp only [nextLine, Option.some.injEq, Prod.mk.injEq] at h
      obtain ⟨rfl, rfl⟩ := h
      simp only [getLine, if_true, List.not_mem_nil, if_false]
    | byte b =>
      have hfit : ¬0 + 1 < 1 := by omega
      by_cases hnl : b = newline
      · simp only [nextLine, if_pos hnl, Option.some.injEq, Prod.mk.injEq] at h
        obtain ⟨rfl, rfl⟩ := h
        simp only [getLine, if_neg hfit, hnl, List.mem_singleton, if_true]
      · simp only [nextLine, if_neg hnl, Option.map_eq_some_iff, Prod.mk.injEq] at h
        obtain ⟨⟨l', rest'⟩, hrec, rfl, rfl⟩ := h
        simp only [getLine, if_neg hfit, if_neg hnl, List.mem_cons, Ne.symm hnl, false_or]
        exact ih mem l' rest' hrec

/-- **What one call leaves**: the line, cut to the buffer, and a terminator, unless the end
of file came with nothing stored. -/
theorem lineSpec_of_nextLine {ms rest : List Mark} {l : List UInt8} {n : ℕ} {mem : Mem}
    (h : nextLine ms = some (l, rest)) (hn : 1 ≤ n) :
    lineSpec ms ⟨some mem, n⟩
      = some (if newline ∉ l ∧ (l = [] ∨ n = 1) then { ret := .ok 0, buffer := some mem }
          else placed mem n l, rest) := by
  by_cases h1 : n = 1
  · subst h1
    rw [lineSpec]
    simp only [one_ne_zero, if_false, getLine_one ms mem l rest h, or_true, and_true]
    by_cases hnl : newline ∈ l
    · simp only [hnl, if_true, not_true_eq_false, if_false, placed, Nat.sub_self, Nat.zero_min,
        List.take_zero, storeAll_nil]
    · simp only [hnl, if_false, not_false_eq_true, if_true]
  · by_cases hl : l = []
    · subst hl
      rw [if_pos ⟨List.not_mem_nil, Or.inl rfl⟩, lineSpec]
      simp only [show ¬n = 0 by omega, if_false]
      -- only interruptions can stand in front of the end of file
      clear h1
      induction ms with
      | nil => cases h
      | cons m ms ih =>
        cases m with
        | fail e =>
          by_cases he : e = .EINTR
          · simp only [nextLine, if_pos he] at h
            simp only [getLine, if_pos he]
            exact ih h
          · simp only [nextLine, if_neg he, reduceCtorEq] at h
        | eof =>
          simp only [nextLine, Option.some.injEq, Prod.mk.injEq, true_and] at h
          simp only [getLine, if_true, h]
        | byte b =>
          simp only [nextLine] at h
          split at h
          · simp at h
          · simp at h
    · rw [if_neg (by rintro ⟨-, h | h⟩; exacts [hl h, h1 h])]
      exact lineSpec_nextLine h hl rfl (by show 2 ≤ n; omega)

/-- The string that `placed` leaves. -/
theorem placed_terminated {mem mem' : Mem} {n r : ℕ} {l : List UInt8}
    (h : placed mem n l = { ret := .ok r, buffer := some mem' }) :
    r ≤ n - 1 ∧ mem' r = nul ∧ slice mem' 0 r = l.take r := by
  simp only [placed, Ret.mk.injEq, Except.ok.injEq, Option.some.injEq] at h
  obtain ⟨hr, rfl⟩ := h
  rw [hr]
  refine ⟨by omega, store_same _ _ _, ?_⟩
  have htake : (l.take (n - 1)).length = r := by rw [List.length_take, hr]
  calc slice (store (storeAll mem 0 (l.take (n - 1))) r nul) 0 r
      = slice (storeAll mem 0 (l.take (n - 1))) 0 r := by
        refine List.map_congr_left fun j hj => ?_
        rw [List.mem_range] at hj
        exact store_ne _ _ (by omega)
    _ = l.take (n - 1) := by
        conv_lhs => rw [← htake]
        exact slice_storeAll _ _ _
    _ = l.take r := by rw [← hr, List.take_eq_take_iff]; omega

/-- **When the promise is kept**, by the mark-level reader. -/
theorem lineSpec_terminated_iff {ms : List Mark} {n : ℕ} (hn : 1 ≤ n) {mem : Mem} :
    Terminated ms n (lineSpec ms ⟨some mem, n⟩) ↔ ¬Unterminated ms n mem := by
  cases hl : nextLine ms with
  | none =>
    have hno : ¬Unterminated ms n mem := by
      rintro ⟨-, l, rest, h, -⟩
      rw [hl] at h
      cases h
    -- the call does not return a length, so nothing is promised of the buffer
    refine iff_of_true (fun r mem' s h => ?_) hno
    rw [lineSpec] at h
    simp only [show ¬n = 0 by omega, if_false] at h
    rcases getLine_none ms 0 mem hl with h' | ⟨e, mem'', rest, h'⟩
    · rw [h'] at h
      cases h
    · rw [h', Option.some.injEq, Prod.mk.injEq, Ret.mk.injEq] at h
      cases h.1.1
  | some p =>
    obtain ⟨l, rest⟩ := p
    have hspec := @lineSpec_of_nextLine ms rest l n mem hl hn
    by_cases hexit : newline ∉ l ∧ (l = [] ∨ n = 1)
    · -- the exit without a terminator: what the buffer starts with decides
      rw [if_pos hexit] at hspec
      constructor
      · rintro hterm ⟨hne, -⟩
        exact hne (hterm 0 mem rest hspec).2.1
      · intro hno r mem' s h
        rw [hspec, Option.some.injEq, Prod.mk.injEq, Ret.mk.injEq, Except.ok.injEq,
          Option.some.injEq] at h
        obtain ⟨⟨rfl, rfl⟩, -⟩ := h
        refine ⟨Nat.zero_le _, by_contra fun hne => hno ⟨hne, l, rest, hl, hexit⟩, l, rest, hl, ?_⟩
        rw [slice_zero, List.take_zero]
    · rw [if_neg hexit] at hspec
      have hno : ¬Unterminated ms n mem := by
        rintro ⟨-, l', rest', h, hexit'⟩
        rw [hl, Option.some.injEq, Prod.mk.injEq] at h
        obtain ⟨rfl, -⟩ := h
        exact hexit hexit'
      refine iff_of_true (fun r mem' s h => ?_) hno
      rw [hspec, Option.some.injEq, Prod.mk.injEq] at h
      obtain ⟨h₁, h₂, h₃⟩ := placed_terminated h.1
      exact ⟨h₁, h₂, l, rest, hl, h₃⟩

/-! ## The two functions -/

/-- The promise is about what a call returns, so a simulation carries it over. -/
theorem terminated_of_sim {σ : Type} {R : σ → List Mark → Prop} {f : σ → Call → Option (Ret × σ)}
    (hsim : Simulates R f lineSpec) {s : σ} {ms : List Mark} (hR : R s ms) {n : ℕ} {mem : Mem} :
    Terminated ms n (f s ⟨some mem, n⟩) ↔ Terminated ms n (lineSpec ms ⟨some mem, n⟩) := by
  rcases hsim s ms ⟨some mem, n⟩ hR with ⟨hf, hg⟩ | ⟨o, s', t', hf, hg, -⟩
  · simp only [hf, hg, Terminated, reduceCtorEq, false_implies, implies_true]
  · simp only [hf, hg, Terminated, Option.some.injEq, Prod.mk.injEq]
    exact ⟨fun h r mem' s ho => h r mem' s' ⟨ho.1, rfl⟩, fun h r mem' s ho => h r mem' t' ⟨ho.1, rfl⟩⟩

/-- The state that earlier calls leave still holds what is to be delivered. -/
theorem holds_of_stateAfter : ∀ (calls : List Call) (p p' : ybio_t), p.Wf →
    stateAfter ybio_readl p calls = some p' → Holds p' p'.pending := by
  intro calls
  induction calls with
  | nil =>
    intro p p' hw h
    rw [stateAfter, Option.some.injEq] at h
    exact ⟨h ▸ hw, rfl⟩
  | cons c calls ih =>
    intro p p' hw h
    rcases ybio_readl_sim p p.pending c ⟨hw, rfl⟩ with ⟨hf, -⟩ | ⟨o, p₁, ms₁, hf, -, hw₁, -⟩
    · simp only [stateAfter, hf, reduceCtorEq] at h
    · simp only [stateAfter, hf] at h
      exact ih p₁ p' hw₁ h

/-- **When the string is null-terminated**: for `yreadLine` on any descriptor, and for
`ybio_readl` after any sequence of calls on a `ybio_t` from `ybio_init`. -/
theorem null_terminated_iff (fd : Fd) (n : ℕ) (hn : 1 ≤ n) (mem : Mem) :
    (Terminated fd.marks n (yreadLine fd ⟨some mem, n⟩) ↔ ¬Unterminated fd.marks n mem) ∧
      ∀ (q p : ybio_t) (calls : List Call), stateAfter ybio_readl (ybio_init fd q) calls = some p →
        (Terminated p.pending n (ybio_readl p ⟨some mem, n⟩) ↔ ¬Unterminated p.pending n mem) := by
  constructor
  · rw [terminated_of_sim yreadLine_sim rfl]
    exact lineSpec_terminated_iff hn
  · intro q p calls hp
    rw [terminated_of_sim ybio_readl_sim (holds_of_stateAfter calls _ p (ybio_init_wf fd q) hp)]
    exact lineSpec_terminated_iff hn

/-- A line of one byte in a buffer of four. -/
theorem null_terminated_iff_line :
    Terminated [.byte 10] 4 (yreadLine ⟨[.byte 10], []⟩ ⟨some fun _ => 120, 4⟩) ∧
      ¬Unterminated [.byte 10] 4 fun _ => 120 := by
  have hno : ¬Unterminated [.byte 10] 4 fun _ => 120 := by
    rintro ⟨-, l, rest, h, hnl, -⟩
    simp only [nextLine, newline, if_true, Option.some.injEq, Prod.mk.injEq] at h
    exact hnl (h.1 ▸ List.mem_singleton_self _)
  exact ⟨(null_terminated_iff ⟨[.byte 10], []⟩ 4 (by decide) fun _ => 120).1.mpr hno, hno⟩

/-- At the end of file `yreadLine` returns 0 and stores nothing. -/
theorem yreadLine_unterminated :
    ¬Terminated [.eof] 4 (yreadLine ⟨[.eof], []⟩ ⟨some fun _ => 120, 4⟩) := by
  intro h
  exact absurd (h 0 (fun _ => 120) ⟨[], []⟩ rfl).2.1 (by decide)

end Tlpi.LineTerminator
