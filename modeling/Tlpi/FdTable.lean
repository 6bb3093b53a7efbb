/-
The **descriptor table**: descriptor numbers that are opened, closed and given out again. Nothing
here is about this repository.

A number says little about what has become of a descriptor, since the next `open()` may return it
once more. So each descriptor that is opened gets a serial number of its own as well, and a table
keeps account of the serial numbers: each of those given out so far is that of one descriptor that
is open, or it stands once among those closed. The account is a field of the table, so that what was
closed, and that nothing was closed twice, can be read off the descriptors that are still open
(`mem_closed`, `nodup_closed`).
-/
import Mathlib.Algebra.GroupWithZero.Nat
import Mathlib.Algebra.Order.BigOperators.Group.List
import Mathlib.Algebra.Order.Group.Nat
import Mathlib.Data.List.Nodup
import Mathlib.Data.List.Perm.Basic
import Mathlib.Data.List.Range
import Mathlib.Tactic.Common

set_option autoImplicit false

namespace Tlpi.FdTable

universe u

/-- An open descriptor: its number, which of all those opened it is, and what it refers to. -/
structure Desc (α : Type u) where
  fd : ℕ
  serial : ℕ
  file : α
deriving Repr, DecidableEq

/-- The open descriptors, the number of descriptors opened so far, and the serial numbers of those
closed, the last one first. -/
structure Table (α : Type u) where
  fds : List (Desc α)
  opened : ℕ
  closed : List ℕ
  distinct : (fds.map Desc.fd).Nodup
  account : (closed ++ fds.map Desc.serial).Perm (List.range opened)

variable {α : Type u}

namespace Table

/-- No descriptor is open. -/
def empty : Table α := ⟨[], 0, [], .nil, .refl _⟩

/-! ## The account -/

theorem nodup_closed (t : Table α) : t.closed.Nodup := by
  have hnodup := t.account.nodup_iff.mpr List.nodup_range
  exact (List.nodup_append.mp hnodup).1

/-- **What is closed**: what has been opened and is not open any more. -/
theorem mem_closed (t : Table α) {i : ℕ} :
    i ∈ t.closed ↔ i < t.opened ∧ i ∉ t.fds.map Desc.serial := by
  have hmem : i ∈ t.closed ++ t.fds.map Desc.serial ↔ i < t.opened := by
    rw [t.account.mem_iff, List.mem_range]
  have hnodup := t.account.nodup_iff.mpr List.nodup_range
  rw [← hmem, List.mem_append]
  constructor
  · exact fun hi => ⟨.inl hi, fun hopen => (List.nodup_append.mp hnodup).2.2 i hi i hopen rfl⟩
  · rintro ⟨hi | hi, hnot⟩
    · exact hi
    · exact absurd hi hnot

theorem serial_lt (t : Table α) {d : Desc α} (h : d ∈ t.fds) : d.serial < t.opened := by
  have hmem : d.serial ∈ t.closed ++ t.fds.map Desc.serial :=
    List.mem_append_right _ (List.mem_map_of_mem h)
  exact List.mem_range.mp (t.account.mem_iff.mp hmem)

/-- Where the same descriptors are open, all that was opened in between has been closed. -/
theorem mem_closed_of_fds_eq {t t' : Table α} (h : t'.fds = t.fds) {i : ℕ} (hi : t.opened ≤ i) :
    i ∈ t'.closed ↔ i < t'.opened := by
  rw [t'.mem_closed, h, and_iff_left]
  intro hmem
  obtain ⟨d, hd, rfl⟩ := List.mem_map.mp hmem
  have := t.serial_lt hd
  omega

/-- Where one more is open, all that was opened in between but this one has been closed. -/
theorem mem_closed_of_fds_cons {t t' : Table α} {d : Desc α} (h : t'.fds = d :: t.fds) {i : ℕ}
    (hi : t.opened ≤ i) : i ∈ t'.closed ↔ i < t'.opened ∧ i ≠ d.serial := by
  rw [t'.mem_closed, h, List.map_cons, List.mem_cons, not_or]
  have hold : i ∉ t.fds.map Desc.serial := by
    intro hmem
    obtain ⟨d', hd', rfl⟩ := List.mem_map.mp hmem
    have := t.serial_lt hd'
    omega
  rw [and_iff_left hold]

/-! ## Descriptors by their number -/

def find (t : Table α) (fd : ℕ) : Option (Desc α) := t.fds.find? fun d => d.fd = fd

/-- What a descriptor refers to. -/
def file (t : Table α) (fd : ℕ) : Option α := (t.find fd).map Desc.file

theorem of_find {t : Table α} {fd : ℕ} {d : Desc α} (h : t.find fd = some d) :
    d ∈ t.fds ∧ d.fd = fd := by
  rw [find] at h
  have hfd := List.find?_some h
  exact ⟨List.mem_of_find?_eq_some h, of_decide_eq_true hfd⟩

theorem find_of_mem (t : Table α) {d : Desc α} (h : d ∈ t.fds) : t.find d.fd = some d := by
  obtain ⟨d', hd'⟩ : ∃ d', t.find d.fd = some d' := by
    rw [← Option.isSome_iff_exists, find, List.find?_isSome]
    exact ⟨d, h, decide_eq_true rfl⟩
  have hsame := List.inj_on_of_nodup_map t.distinct (of_find hd').1 h (of_find hd').2
  rw [hd', hsame]

theorem file_of_mem (t : Table α) {d : Desc α} (h : d ∈ t.fds) : t.file d.fd = some d.file := by
  rw [file, t.find_of_mem h, Option.map_some]

theorem file_eq_some_iff (t : Table α) {fd : ℕ} {a : α} :
    t.file fd = some a ↔ ∃ d ∈ t.fds, d.fd = fd ∧ d.file = a := by
  constructor
  · intro h
    obtain ⟨d, hd, ha⟩ := Option.map_eq_some_iff.mp h
    exact ⟨d, (of_find hd).1, (of_find hd).2, ha⟩
  · rintro ⟨d, hd, rfl, rfl⟩
    exact t.file_of_mem hd

/-- What is open stays what it is where more is opened. -/
theorem file_mono {t t' : Table α} (h : ∀ d ∈ t.fds, d ∈ t'.fds) {fd : ℕ} {a : α}
    (hfile : t.file fd = some a) : t'.file fd = some a := by
  obtain ⟨d, hd, hfd, ha⟩ := t.file_eq_some_iff.mp hfile
  exact t'.file_eq_some_iff.mpr ⟨d, h d hd, hfd, ha⟩

/-! ## Opening and closing -/

variable [DecidableEq α]

/-- A descriptor number that is not in use is given to what is opened. -/
def push (t : Table α) (fd : ℕ) (hfd : fd ∉ t.fds.map Desc.fd) (a : α) : Table α where
  fds := ⟨fd, t.opened, a⟩ :: t.fds
  opened := t.opened + 1
  closed := t.closed
  distinct := List.nodup_cons.mpr ⟨hfd, t.distinct⟩
  account := by
    rw [List.map_cons, List.range_succ]
    exact List.perm_middle.trans ((t.account.cons _).trans (List.perm_append_singleton _ _).symm)

/-- A descriptor is taken out of the table. -/
def drop (t : Table α) (d : Desc α) (hd : d ∈ t.fds) : Table α where
  fds := t.fds.erase d
  opened := t.opened
  closed := d.serial :: t.closed
  distinct := t.distinct.sublist (List.erase_sublist.map _)
  account := by
    have hperm := (List.perm_cons_erase hd).map Desc.serial
    rw [List.map_cons] at hperm
    exact List.perm_middle.symm.trans ((hperm.symm.append_left _).trans t.account)

/-- `close(fd)`; `none` is `EBADF`. -/
def close (t : Table α) (fd : ℕ) : Option (Table α) :=
  match h : t.find fd with
  | none => none
  | some d => some (t.drop d (of_find h).1)

/-- **Closing**: a descriptor that is open can be closed, and only it is gone then. -/
theorem close_spec (t : Table α) {d : Desc α} (hd : d ∈ t.fds) :
    ∃ t', t.close d.fd = some t' ∧ t'.fds = t.fds.erase d ∧ t'.opened = t.opened := by
  refine ⟨t.drop d hd, ?_, rfl, rfl⟩
  have hfind := t.find_of_mem hd
  rw [close]
  split
  · rename_i hnone
    exact nomatch hfind.symm.trans hnone
  · rename_i d' hd'
    obtain rfl := Option.some.inj (hfind.symm.trans hd')
    rfl

/-- The descriptor opened last can be closed. -/
theorem close_head (t : Table α) {d : Desc α} {ds : List (Desc α)} (h : t.fds = d :: ds) :
    ∃ t', t.close d.fd = some t' ∧ t'.fds = ds ∧ t'.opened = t.opened := by
  obtain ⟨t', hclose, hfds, hopened⟩ := t.close_spec (h ▸ List.mem_cons_self)
  exact ⟨t', hclose, by rw [hfds, h, List.erase_cons_head], hopened⟩

/-- So can the one before. -/
theorem close_second (t : Table α) {d d' : Desc α} {ds : List (Desc α)} (h : t.fds = d :: d' :: ds) :
    ∃ t', t.close d'.fd = some t' ∧ t'.fds = d :: ds ∧ t'.opened = t.opened := by
  have hmem : d' ∈ t.fds := h ▸ List.mem_cons_of_mem _ List.mem_cons_self
  obtain ⟨t', hclose, hfds, hopened⟩ := t.close_spec hmem
  refine ⟨t', hclose, ?_, hopened⟩
  have hne : d ≠ d' := by
    rintro rfl
    have hnodup := t.distinct
    rw [h] at hnodup
    exact (List.nodup_cons.mp hnodup).1 List.mem_cons_self
  rw [hfds, h, List.erase_cons_tail (by rwa [beq_iff_eq]), List.erase_cons_head]

end Table

/-- The number that the next descriptor gets: any that is not in use, after any sequence of calls. -/
structure Numbering (α : Type u) where
  next : Table α → ℕ
  fresh : ∀ t, next t ∉ t.fds.map Desc.fd

/-- `open()`, and any other call that returns a new descriptor. -/
def Table.openFile (nos : Numbering α) (t : Table α) (a : α) : ℕ × Table α :=
  (nos.next t, t.push (nos.next t) (nos.fresh t) a)

/-- **Opening**: the new descriptor is put in front of the others. -/
theorem Table.openFile_spec (nos : Numbering α) (t : Table α) (a : α) :
    ∃ d t', t.openFile nos a = (d.fd, t') ∧ t'.fds = d :: t.fds ∧ t'.opened = t.opened + 1 ∧
      d.serial = t.opened ∧ d.file = a :=
  ⟨⟨nos.next t, t.opened, a⟩, _, rfl, rfl, rfl, rfl, rfl⟩

/-- A number above all that are in use is not in use. -/
def Numbering.above (α : Type u) : Numbering α where
  next t := (t.fds.map Desc.fd).sum + 1
  fresh t h := by
    have := List.single_le_sum (fun _ _ => Nat.zero_le _) _ h
    omega

end Tlpi.FdTable
