/-
The **transfer layer**: `read()` and `write()` calls that move a part of what they were asked for.

Nothing here is about this repository. What a call comes to is given by a schedule, one outcome for
each call: so many bytes, if that many are asked for and are there, or a failure with its `errno`.
A schedule is infinite, so that one in which every call is interrupted is a schedule too, and
"interrupted finitely often" says something.

A `read()` never returns 0 for anything but the end of the stream; a `write()` may, if the schedule
says so. No call moves more than the kernel's limit for one call.
-/
import Mathlib.Data.Set.Finite.Lattice
import Mathlib.Order.Bounds.Basic
import Tlpi.Descriptor

set_option autoImplicit false

namespace Tlpi.Transfer

open Tlpi.Descriptor

/-- The most that one `read()` or `write()` transfers on Linux. -/
abbrev MAX_RW_COUNT : ℕ := 0x7ffff000

/-- What a call comes to. -/
inductive Outcome where
  /-- At most so many bytes are transferred. -/
  | moves (k : ℕ)
  | fails (e : Errno)
deriving Repr, DecidableEq

/-- The outcomes of the calls, one after the other. -/
abbrev Schedule := ℕ → Outcome

/-- Only finitely many calls are interrupted by a signal handler. -/
def Schedule.Settles (sched : Schedule) : Prop := {i | sched i = .fails .EINTR}.Finite

theorem Schedule.Settles.bound {sched : Schedule} (h : sched.Settles) :
    ∃ B, ∀ i, sched i = .fails .EINTR → i < B := by
  obtain ⟨B, hB⟩ := h.bddAbove
  exact ⟨B + 1, fun i hi => Nat.lt_succ_of_le (hB hi)⟩

/-- The bytes that a `read()` of `count` bytes returns; none at the end of the stream. -/
def read (o : Outcome) (stream : List UInt8) (count : ℕ) : Except Errno (List UInt8) :=
  match o with
  | .moves k => .ok (stream.take (min (max 1 k) (min count MAX_RW_COUNT)))
  | .fails e => .error e

/-- How many bytes a `write()` of `count` bytes transfers. -/
def write (o : Outcome) (count : ℕ) : Except Errno ℕ :=
  match o with
  | .moves k => .ok (min k (min count MAX_RW_COUNT))
  | .fails e => .error e

/-- **What a `read()` returns**: the next bytes of the stream, at least one unless the stream has
ended, and no more than were asked for. -/
theorem read_ok {o : Outcome} {stream bs : List UInt8} {count : ℕ} (hcount : 0 < count)
    (h : read o stream count = .ok bs) :
    bs = stream.take bs.length ∧ bs.length ≤ count ∧ (bs = [] → stream = []) := by
  cases o with
  | fails e => exact nomatch h
  | moves k =>
    have hlen : bs.length = min (min (max 1 k) (min count MAX_RW_COUNT)) stream.length := by
      rw [← Except.ok.inj h, List.length_take]
    refine ⟨?_, by omega, ?_⟩
    · rw [hlen, ← Except.ok.inj h, ← List.take_eq_take_min]
    · rintro rfl
      rw [List.length_nil] at hlen
      refine List.length_eq_zero_iff.mp ?_
      simp only [MAX_RW_COUNT] at hlen
      omega

theorem write_ok {o : Outcome} {count n : ℕ} (h : write o count = .ok n) : n ≤ count := by
  cases o with
  | fails e => exact nomatch h
  | moves k =>
    have hn : min k (min count MAX_RW_COUNT) = n := Except.ok.inj h
    omega

/-- A `write()` that transfers nothing is one for which the schedule says so. -/
theorem write_zero {o : Outcome} {count : ℕ} (hcount : 0 < count) (h : write o count = .ok 0) :
    o = .moves 0 := by
  cases o with
  | fails e => exact nomatch h
  | moves k =>
    have hn : min k (min count MAX_RW_COUNT) = 0 := Except.ok.inj h
    simp only [MAX_RW_COUNT] at hn
    rw [show k = 0 by omega]

theorem read_error {o : Outcome} {stream : List UInt8} {count : ℕ} {e : Errno}
    (h : read o stream count = .error e) : o = .fails e := by
  cases o with
  | moves k => exact nomatch h
  | fails e' => rw [← Except.error.inj h]

theorem write_error {o : Outcome} {count : ℕ} {e : Errno} (h : write o count = .error e) :
    o = .fails e := by
  cases o with
  | moves k => exact nomatch h
  | fails e' => rw [← Except.error.inj h]

end Tlpi.Transfer
