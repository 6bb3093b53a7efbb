/-
`sockets/rdwrn.c`: `readn()` and `writen()`.

Both go round until `n` bytes are transferred, with a total, a pointer and the rest of the count to
be kept in step. An interrupted call is made again, and that is the only turn that gets nowhere: the
loops come to their end on every schedule with finitely many interruptions.

`size_t` and `ssize_t` are 64 bits wide. The total stays below `n`, so it is a number here; what is
returned is that number as an `ssize_t`, which is negative for a total of `2^63` or more.
-/
import Tlpi.Loop
import Tlpi.Transfer

set_option autoImplicit false

namespace Tlpi.Rdwrn

open Tlpi.Descriptor Tlpi.Loop Tlpi.Transfer

/-! ## 1. The two functions -/

/-- A `size_t` as an `ssize_t`. -/
def toSsize (n : ℕ) : ℤ := (BitVec.ofNat 64 n).toInt

/-- The caller's memory, the local variables, what is still to be read, and the number of calls. -/
structure ReadnLocals where
  mem : Mem
  /-- The pointer, as an offset into the caller's buffer. -/
  buf : ℕ
  totRead : ℕ
  stream : List UInt8
  calls : ℕ

structure ReadnRet where
  ret : ℤ
  mem : Mem
  stream : List UInt8

def readnBody (sched : Schedule) (n : BitVec 64) (s : ReadnLocals) : Iter ReadnLocals ReadnRet :=
  if s.totRead < n.toNat then
    match read (sched s.calls) s.stream (n.toNat - s.totRead) with
    | .error .EINTR => .next { s with calls := s.calls + 1 }
    | .error _ => .done ⟨-1, s.mem, s.stream⟩
    | .ok bs =>
      if bs.length = 0 then .done ⟨toSsize s.totRead, s.mem, s.stream⟩
      else
        .next {
          mem := storeAll s.mem s.buf bs
          buf := s.buf + bs.length
          totRead := s.totRead + bs.length
          stream := s.stream.drop bs.length
          calls := s.calls + 1 }
  else .done ⟨toSsize s.totRead, s.mem, s.stream⟩

/-- `readn(fd, buffer, n)` returns. -/
def Readn (sched : Schedule) (n : BitVec 64) (buffer : Mem) (stream : List UInt8) (r : ReadnRet) :
    Prop :=
  Ends (readnBody sched n) ⟨buffer, 0, 0, stream, 0⟩ r

/-- The local variables, what the peer has received, and the number of calls. -/
structure WritenLocals where
  buf : ℕ
  totWritten : ℕ
  received : List UInt8
  calls : ℕ

structure WritenRet where
  ret : ℤ
  received : List UInt8

def writenBody (sched : Schedule) (n : BitVec 64) (buffer : Mem) (s : WritenLocals) :
    Iter WritenLocals WritenRet :=
  if s.totWritten < n.toNat then
    match write (sched s.calls) (n.toNat - s.totWritten) with
    | .error .EINTR => .next { s with calls := s.calls + 1 }
    | .error _ => .done ⟨-1, s.received⟩
    | .ok numWritten =>
      -- "should never happen"
      if numWritten = 0 then .done ⟨-1, s.received⟩
      else
        .next {
          buf := s.buf + numWritten
          totWritten := s.totWritten + numWritten
          received := s.received ++ slice buffer s.buf numWritten
          calls := s.calls + 1 }
  else .done ⟨toSsize s.totWritten, s.received⟩

/-- `writen(fd, buffer, n)` returns. -/
def Writen (sched : Schedule) (n : BitVec 64) (buffer : Mem) (r : WritenRet) : Prop :=
  Ends (writenBody sched n buffer) ⟨0, 0, [], 0⟩ r

theorem toSsize_of_nonneg {k : ℕ} (hk : k < 2 ^ 64) (h : 0 ≤ toSsize k) : toSsize k = k := by
  rw [toSsize, BitVec.toInt_eq_toNat_cond, BitVec.toNat_ofNat] at h ⊢
  split at h <;> omega

theorem toSsize_of_lt {k : ℕ} (hk : k < 2 ^ 63) : toSsize k = k := by
  rw [toSsize, BitVec.toInt_eq_toNat_cond, BitVec.toNat_ofNat]
  split <;> omega

/-! ## 2. What is read -/

section Readn

variable {sched : Schedule} {n : BitVec 64} {buffer : Mem} {stream : List UInt8}

/-- **What a turn does**: it gets nowhere, interrupted, or it takes the next bytes of the stream. -/
theorem readnBody_next {s s' : ReadnLocals} (h : readnBody sched n s = .next s') :
    s'.calls = s.calls + 1 ∧ s.totRead < n.toNat ∧
      ((s' = { s with calls := s.calls + 1 } ∧ sched s.calls = .fails .EINTR) ∨
        ∃ bs, bs ≠ [] ∧ bs.length ≤ n.toNat - s.totRead ∧ bs = s.stream.take bs.length ∧
          s' = ⟨storeAll s.mem s.buf bs, s.buf + bs.length, s.totRead + bs.length,
            s.stream.drop bs.length, s.calls + 1⟩) := by
  rw [readnBody] at h
  split at h
  · rename_i hlt
    split at h
    · rename_i hread
      rw [Iter.next.injEq] at h
      subst h
      exact ⟨rfl, hlt, .inl ⟨rfl, read_error hread⟩⟩
    · exact nomatch h
    · rename_i bs hread
      obtain ⟨htake, hlen, -⟩ := read_ok (by omega) hread
      split at h
      · exact nomatch h
      · rename_i hne
        rw [Iter.next.injEq] at h
        subst h
        exact ⟨rfl, hlt, .inr ⟨bs, fun hnil => hne (hnil ▸ rfl), hlen, htake, rfl⟩⟩
  · exact nomatch h

/-- **How the loop is left**: on a failure, at the end of the stream, or with `n` bytes. -/
theorem readnBody_done {s : ReadnLocals} {r : ReadnRet} (h : readnBody sched n s = .done r) :
    r.mem = s.mem ∧ r.stream = s.stream ∧
      ((r.ret = -1 ∧ ∃ e, e ≠ .EINTR ∧ sched s.calls = .fails e) ∨
        (r.ret = toSsize s.totRead ∧ (s.stream = [] ∨ n.toNat ≤ s.totRead))) := by
  rw [readnBody] at h
  split at h
  · split at h
    · exact nomatch h
    · rename_i e hintr hread
      rw [Iter.done.injEq] at h
      subst h
      exact ⟨rfl, rfl, .inl ⟨rfl, e, fun he => hintr he, read_error hread⟩⟩
    · rename_i bs hread
      obtain ⟨-, -, hend⟩ := read_ok (by omega) hread
      split at h
      · rename_i hnil
        rw [Iter.done.injEq] at h
        subst h
        exact ⟨rfl, rfl, .inr ⟨rfl, .inl (hend (List.length_eq_zero_iff.mp hnil))⟩⟩
      · exact nomatch h
  · rename_i hge
    rw [Iter.done.injEq] at h
    subst h
    exact ⟨rfl, rfl, .inr ⟨rfl, .inr (Nat.le_of_not_lt hge)⟩⟩

/-- Total, pointer, buffer and stream are in step. -/
structure ReadSoFar (n : BitVec 64) (stream : List UInt8) (s : ReadnLocals) : Prop where
  buf : s.buf = s.totRead
  le_n : s.totRead ≤ n.toNat
  le_length : s.totRead ≤ stream.length
  mem : slice s.mem 0 s.totRead = stream.take s.totRead
  stream : s.stream = stream.drop s.totRead

theorem ReadSoFar.next {s s' : ReadnLocals} (h : ReadSoFar n stream s)
    (hb : readnBody sched n s = .next s') : ReadSoFar n stream s' := by
  obtain ⟨-, hlt, ⟨rfl, -⟩ | ⟨bs, -, hlen, htake, rfl⟩⟩ := readnBody_next hb
  · exact ⟨h.buf, h.le_n, h.le_length, h.mem, h.stream⟩
  · have hle : bs.length ≤ s.stream.length := by
      rw [htake, List.length_take]
      exact Nat.min_le_right _ _
    rw [h.stream, List.length_drop] at hle
    have hfits := h.le_length
    refine ⟨?_, ?_, ?_, ?_, ?_⟩
    · rw [h.buf]
    · simp only
      omega
    · simp only
      omega
    · -- the new bytes lie behind those that are there already
      have hnew := slice_storeAll s.mem s.buf bs
      rw [h.buf] at hnew ⊢
      simp only
      rw [slice_add, slice_storeAll_before _ _ (Nat.le_of_eq (Nat.zero_add _)), h.mem, Nat.zero_add,
        hnew, htake, h.stream, List.length_take, List.take_add, ← List.take_eq_take_min]
    · simp only
      rw [h.stream, List.drop_drop]

/-- What `readn()` leaves, unless it fails. -/
structure ReadAll (n : BitVec 64) (stream : List UInt8) (k : ℕ) (r : ReadnRet) : Prop where
  ret : r.ret = toSsize k
  le_n : k ≤ n.toNat
  le_length : k ≤ stream.length
  mem : slice r.mem 0 k = stream.take k
  rest : r.stream = stream.drop k
  ended : k = n.toNat ∨ k = stream.length

theorem Readn.spec {r : ReadnRet} (h : Readn sched n buffer stream r) :
    (r.ret = -1 ∧ ∃ i e, e ≠ .EINTR ∧ sched i = .fails e) ∨ ∃ k, ReadAll n stream k r := by
  refine Ends.rule (I := ReadSoFar n stream)
    (Q := fun r => (r.ret = -1 ∧ ∃ i e, e ≠ .EINTR ∧ sched i = .fails e) ∨ ∃ k, ReadAll n stream k r)
    (fun s s' hs hb => hs.next hb) ?_ ?_ h
  · intro s r hs hb
    obtain ⟨hmem, hstream, ⟨hret, e, hne, hfails⟩ | ⟨hret, hend⟩⟩ := readnBody_done hb
    · exact .inl ⟨hret, s.calls, e, hne, hfails⟩
    · refine .inr ⟨s.totRead, hret, hs.le_n, hs.le_length, hmem ▸ hs.mem, hstream ▸ hs.stream, ?_⟩
      rcases hend with hnil | hge
      · have hlen := congrArg List.length hs.stream
        rw [hnil, List.length_nil, List.length_drop] at hlen
        exact .inr (by have := hs.le_length; omega)
      · exact .inl (by have := hs.le_n; omega)
  · exact ⟨rfl, Nat.zero_le _, Nat.zero_le _, rfl, rfl⟩

theorem Readn.exists (hsettles : sched.Settles) : ∃ r, Readn sched n buffer stream r := by
  obtain ⟨B, hB⟩ := hsettles.bound
  refine @exists_ends_of_idle _ _ _ (fun s => n.toNat - s.totRead) ReadnLocals.calls B
    (fun s s' hb => (readnBody_next hb).1) ?_ ?_ _
  · intro s s' hb
    obtain ⟨-, hlt, ⟨rfl, hintr⟩ | ⟨bs, hne, hlen, -, rfl⟩⟩ := readnBody_next hb
    · exact .inr ⟨Nat.le_refl _, hB _ hintr⟩
    · have := List.length_pos_iff.mpr hne
      simp only
      omega
  · intro s hb
    rw [readnBody] at hb
    split at hb
    · split at hb
      · exact nomatch hb
      · exact nomatch hb
      · split at hb <;> exact nomatch hb
    · exact nomatch hb

end Readn

/-! ## 3. What is written -/

section Writen

variable {sched : Schedule} {n : BitVec 64} {buffer : Mem}

theorem writenBody_next {s s' : WritenLocals} (h : writenBody sched n buffer s = .next s') :
    s'.calls = s.calls + 1 ∧ s.totWritten < n.toNat ∧
      ((s' = { s with calls := s.calls + 1 } ∧ sched s.calls = .fails .EINTR) ∨
        ∃ k, 0 < k ∧ k ≤ n.toNat - s.totWritten ∧
          s' = ⟨s.buf + k, s.totWritten + k, s.received ++ slice buffer s.buf k, s.calls + 1⟩) := by
  rw [writenBody] at h
  split at h
  · rename_i hlt
    split at h
    · rename_i hwrite
      rw [Iter.next.injEq] at h
      subst h
      exact ⟨rfl, hlt, .inl ⟨rfl, write_error hwrite⟩⟩
    · exact nomatch h
    · rename_i k hwrite
      have hle := write_ok hwrite
      split at h
      · exact nomatch h
      · rename_i hne
        rw [Iter.next.injEq] at h
        subst h
        exact ⟨rfl, hlt, .inr ⟨k, Nat.pos_of_ne_zero hne, hle, rfl⟩⟩
  · exact nomatch h

/-- The outcomes at which `writen()` gives up. -/
def Fails (o : Outcome) : Prop := (∃ e, e ≠ .EINTR ∧ o = .fails e) ∨ o = .moves 0

theorem writenBody_done {s : WritenLocals} {r : WritenRet}
    (h : writenBody sched n buffer s = .done r) :
    r.received = s.received ∧
      ((r.ret = -1 ∧ Fails (sched s.calls)) ∨
        (r.ret = toSsize s.totWritten ∧ n.toNat ≤ s.totWritten)) := by
  rw [writenBody] at h
  split at h
  · split at h
    · exact nomatch h
    · rename_i e hintr hwrite
      rw [Iter.done.injEq] at h
      subst h
      exact ⟨rfl, .inl ⟨rfl, .inl ⟨e, fun he => hintr he, write_error hwrite⟩⟩⟩
    · rename_i hlt _ _ hwrite
      -- a `write()` of nothing counts as a failure
      split at h
      · rename_i hzero
        rw [Iter.done.injEq] at h
        subst h
        rw [hzero] at hwrite
        exact ⟨rfl, .inl ⟨rfl, .inr (write_zero (by omega) hwrite)⟩⟩
      · exact nomatch h
  · rename_i hge
    rw [Iter.done.injEq] at h
    subst h
    exact ⟨rfl, .inr ⟨rfl, Nat.le_of_not_lt hge⟩⟩

/-- Total, pointer and peer are in step. -/
structure WrittenSoFar (n : BitVec 64) (buffer : Mem) (s : WritenLocals) : Prop where
  buf : s.buf = s.totWritten
  le_n : s.totWritten ≤ n.toNat
  received : s.received = slice buffer 0 s.totWritten

theorem WrittenSoFar.next {s s' : WritenLocals} (h : WrittenSoFar n buffer s)
    (hb : writenBody sched n buffer s = .next s') : WrittenSoFar n buffer s' := by
  obtain ⟨-, hlt, ⟨rfl, -⟩ | ⟨k, -, hle, rfl⟩⟩ := writenBody_next hb
  · exact ⟨h.buf, h.le_n, h.received⟩
  · refine ⟨?_, ?_, ?_⟩
    · rw [h.buf]
    · simp only
      omega
    · simp only
      rw [h.received, h.buf, slice_add, Nat.zero_add]

theorem Writen.spec {r : WritenRet} (h : Writen sched n buffer r) :
    ∃ k, k ≤ n.toNat ∧ r.received = slice buffer 0 k ∧
      ((r.ret = -1 ∧ ∃ i, Fails (sched i)) ∨ (r.ret = toSsize k ∧ k = n.toNat)) := by
  refine Ends.rule (I := WrittenSoFar n buffer)
    (Q := fun r => ∃ k, k ≤ n.toNat ∧ r.received = slice buffer 0 k ∧
      ((r.ret = -1 ∧ ∃ i, Fails (sched i)) ∨ (r.ret = toSsize k ∧ k = n.toNat)))
    (fun s s' hs hb => hs.next hb) ?_ ?_ h
  · intro s r hs hb
    obtain ⟨hreceived, hret⟩ := writenBody_done hb
    refine ⟨s.totWritten, hs.le_n, hreceived.trans hs.received, ?_⟩
    rcases hret with ⟨hret, hfails⟩ | ⟨hret, hge⟩
    · exact .inl ⟨hret, s.calls, hfails⟩
    · exact .inr ⟨hret, Nat.le_antisymm hs.le_n hge⟩
  · exact ⟨rfl, Nat.zero_le _, rfl⟩

theorem Writen.exists (hsettles : sched.Settles) : ∃ r, Writen sched n buffer r := by
  obtain ⟨B, hB⟩ := hsettles.bound
  refine @exists_ends_of_idle _ _ _ (fun s => n.toNat - s.totWritten) WritenLocals.calls B
    (fun s s' hb => (writenBody_next hb).1) ?_ ?_ _
  · intro s s' hb
    obtain ⟨-, hlt, ⟨rfl, hintr⟩ | ⟨k, hpos, hle, rfl⟩⟩ := writenBody_next hb
    · exact .inr ⟨Nat.le_refl _, hB _ hintr⟩
    · simp only
      omega
  · intro s hb
    rw [writenBody] at hb
    split at hb
    · split at hb
      · exact nomatch hb
      · exact nomatch hb
      · split at hb <;> exact nomatch hb
    · exact nomatch hb

end Writen

/-! ## 4. Both together -/

section Both

variable {sched : Schedule} {n : BitVec 64} {buffer : Mem} {stream : List UInt8}

/-- A total that is returned as a number is that number. -/
theorem ReadAll.ret_eq {k : ℕ} {r : ReadnRet} (h : ReadAll n stream k r) (hret : 0 ≤ r.ret) :
    r.ret = k := by
  rw [h.ret] at hret ⊢
  exact toSsize_of_nonneg (Nat.lt_of_le_of_lt h.le_n n.isLt) hret

theorem Readn.of_nonneg {r : ReadnRet} (h : Readn sched n buffer stream r) (hret : 0 ≤ r.ret) :
    ∃ k : ℕ, r.ret = k ∧ ReadAll n stream k r := by
  rcases h.spec with ⟨hfail, -⟩ | ⟨k, hall⟩
  · omega
  · exact ⟨k, hall.ret_eq hret, hall⟩

theorem Writen.of_nonneg {r : WritenRet} (h : Writen sched n buffer r) (hret : 0 ≤ r.ret) :
    r.ret = n.toNat ∧ toSsize n.toNat = n.toNat ∧ r.received = slice buffer 0 n.toNat := by
  obtain ⟨k, hle, hreceived, ⟨hfail, -⟩ | ⟨hret', rfl⟩⟩ := h.spec
  · omega
  · rw [hret'] at hret ⊢
    have hn := toSsize_of_nonneg n.isLt hret
    exact ⟨hn, hn, hreceived⟩

/-- Where nothing but interruptions comes in its way, all is written. -/
theorem Writen.of_interrupted {r : WritenRet} (h : Writen sched n buffer r)
    (hsched : ∀ i, ¬ Fails (sched i)) :
    r.ret = toSsize n.toNat ∧ r.received = slice buffer 0 n.toNat := by
  obtain ⟨k, hle, hreceived, ⟨-, i, hfails⟩ | ⟨hret, rfl⟩⟩ := h.spec
  · exact absurd hfails (hsched i)
  · exact ⟨hret, hreceived⟩

/-- Where at least `n` bytes are there, `n` bytes are read. -/
theorem ReadAll.whole {k : ℕ} {r : ReadnRet} (h : ReadAll n stream k r)
    (hlen : n.toNat ≤ stream.length) : k = n.toNat := by
  have := h.le_n
  have := h.ended
  omega

/-- **Everything is transferred, once and in order**, whatever part of it each call transfers and
whichever calls are interrupted; and the loops come to their end if not all calls are. -/
theorem readn_writen_transfer (sched : Schedule) (n : BitVec 64) (buffer : Mem)
    (stream : List UInt8) :
    (∀ r, Readn sched n buffer stream r → 0 ≤ r.ret → ∃ k : ℕ, r.ret = k ∧ k ≤ n.toNat ∧
        k ≤ stream.length ∧ slice r.mem 0 k = stream.take k ∧ r.stream = stream.drop k ∧
        (k = n.toNat ∨ k = stream.length)) ∧
      (∀ r, Writen sched n buffer r → 0 ≤ r.ret →
        r.ret = n.toNat ∧ r.received = slice buffer 0 n.toNat) ∧
      (∀ r, Writen sched n buffer r → r.ret = -1 → r.received <+: slice buffer 0 n.toNat) ∧
      (sched.Settles → (∃ r, Readn sched n buffer stream r) ∧ ∃ r, Writen sched n buffer r) ∧
      (sched.Settles → (∀ i, ¬ Fails (sched i)) → n.toNat < 2 ^ 63 →
        ∃ w, Writen sched n buffer w ∧ w.ret = n.toNat ∧ w.received = slice buffer 0 n.toNat) ∧
      ∀ w, Writen sched n buffer w → 0 ≤ w.ret → ∀ (readSched : Schedule) (buffer' : Mem) (more : List UInt8),
        (∀ r, Readn readSched n buffer' (w.received ++ more) r → 0 ≤ r.ret →
          r.ret = n.toNat ∧ slice r.mem 0 n.toNat = slice buffer 0 n.toNat) ∧
        (readSched.Settles → (∀ i e, readSched i = .fails e → e = .EINTR) →
          ∃ r, Readn readSched n buffer' (w.received ++ more) r ∧ r.ret = n.toNat ∧
            slice r.mem 0 n.toNat = slice buffer 0 n.toNat) := by
  refine ⟨?_, ?_, ?_, fun h => ⟨Readn.exists h, Writen.exists h⟩, ?_, ?_⟩
  · intro r h hret
    obtain ⟨k, hk, hall⟩ := h.of_nonneg hret
    exact ⟨k, hk, hall.le_n, hall.le_length, hall.mem, hall.rest, hall.ended⟩
  · intro r h hret
    obtain ⟨hn, -, hreceived⟩ := h.of_nonneg hret
    exact ⟨hn, hreceived⟩
  · intro r h _
    obtain ⟨k, hle, hreceived, -⟩ := h.spec
    obtain ⟨j, hj⟩ := Nat.exists_eq_add_of_le hle
    rw [hreceived, hj, slice_add]
    exact List.prefix_append _ _
  · intro hsettles hsched hn
    obtain ⟨w, hw⟩ := @Writen.exists sched n buffer hsettles
    obtain ⟨hret, hreceived⟩ := hw.of_interrupted hsched
    exact ⟨w, hw, hret.trans (toSsize_of_lt hn), hreceived⟩
  · intro w hw hret readSched buffer' more
    obtain ⟨-, hsize, hreceived⟩ := hw.of_nonneg hret
    have hlen : w.received.length = n.toNat := by rw [hreceived, length_slice]
    -- the peer has `n` bytes to read at least, and they are the buffer's
    have hwhole : ∀ k r, ReadAll n (w.received ++ more) k r →
        k = n.toNat ∧ slice r.mem 0 n.toNat = slice buffer 0 n.toNat := by
      intro k r hall
      have hk : k = n.toNat := hall.whole (by rw [List.length_append]; omega)
      refine ⟨hk, ?_⟩
      rw [← hreceived, ← hk, hall.mem, hk, ← hlen, List.take_left]
    refine ⟨?_, ?_⟩
    · intro r h hret
      obtain ⟨k, hk, hall⟩ := h.of_nonneg hret
      obtain ⟨rfl, hmem⟩ := hwhole k r hall
      exact ⟨hk, hmem⟩
    · intro hsettles honly
      obtain ⟨r, h⟩ := @Readn.exists readSched n buffer' (w.received ++ more) hsettles
      refine ⟨r, h, ?_⟩
      rcases h.spec with ⟨-, i, e, hne, hfails⟩ | ⟨k, hall⟩
      · exact absurd (honly i e hfails) hne
      · obtain ⟨rfl, hmem⟩ := hwhole k r hall
        exact ⟨hall.ret.trans hsize, hmem⟩

end Both

end Tlpi.Rdwrn
