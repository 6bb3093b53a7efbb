/-
What `read()` gives from an inotify descriptor: `struct inotify_event` records one behind the
other, each a header of 16 bytes and then a name of the length that the header says, null
bytes included.

A record is an event and the number of null bytes behind its name. `recordAt_encode` is the
round trip: where the bytes of a well-formed record lie in memory, the fields of a
`struct inotify_event` that is laid over them are the record's.
-/
import Tlpi.Descriptor
import Tlpi.Inotify
import Tlpi.LittleEndian

set_option autoImplicit false

namespace Tlpi.InotifyWire

open Tlpi.Descriptor Tlpi.Inotify Tlpi.LittleEndian

abbrev NAME_MAX : ℕ := 255

/-- `sizeof(struct inotify_event)` -/
abbrev HEADER : ℕ := 16

structure Record where
  ev : Event
  /-- The null bytes behind the name. -/
  pad : ℕ
deriving Repr, DecidableEq

/-- The `len` field. -/
def Record.len (r : Record) : ℕ := r.ev.name.length + r.pad

def Record.size (r : Record) : ℕ := HEADER + r.len

/-- The events that the kernel queues for the watches of a program that asks for `IN_CREATE`,
`IN_MOVED_FROM`, `IN_MOVED_TO`, `IN_DELETE_SELF` and `IN_MOVE_SELF`. -/
def kinds : List (BitVec 32) :=
  [IN_CREATE, IN_MOVED_FROM, IN_MOVED_TO, IN_DELETE_SELF, IN_MOVE_SELF, IN_UNMOUNT, IN_IGNORED,
    IN_Q_OVERFLOW]

/-- A record as the kernel makes it. -/
structure Record.WellFormed (r : Record) : Prop where
  wd_range : -2 ^ 31 ≤ r.ev.wd ∧ r.ev.wd < 2 ^ 31
  cookie_lt : r.ev.cookie < 2 ^ 32
  /-- A name is a string of bytes with a null byte behind it. -/
  name_bytes : ∀ c ∈ r.ev.name, c.toNat < 256 ∧ c.toNat ≠ 0
  pad_pos : r.ev.name ≠ [] → 0 < r.pad
  len_le : r.len ≤ NAME_MAX + 1
  /-- An event is of one kind, of a directory or not. -/
  kind : ∃ kind ∈ kinds, r.ev.mask = kind ∨ r.ev.mask = kind ||| IN_ISDIR
  /-- What is created or moved has a name. -/
  named : has r.ev.mask (IN_CREATE ||| IN_MOVED_FROM ||| IN_MOVED_TO) → r.ev.name ≠ []
  /-- Only the event of an overflow has no watch. -/
  watched : r.ev.wd = -1 → r.ev.mask = IN_Q_OVERFLOW

/-- The bytes of the name field. -/
def nameBytes (r : Record) : List UInt8 :=
  (r.ev.name.map fun c => UInt8.ofNat c.toNat) ++ List.replicate r.pad 0

def encode (r : Record) : List UInt8 :=
  toBytes 4 (BitVec.ofInt 32 r.ev.wd).toNat ++ (toBytes 4 r.ev.mask.toNat ++
    (toBytes 4 r.ev.cookie ++ (toBytes 4 r.len ++ nameBytes r)))

/-- `ev->len`, of the event at an offset. -/
def lenAt (buf : Mem) (p : ℕ) : ℕ := ofBytes (slice buf (p + 12) 4)

/-- The event at an offset. Its name is used only of events that have one, so that the string
ends within `len` bytes. -/
def eventAt (buf : Mem) (p : ℕ) : Event where
  wd := (BitVec.ofNat 32 (ofBytes (slice buf p 4))).toInt
  mask := BitVec.ofNat 32 (ofBytes (slice buf (p + 4) 4))
  cookie := ofBytes (slice buf (p + 8) 4)
  name := ((slice buf (p + HEADER) (lenAt buf p)).takeWhile (· ≠ 0)).map fun b => Char.ofNat b.toNat

theorem length_nameBytes (r : Record) : (nameBytes r).length = r.len := by
  rw [nameBytes, List.length_append, List.length_map, List.length_replicate, Record.len]

theorem length_encode (r : Record) : (encode r).length = r.size := by
  simp only [encode, List.length_append, length_toBytes, length_nameBytes, Record.size, HEADER]
  omega

/-- The string in the name field is the name. -/
theorem cstring_nameBytes {r : Record} (h : r.WellFormed) :
    ((nameBytes r).takeWhile (· ≠ 0)).map (fun b => Char.ofNat b.toNat) = r.ev.name := by
  have hbyte : ∀ c ∈ r.ev.name, UInt8.ofNat c.toNat ≠ 0 ∧
      Char.ofNat (UInt8.ofNat c.toNat).toNat = c := by
    intro c hc
    obtain ⟨hlt, hne⟩ := h.name_bytes c hc
    have hto : (UInt8.ofNat c.toNat).toNat = c.toNat := by
      rw [UInt8.toNat_ofNat']
      omega
    refine ⟨?_, ?_⟩
    · intro heq
      rw [heq] at hto
      exact hne hto.symm
    · rw [hto, Char.ofNat_toNat]
  have hzero : (List.replicate r.pad (0 : UInt8)).takeWhile (· ≠ 0) = [] := by
    cases r.pad with
    | zero => rfl
    | succ n => rfl
  rw [nameBytes, List.takeWhile_append_of_pos, hzero, List.append_nil, List.map_map]
  · conv_rhs => rw [← List.map_id r.ev.name]
    refine List.map_congr_left fun c hc => ?_
    exact (hbyte c hc).2
  · intro b hb
    obtain ⟨c, hc, rfl⟩ := List.mem_map.mp hb
    exact decide_eq_true (hbyte c hc).1

/-- **The round trip.** -/
theorem recordAt_encode {buf : Mem} {p : ℕ} {r : Record} (h : r.WellFormed)
    (hbuf : slice buf p r.size = encode r) : lenAt buf p = r.len ∧ eventAt buf p = r.ev := by
  obtain ⟨hwd, hbuf⟩ := slice_eq_append hbuf
  rw [length_toBytes] at hwd hbuf
  obtain ⟨hmask, hbuf⟩ := slice_eq_append hbuf
  rw [length_toBytes] at hmask hbuf
  obtain ⟨hcookie, hbuf⟩ := slice_eq_append hbuf
  rw [length_toBytes] at hcookie hbuf
  obtain ⟨hlen, hname⟩ := slice_eq_append hbuf
  rw [length_toBytes] at hlen hname
  have hlenAt : lenAt buf p = r.len := by
    have hlt : r.len < 256 ^ 4 := Nat.lt_of_le_of_lt h.len_le (by decide)
    rw [lenAt, hlen, ofBytes_toBytes, Nat.mod_eq_of_lt hlt]
  refine ⟨hlenAt, ?_⟩
  have hsize : r.size - 4 - 4 - 4 - 4 = r.len := by
    rw [Record.size, HEADER]
    omega
  rw [hsize] at hname
  have hname' : slice buf (p + HEADER) r.len = nameBytes r := hname
  have hcookie_lt : r.ev.cookie < 256 ^ 4 := h.cookie_lt
  rw [eventAt, hlenAt, hwd, hmask, hcookie, hname', cstring_nameBytes h,
    ofNat_ofBytes_toBytes (by decide), ofNat_ofBytes_toBytes (by decide), ofBytes_toBytes,
    Nat.mod_eq_of_lt hcookie_lt, BitVec.toInt_ofInt_eq_self (by decide) h.wd_range.1 h.wd_range.2]

end Tlpi.InotifyWire
