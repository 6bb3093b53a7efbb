/-
The **integer layout layer**: fixed-width integers as bytes in memory, least significant
byte first. Nothing here is about this repository.
-/
import Mathlib.Tactic.Common
import Mathlib.Tactic.Ring

set_option autoImplicit false

namespace Tlpi.LittleEndian

/-- The low `k` bytes of a number. -/
def toBytes : ℕ → ℕ → List UInt8
  | 0, _ => []
  | k + 1, v => UInt8.ofNat (v % 256) :: toBytes k (v / 256)

/-- The number that a run of bytes stands for. -/
def ofBytes (bs : List UInt8) : ℕ := bs.foldr (fun b high => b.toNat + 256 * high) 0

@[simp] theorem length_toBytes : ∀ k v : ℕ, (toBytes k v).length = k := by
  intro k
  induction k with
  | zero => intro v; rfl
  | succ k ih => intro v; rw [toBytes, List.length_cons, ih]

/-- Reading back what was laid out gives the number reduced to the width. -/
theorem ofBytes_toBytes : ∀ k v : ℕ, ofBytes (toBytes k v) = v % 256 ^ k := by
  intro k
  induction k with
  | zero => intro v; rw [Nat.pow_zero, Nat.mod_one]; rfl
  | succ k ih =>
    intro v
    have hlow : (UInt8.ofNat (v % 256)).toNat = v % 256 := by
      rw [UInt8.toNat_ofNat']
      omega
    calc ofBytes (toBytes (k + 1) v)
        = (UInt8.ofNat (v % 256)).toNat + 256 * ofBytes (toBytes k (v / 256)) := rfl
      _ = v % 256 + 256 * (v / 256 % 256 ^ k) := by rw [hlow, ih]
      _ = v % (256 * 256 ^ k) := (Nat.mod_mul ..).symm
      _ = v % 256 ^ (k + 1) := by rw [Nat.pow_succ, Nat.mul_comm]

/-- The low bytes come first. -/
theorem toBytes_add (a b v : ℕ) : toBytes (a + b) v = toBytes a v ++ toBytes b (v / 256 ^ a) := by
  induction a generalizing v with
  | zero => rw [Nat.zero_add, Nat.pow_zero, Nat.div_one]; rfl
  | succ a ih =>
    rw [Nat.add_right_comm, toBytes, toBytes, ih, List.cons_append, Nat.div_div_eq_div_mul,
      Nat.pow_succ, Nat.mul_comm 256]

/-- A machine word is what its bytes stand for. -/
theorem ofNat_ofBytes_toBytes {w k : ℕ} (hw : 2 ^ w = 256 ^ k) (x : BitVec w) :
    BitVec.ofNat w (ofBytes (toBytes k x.toNat)) = x := by
  rw [ofBytes_toBytes, ← hw, Nat.mod_eq_of_lt x.isLt, BitVec.ofNat_toNat, BitVec.setWidth_eq]

end Tlpi.LittleEndian
