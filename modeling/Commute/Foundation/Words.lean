import Mathlib.Algebra.Group.Nat.Defs
import Mathlib.Order.Lattice
import Mathlib.Tactic.Common

/-!
# Machine words

An unsigned 64-bit word converted to a signed integer, and how word operations
read as operations on natural numbers while they do not wrap around.
-/
namespace Commute

theorem toNat_max (a b : UInt64) : (max a b).toNat = max a.toNat b.toNat := by
  rw [show max a b = if a ≤ b then b else a from rfl]
  split_ifs with h
  · exact (max_eq_right (UInt64.le_iff_toNat_le.mp h)).symm
  · rw [UInt64.le_iff_toNat_le] at h
    exact (max_eq_left (Nat.le_of_not_le h)).symm

theorem uint64_max_eq_left {a b : UInt64} (h : b ≤ a) : max a b = a := by
  rw [← UInt64.toNat_inj, toNat_max]
  exact max_eq_left (UInt64.le_iff_toNat_le.mp h)

theorem uint64_max_eq_right {a b : UInt64} (h : a ≤ b) : max a b = b := by
  rw [← UInt64.toNat_inj, toNat_max]
  exact max_eq_right (UInt64.le_iff_toNat_le.mp h)

/-- The signed sum `int(x) + n`, which wraps around. -/
def intAdd (x : UInt64) (n : ℕ) : ℤ := (x.toBitVec + BitVec.ofNat 64 n).toInt

theorem intAdd_eq {x : UInt64} {n : ℕ} (h : x.toNat + n < 2 ^ 63) :
    intAdd x n = (x.toNat + n : ℕ) := by
  have hx : x.toBitVec.toNat = x.toNat := rfl
  have hsum : (x.toBitVec + BitVec.ofNat 64 n).toNat = x.toNat + n := by
    rw [BitVec.toNat_add, BitVec.toNat_ofNat, hx]
    omega
  rw [intAdd, BitVec.toInt_eq_toNat_of_lt, hsum]
  omega

end Commute
