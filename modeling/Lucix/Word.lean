import Mathlib.Tactic

/-! Unsigned and signed 64-bit words as naturals. The operations are irreducible so
that a proof never counts up to `2 ^ 64`; it uses the equations below. -/
namespace Lucix

/-- The value of a `size_t` expression. -/
@[irreducible] def wrap64 (n : Nat) : Nat := n % 2 ^ 64

/-- The difference of two `size_t` values. -/
@[irreducible] def sub64 (a b : Nat) : Nat := (a + 2 ^ 64 - b) % 2 ^ 64

/-- The value of an `int64_t`. -/
@[irreducible] def toInt64 (n : Nat) : Int := if n < 2 ^ 63 then n else (n : Int) - 2 ^ 64

/-- An unsigned value as an `int`. -/
def toInt32 (n : Nat) : Int := Int.bmod n (2 ^ 32)

/-- The value of a `char`, which is signed. -/
def charValue (b : UInt8) : Int := if b.toNat < 128 then b.toNat else b.toNat - 256

theorem wrap64_of_lt {n : Nat} (h : n < 2 ^ 64) : wrap64 n = n := by
  rw [wrap64, Nat.mod_eq_of_lt h]

theorem wrap64_le (n : Nat) : wrap64 n ≤ n := by
  rw [wrap64]
  exact Nat.mod_le _ _

theorem wrap64_of_ge {n : Nat} (h : 2 ^ 64 ≤ n) (h' : n < 2 ^ 64 + 2 ^ 64) :
    wrap64 n = n - 2 ^ 64 := by
  rw [wrap64]
  omega

theorem sub64_of_le {a b : Nat} (h : b ≤ a) (ha : a < 2 ^ 64) : sub64 a b = a - b := by
  rw [sub64]
  omega

theorem sub64_sub64 {a b c : Nat} (hb : b ≤ 2 ^ 64) (hbc : b + c ≤ 2 ^ 64) :
    sub64 (sub64 a b) c = sub64 a (b + c) := by
  rw [sub64, sub64, sub64]
  omega

theorem toInt64_of_lt {n : Nat} (h : n < 2 ^ 63) : toInt64 n = n := by
  rw [toInt64, if_pos h]

theorem toInt64_of_ge {n : Nat} (h : 2 ^ 63 ≤ n) : toInt64 n = (n : Int) - 2 ^ 64 := by
  rw [toInt64, if_neg (Nat.not_lt.mpr h)]

theorem toInt32_of_lt {n : Nat} (h : n < 2 ^ 31) : toInt32 n = n := by
  apply Int.bmod_eq_of_le
  · omega
  · omega

theorem charValue_injective {a b : UInt8} (h : charValue a = charValue b) : a = b := by
  have ha := a.toNat_lt
  have hb := b.toNat_lt
  apply UInt8.toNat_inj.mp
  unfold charValue at h
  split_ifs at h
  all_goals omega

end Lucix
