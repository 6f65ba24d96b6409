import Mathlib.Tactic
import Mathlib.Data.Nat.Bitwise

/-! The page size and the identity-map macros of `arch/paging.h`. Addresses are
naturals; the kernel's identity map places physical address `a` at `PA2VA(a)`. -/
namespace Lucix

/-- The macro `PAGE_SIZE`. -/
def pageSize : Nat := 0x1000

/-- The constant both identity-map macros exclusive-or with. -/
def identityBase : Nat := 0xffff800000000000

/-- The macro `VA2PA`. -/
def va2pa (va : Nat) : Nat := va ^^^ identityBase

/-- The macro `PA2VA`. -/
def pa2va (pa : Nat) : Nat := pa ^^^ identityBase

@[simp] theorem va2pa_pa2va (pa : Nat) : va2pa (pa2va pa) = pa := by
  simp [va2pa, pa2va]

/-- Below `2 ^ 47` the identity map is a shift, so pointer arithmetic commutes with it. -/
theorem pa2va_eq_add {pa : Nat} (h : pa < 2 ^ 47) : pa2va pa = identityBase + pa := by
  have hbase : identityBase = 2 ^ 47 * 131071 := by norm_num [identityBase]
  apply Nat.eq_of_testBit_eq
  intro j
  rw [pa2va, Nat.testBit_xor, hbase, Nat.testBit_two_pow_mul_add _ h, Nat.testBit_two_pow_mul]
  by_cases hj : j < 47
  · simp [hj, Nat.not_le.mpr hj]
  · have hbit : pa.testBit j = false :=
      Nat.testBit_lt_two_pow (lt_of_lt_of_le h (Nat.pow_le_pow_right (by norm_num) (by omega)))
    simp [hj, hbit, Nat.le_of_not_lt hj]

theorem va2pa_add {pa n : Nat} (h : pa + n < 2 ^ 47) : va2pa (pa2va pa + n) = pa + n := by
  rw [pa2va_eq_add (by omega), Nat.add_assoc, ← pa2va_eq_add h, va2pa_pa2va]

theorem pa2va_pos {pa : Nat} (h : pa < 2 ^ 47) : 0 < pa2va pa := by
  rw [pa2va_eq_add h]
  have : 0 < identityBase := by norm_num [identityBase]
  omega

end Lucix
