import Mathlib.Data.Nat.Digits.Lemmas
import Mathlib.Tactic

/-! Digits with the most significant first: the value that a loop reading them has at each of them,
and what it is of a number's digits. -/
namespace Positional

variable {base n k : Nat} {vs : List Nat}

/-- What the digits make of the value read in front of them. -/
def valueFrom (base n : Nat) (vs : List Nat) : Nat := vs.foldl (fun n v => n * base + v) n

def value (base : Nat) (vs : List Nat) : Nat := valueFrom base 0 vs

@[simp] theorem valueFrom_cons (v : Nat) : valueFrom base n (v :: vs) = valueFrom base (n * base + v) vs := rfl

/-- The value never falls. -/
theorem le_valueFrom (hbase : 0 < base) : n ≤ valueFrom base n vs := by
  induction vs generalizing n with
  | nil => exact Nat.le_refl n
  | cons v vs ih =>
      have hstep : n ≤ n * base + v := (Nat.le_mul_of_pos_right n hbase).trans (Nat.le_add_right _ _)
      exact hstep.trans ih

theorem valueFrom_lt (hn : n < base ^ k) (hvs : ∀ v ∈ vs, v < base) :
    valueFrom base n vs < base ^ (k + vs.length) := by
  induction vs generalizing n k with
  | nil => exact hn
  | cons v vs ih =>
      have hv := hvs v List.mem_cons_self
      have hstep : n * base + v < base ^ (k + 1) :=
        calc n * base + v < n * base + base := Nat.add_lt_add_left hv _
          _ = (n + 1) * base := (Nat.succ_mul n base).symm
          _ ≤ base ^ k * base := Nat.mul_le_mul_right base hn
          _ = base ^ (k + 1) := (Nat.pow_succ ..).symm
      rw [List.length_cons, Nat.add_comm vs.length, ← Nat.add_assoc]
      exact ih hstep fun w hw => hvs w (List.mem_cons_of_mem v hw)

theorem value_zeros_append (k : Nat) : value base (List.replicate k 0 ++ vs) = value base vs := by
  induction k with
  | zero => rfl
  | succ k ih =>
      rw [List.replicate_succ, List.cons_append, value, valueFrom_cons, Nat.zero_mul, Nat.add_zero]
      exact ih

theorem value_eq_ofDigits : value base vs = Nat.ofDigits base vs.reverse := by
  rw [Nat.ofDigits_eq_foldr, List.foldr_reverse, value, valueFrom]
  congr 1
  funext n v
  rw [Nat.mul_comm, Nat.add_comm]
  rfl

theorem value_digits : value base (Nat.digits base n).reverse = n := by
  rw [value_eq_ofDigits, List.reverse_reverse, Nat.ofDigits_digits]

end Positional
