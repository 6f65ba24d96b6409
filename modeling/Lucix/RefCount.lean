import Mathlib.Tactic
import Mathlib.Data.Multiset.Count
import Mathlib.Data.Finset.Card

/-! Reference counters kept in machine words. A tally relates the counters to the
references that have been taken since some base; taking and dropping a reference
adds a holder and removes one, whatever the order of the calls. -/
namespace RefCount

variable {ι : Type*} [DecidableEq ι] {m : Nat} {base counts counts' : ι → Nat}
  {held : Multiset ι} {i : ι}

/-- Each counter is its base plus the number of its holders, modulo `m`. -/
def Tally (m : Nat) (base counts : ι → Nat) (held : Multiset ι) : Prop :=
  ∀ i, counts i = (base i + held.count i) % m

theorem Tally.start (hbase : ∀ i, base i < m) : Tally m base base 0 := by
  intro i
  rw [Multiset.count_zero, Nat.add_zero, Nat.mod_eq_of_lt (hbase i)]

theorem Tally.incr (h : Tally m base counts held) (hself : counts' i = (counts i + 1) % m)
    (hrest : ∀ j, j ≠ i → counts' j = counts j) : Tally m base counts' (i ::ₘ held) := by
  intro j
  by_cases hj : j = i
  · subst hj
    rw [hself, h j, Multiset.count_cons_self, Nat.mod_add_mod, Nat.add_assoc]
  · rw [hrest j hj, h j, Multiset.count_cons_of_ne hj]

theorem pred_succ_mod (hm : 0 < m) (n : Nat) : ((n + 1) % m + m - 1) % m = n % m := by
  have hround : (n + 1) % m + m - 1 = (n + 1) % m + (m - 1) := by omega
  rw [hround, Nat.mod_add_mod]
  have hsum : n + 1 + (m - 1) = n + m := by omega
  rw [hsum, Nat.add_mod_right]

theorem Tally.decr (hm : 0 < m) (h : Tally m base counts (i ::ₘ held))
    (hself : counts' i = (counts i + m - 1) % m) (hrest : ∀ j, j ≠ i → counts' j = counts j) :
    Tally m base counts' held := by
  intro j
  by_cases hj : j = i
  · subst hj
    rw [hself, h j, Multiset.count_cons_self, ← Nat.add_assoc, pred_succ_mod hm]
  · rw [hrest j hj, h j, Multiset.count_cons_of_ne hj]

theorem Tally.trans {held' : Multiset ι} (h : Tally m base counts held)
    (h' : Tally m counts counts' held') : Tally m base counts' (held' + held) := by
  intro i
  rw [h' i, h i, Multiset.count_add, Nat.mod_add_mod]
  congr 1
  omega

/-- Holders that a counter does not show are a multiple of the modulus. -/
theorem Tally.excess {extra : Multiset ι} (h : Tally m base counts (extra + held))
    (hi : counts i = (base i + held.count i) % m) : extra.count i % m = 0 := by
  rw [h i, Multiset.count_add] at hi
  have hsum : base i + held.count i + extra.count i ≡ base i + held.count i + 0 [MOD m] := by
    rw [Nat.ModEq, Nat.add_zero, ← hi]
    congr 1
    omega
  exact Nat.ModEq.add_left_cancel' _ hsum

/-! ### Counting holders -/

section holders
variable {α : Type*} [DecidableEq α] {S : Finset α} {P Q : α → Prop} [DecidablePred P]
  [DecidablePred Q] {a : α}

/-- One holder lets go of what it held and takes something else. -/
theorem card_filter_update (ha : a ∈ S) (hsame : ∀ x ∈ S, x ≠ a → (Q x ↔ P x)) :
    (S.filter Q).card + (if P a then 1 else 0) = (S.filter P).card + (if Q a then 1 else 0) := by
  have hrest : (S.erase a).filter Q = (S.erase a).filter P := by
    apply Finset.filter_congr
    intro x hx
    exact hsame x (Finset.mem_of_mem_erase hx) (Finset.ne_of_mem_erase hx)
  have hcard : ∀ (R : α → Prop) [DecidablePred R],
      (S.filter R).card = ((S.erase a).filter R).card + if R a then 1 else 0 := by
    intro R _
    have hnot : a ∉ (S.erase a).filter R := by simp
    conv_lhs => rw [← Finset.insert_erase ha, Finset.filter_insert]
    split_ifs
    · rw [Finset.card_insert_of_notMem hnot]
    · rfl
  rw [hcard Q, hcard P, hrest]
  omega

omit [DecidableEq α] in
/-- Replacing one element of a list changes a sum by the difference. -/
theorem sum_map_set {l : List α} {f : α → Nat} {i : Nat} {b : α} (hi : l[i]? = some a) :
    ((l.set i b).map f).sum + f a = (l.map f).sum + f b := by
  induction l generalizing i with
  | nil => contradiction
  | cons x l ih =>
      cases i with
      | zero =>
          obtain rfl := Option.some.inj hi
          simp only [List.set_cons_zero, List.map_cons, List.sum_cons]
          omega
      | succ i =>
          have := ih hi
          simp only [List.set_cons_succ, List.map_cons, List.sum_cons]
          omega

end holders

end RefCount
