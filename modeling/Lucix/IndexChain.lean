import Mathlib.Tactic
import Mathlib.Logic.Function.Basic
import Mathlib.Data.List.Nodup

/-! Free lists of indices. An array of `size` entries stores, for each free
index, the next free one; a sentinel ends the chain. Taking and returning an
index are the two ends of the same stack. -/
namespace IndexChain

/-- The indices `xs` are met, in this order, from `a` on before the sentinel `stop`. -/
def Chain (next : Nat → Nat) (stop : Nat) : Nat → List Nat → Prop
  | a, [] => a = stop
  | a, x :: xs => a = x ∧ x ≠ stop ∧ Chain next stop (next x) xs

variable {next next' : Nat → Nat} {stop a i : Nat} {xs : List Nat}

theorem Chain.congr (h : Chain next stop a xs) (hn : ∀ x ∈ xs, next' x = next x) :
    Chain next' stop a xs := by
  induction xs generalizing a with
  | nil => exact h
  | cons x xs ih =>
      refine ⟨h.1, h.2.1, ?_⟩
      rw [hn x (by simp)]
      exact ih h.2.2 fun y hy => hn y (List.mem_cons_of_mem x hy)

theorem Chain.eq_stop_iff (h : Chain next stop a xs) : a = stop ↔ xs = [] := by
  cases xs with
  | nil => exact ⟨fun _ => rfl, fun _ => h⟩
  | cons x xs =>
      simp only [reduceCtorEq, iff_false]
      exact fun e => h.2.1 (h.1 ▸ e)

/-- The stretch from `k` on in which every entry names its successor. -/
theorem chain_range' (k n : Nat) (hstop : k + n < stop)
    (hnext : ∀ j, k ≤ j → j < k + n → next j = j + 1) (hlast : next (k + n) = stop) :
    Chain next stop k (List.range' k (n + 1)) := by
  induction n generalizing k with
  | zero => exact ⟨rfl, by omega, hlast⟩
  | succ n ih =>
      rw [List.range'_succ]
      refine ⟨rfl, by omega, ?_⟩
      rw [hnext k (Nat.le_refl k) (by omega)]
      exact ih (k + 1) (by omega) (fun j hj hlt => hnext j (by omega) (by omega))
        (by rw [show k + 1 + n = k + (n + 1) by omega]; exact hlast)

/-- A stack of free indices below `size`: the chain lists exactly the indices that are
not in use, once each. -/
structure Pool (size stop : Nat) (next : Nat → Nat) (first : Nat) (used : Nat → Prop)
    (xs : List Nat) : Prop where
  chain : Chain next stop first xs
  nodup : xs.Nodup
  mem_iff : ∀ i, i ∈ xs ↔ i < size ∧ ¬ used i

namespace Pool
variable {size first : Nat} {used used' : Nat → Prop}

theorem initial (hsize : 0 < size) (hstop : size ≤ stop)
    (hnext : ∀ j, j + 1 < size → next j = j + 1) (hlast : next (size - 1) = stop)
    (hused : ∀ i < size, ¬ used i) : Pool size stop next 0 used (List.range' 0 size) := by
  obtain ⟨n, rfl⟩ := Nat.exists_eq_succ_of_ne_zero (Nat.pos_iff_ne_zero.mp hsize)
  refine ⟨chain_range' 0 n (by omega) (fun j _ hj => hnext j (by omega)) ?_, List.nodup_range', ?_⟩
  · simpa using hlast
  · intro i
    simp only [List.mem_range'_1, Nat.zero_le, true_and, Nat.zero_add]
    exact ⟨fun hi => ⟨hi, hused i hi⟩, fun hi => hi.1⟩

theorem take {x : Nat} (h : Pool size stop next first used (x :: xs))
    (hused : ∀ i, used' i ↔ used i ∨ i = x) : Pool size stop next (next first) used' xs := by
  obtain ⟨rfl, _, hrest⟩ := h.chain
  obtain ⟨hx, hnd⟩ := List.nodup_cons.mp h.nodup
  refine ⟨hrest, hnd, fun i => ?_⟩
  have hi := h.mem_iff i
  rw [List.mem_cons] at hi
  rw [hused]
  constructor
  · intro hm
    obtain ⟨hlt, hnot⟩ := hi.mp (.inr hm)
    exact ⟨hlt, fun hu => hu.elim hnot fun e => hx (e ▸ hm)⟩
  · rintro ⟨hlt, hnot⟩
    exact (hi.mpr ⟨hlt, fun hu => hnot (.inl hu)⟩).resolve_left fun e => hnot (.inr e)

theorem give (h : Pool size stop next first used xs) (hi : i < size) (hin : used i)
    (hstop : size ≤ stop) (hused : ∀ j, used' j ↔ used j ∧ j ≠ i) :
    Pool size stop (Function.update next i first) i used' (i :: xs) := by
  have hout : i ∉ xs := fun hm => ((h.mem_iff i).mp hm).2 hin
  refine ⟨⟨rfl, by omega, ?_⟩, List.nodup_cons.mpr ⟨hout, h.nodup⟩, fun j => ?_⟩
  · rw [Function.update_self]
    refine h.chain.congr fun x hx => Function.update_of_ne ?_ _ _
    rintro rfl
    exact hout hx
  · rw [List.mem_cons, h.mem_iff j, hused j]
    by_cases hji : j = i
    · subst hji
      simp [hi]
    · simp [hji]

theorem congr (h : Pool size stop next first used xs) (hn : ∀ i < size, next' i = next i)
    (hused : ∀ i < size, used' i ↔ used i) : Pool size stop next' first used' xs := by
  refine ⟨h.chain.congr fun x hx => hn x ((h.mem_iff x).mp hx).1, h.nodup, fun i => ?_⟩
  rw [h.mem_iff i]
  exact and_congr_right fun hi => not_congr (hused i hi).symm

theorem count (h : Pool size stop next first used xs) [DecidablePred used] :
    (List.range size).countP (fun i => decide (used i)) + xs.length = size := by
  have hperm : xs.Perm ((List.range size).filter fun i => !decide (used i)) := by
    refine (List.perm_ext_iff_of_nodup h.nodup (List.nodup_range.filter _)).mpr fun i => ?_
    simp [h.mem_iff i]
  have hsplit := List.length_eq_countP_add_countP (fun i => decide (used i)) (l := List.range size)
  rw [List.length_range] at hsplit
  have hfree : xs.length = (List.range size).countP (fun i => !decide (used i)) := by
    rw [hperm.length_eq, List.countP_eq_length_filter]
  rw [hfree]
  simpa using hsplit.symm

end Pool
end IndexChain
