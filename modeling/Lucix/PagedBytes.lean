import Mathlib.Tactic
import Mathlib.Logic.Function.Basic

/-! A flat sequence kept in pages. A page that is missing reads as zeros; storing
into one page changes one stretch of the sequence. The unit of storage and the
page size are arbitrary. -/
namespace PagedBytes

variable {β : Type*}

/-- The sequence with the `n` entries from `pos` on replaced by `src`. -/
def overwrite (data : Nat → β) (pos : Nat) (src : Nat → β) (n : Nat) : Nat → β := fun x =>
  if pos ≤ x ∧ x < pos + n then src (x - pos) else data x

@[simp] theorem overwrite_zero (data : Nat → β) (pos : Nat) (src : Nat → β) :
    overwrite data pos src 0 = data := by
  funext x
  have hno : ¬ (pos ≤ x ∧ x < pos + 0) := by omega
  simp only [overwrite, if_neg hno]

/-- Two adjacent stretches of one source. -/
theorem overwrite_append (data : Nat → β) (pos k n : Nat) (src : Nat → β) :
    overwrite (overwrite data pos src k) (pos + k) (fun i => src (k + i)) n =
      overwrite data pos src (k + n) := by
  funext x
  simp only [overwrite]
  by_cases hlo : pos + k ≤ x ∧ x < pos + k + n
  · have hsum : pos ≤ x ∧ x < pos + (k + n) := by omega
    rw [if_pos hlo, if_pos hsum, show k + (x - (pos + k)) = x - pos by omega]
  · rw [if_neg hlo]
    by_cases hhi : pos ≤ x ∧ x < pos + k
    · have hsum : pos ≤ x ∧ x < pos + (k + n) := by omega
      rw [if_pos hhi, if_pos hsum]
    · have hsum : ¬ (pos ≤ x ∧ x < pos + (k + n)) := by omega
      rw [if_neg hhi, if_neg hsum]

/-- The sequence that the pages hold. -/
def view (size : Nat) (zero : β) (slot : Nat → Option (Nat → β)) : Nat → β := fun x =>
  match slot (x / size) with
  | some page => page (x % size)
  | none => zero

variable {size : Nat} {zero : β} {slot slot' : Nat → Option (Nat → β)} {i : Nat}

/-- A page of zeros in an empty slot does not show. -/
theorem view_fill (hi : slot i = none) (hi' : slot' i = some fun _ => zero)
    (hrest : ∀ j, j ≠ i → slot' j = slot j) : view size zero slot' = view size zero slot := by
  funext x
  by_cases hx : x / size = i
  · simp only [view, hx, hi, hi']
  · simp only [view, hrest _ hx]

/-- A store that stays inside one page. -/
theorem view_store {page src : Nat → β} {off n : Nat} (hsize : 0 < size) (hoff : off + n ≤ size)
    (hi : slot i = some page) (hi' : slot' i = some (overwrite page off src n))
    (hrest : ∀ j, j ≠ i → slot' j = slot j) :
    view size zero slot' = overwrite (view size zero slot) (i * size + off) src n := by
  funext x
  have hdiv := Nat.div_add_mod x size
  have hlt := Nat.mod_lt x hsize
  by_cases hx : x / size = i
  · rw [hx, Nat.mul_comm] at hdiv
    simp only [view, hx, hi, hi', overwrite]
    by_cases hin : off ≤ x % size ∧ x % size < off + n
    · have hflat : i * size + off ≤ x ∧ x < i * size + off + n := by omega
      rw [if_pos hin, if_pos hflat, show x % size - off = x - (i * size + off) by omega]
    · have hflat : ¬ (i * size + off ≤ x ∧ x < i * size + off + n) := by omega
      rw [if_neg hin, if_neg hflat]
  · have hflat : ¬ (i * size + off ≤ x ∧ x < i * size + off + n) := by
      rintro ⟨hlo, hhi⟩
      refine hx (Nat.div_eq_of_lt_le (by omega) ?_)
      rw [Nat.succ_mul]
      omega
    simp only [view, hrest _ hx, overwrite, if_neg hflat]

/-- The entries of one page. -/
theorem view_of_page {page : Nat → β} {off : Nat} (hsize : off < size) (hi : slot i = some page) :
    view size zero slot (i * size + off) = page off := by
  have hdiv : (i * size + off) / size = i := by
    rw [Nat.mul_comm, Nat.mul_add_div (by omega), Nat.div_eq_of_lt hsize, Nat.add_zero]
  have hmod : (i * size + off) % size = off := by
    rw [Nat.mul_comm, Nat.mul_add_mod, Nat.mod_eq_of_lt hsize]
  simp only [view, hdiv, hi, hmod]

end PagedBytes
