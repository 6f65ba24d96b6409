import Mathlib.Tactic

/-! Characters sent one after the other to an output function that is told the index of each:
programs that do nothing else, and what a bounded buffer holds behind them. -/
namespace Emission

variable {α ι σ : Type*}

/-- Send the characters, the first one at the given index. -/
def emit (next : ι → ι) (out : α → ι → σ → σ) : List α → ι × σ → ι × σ
  | [], d => d
  | c :: cs, d => emit next out cs (next d.1, out c d.1 d.2)

/-- The program sends these characters and does nothing else. -/
def Emits (next : ι → ι) (out : α → ι → σ → σ) (f : ι × σ → ι × σ) (cs : List α) : Prop :=
  ∀ d, f d = emit next out cs d

section emit
variable {next : ι → ι} {out : α → ι → σ → σ} {f g : ι × σ → ι × σ} {cs cs' : List α}

theorem emit_append (d : ι × σ) : emit next out (cs ++ cs') d = emit next out cs' (emit next out cs d) := by
  induction cs generalizing d with
  | nil => rfl
  | cons c cs ih => exact ih _

/-- The index behind the characters does not depend on the receiver. -/
theorem emit_fst (d : ι × σ) : (emit next out cs d).1 = next^[cs.length] d.1 := by
  induction cs generalizing d with
  | nil => rfl
  | cons c cs ih => exact ih _

theorem Emits.id : Emits next out id [] := fun _ => rfl

theorem Emits.comp (hf : Emits next out f cs) (hg : Emits next out g cs') :
    Emits next out (fun d => g (f d)) (cs ++ cs') := by
  intro d
  rw [emit_append, ← hf d]
  exact hg (f d)

theorem Emits.ite (p : Prop) [Decidable p] (hf : Emits next out f cs) :
    Emits next out (fun d => if p then f d else d) (if p then cs else []) := by
  intro d
  split_ifs
  · exact hf d
  · rfl

theorem emit_foldl {step : σ → α → σ} (h : ∀ c i s, out c i s = step s c) (d : ι × σ) :
    (emit next out cs d).2 = cs.foldl step d.2 := by
  induction cs generalizing d with
  | nil => rfl
  | cons c cs ih =>
      rw [List.foldl_cons, ← h c d.1 d.2]
      exact ih _

end emit

section store

/-- Store where the index lies inside the buffer. -/
def store (limit : Nat) (c : α) (i : Nat) (mem : Nat → α) : Nat → α :=
  if i < limit then Function.update mem i c else mem

variable {next : ι → ι} {pos : ι → Nat} {limit i j : Nat} {c : α} {cs : List α} {mem : Nat → α}

theorem store_of_ne (h : j ≠ i) : store limit c i mem j = mem j := by
  unfold store
  split_ifs
  · exact Function.update_of_ne h _ _
  · rfl

/-- As long as the positions do not jump, the buffer holds the characters as far as it reaches, and
everything in front of them and behind them is as it was. -/
theorem emit_store {d : ι × (Nat → α)} (hpos : ∀ k ≤ cs.length, pos (next^[k] d.1) = pos d.1 + k) :
    (emit next (fun c i => store limit c (pos i)) cs d).2 =
      fun j => if pos d.1 ≤ j ∧ j < limit then cs.getD (j - pos d.1) (d.2 j) else d.2 j := by
  induction cs generalizing d with
  | nil => simp [emit]
  | cons c cs ih =>
      have hfirst : pos (next d.1) = pos d.1 + 1 := hpos 1 (Nat.succ_le_succ (Nat.zero_le _))
      have hrest : ∀ k ≤ cs.length, pos (next^[k] (next d.1)) = pos (next d.1) + k := by
        intro k hk
        rw [← Function.iterate_succ_apply, hpos (k + 1) (Nat.succ_le_succ hk), hfirst]
        omega
      unfold emit
      rw [ih hrest]
      funext j
      dsimp only
      rw [hfirst]
      rcases Nat.lt_trichotomy j (pos d.1) with hlt | heq | hgt
      · rw [store_of_ne hlt.ne, if_neg (by omega), if_neg (by omega)]
      · rw [if_neg (by omega), store, heq]
        by_cases hin : pos d.1 < limit
        · rw [if_pos hin, if_pos ⟨le_rfl, hin⟩, Function.update_self, Nat.sub_self]
          rfl
        · rw [if_neg hin, if_neg (by omega)]
      · rw [store_of_ne hgt.ne', show j - pos d.1 = j - (pos d.1 + 1) + 1 by omega, List.getD_cons_succ]
        by_cases hin : j < limit
        · rw [if_pos ⟨hgt, hin⟩, if_pos ⟨hgt.le, hin⟩]
        · rw [if_neg (by omega), if_neg (by omega)]

end store
end Emission
