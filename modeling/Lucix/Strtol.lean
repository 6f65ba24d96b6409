import Lucix.Initramfs
import Lucix.Positional

/-! `strtol` of `kernel/strtol.c` in the signed arithmetic of its `long`, and the numerals that it
decodes. -/
namespace Lucix.Initramfs
open Positional

/-! ### The long -/

/-- The loop of `strtol`, `none` also where `ret * base + val` overflows. -/
def strtolLongLoop (base : Nat) : List UInt8 → Nat → Nat → Option (Nat × Nat)
  | [], _, _ => none
  | d :: str, ret, n =>
      if hexdigit d then
        if base ≤ digitval d then some (ret, n)
        else if ret * base + digitval d < 2 ^ 63 then strtolLongLoop base str (ret * base + digitval d) (n + 1)
        else none
      else some (ret, n)

/-- The base that is decided on, and how many bytes of the string are a prefix for it. -/
def chooseBase (str : List UInt8) (base : Nat) : Nat × Nat :=
  if base ≠ 0 then (base, 0)
  else if str.head? = some 48 then
    if str.tail.head? = some 120 then (16, 2) else (8, 1)
  else (10, 0)

/-- The function `strtol` without the arithmetic that C leaves undefined. -/
def strtolLong (str : List UInt8) (base : Nat) : Option (Nat × Nat) :=
  let (base, skipped) := chooseBase str base
  strtolLongLoop base (str.drop skipped) 0 skipped

/-! ### Numerals -/

/-- The byte is the digit for the value: a decimal digit, or a letter in either case. -/
def DigitOf (v : Nat) (d : UInt8) : Prop :=
  (v < 10 ∧ d.toNat = 48 + v) ∨ (10 ≤ v ∧ v < 36 ∧ (d.toNat = 97 + (v - 10) ∨ d.toNat = 65 + (v - 10)))

instance (v : Nat) (d : UInt8) : Decidable (DigitOf v d) := inferInstanceAs (Decidable (_ ∨ _))

def IsDigit (base : Nat) (d : UInt8) : Prop := ∃ v < base, DigitOf v d

instance (base : Nat) (d : UInt8) : Decidable (IsDigit base d) := inferInstanceAs (Decidable (∃ v < base, _))

/-- The digit for a value below 36, a letter in lower case. -/
def digitByte (v : Nat) : UInt8 := if v < 10 then UInt8.ofNat (48 + v) else UInt8.ofNat (97 + (v - 10))

/-- The shortest numeral of `n`, behind leading zeros. -/
def numeralOf (base n zeros : Nat) : List UInt8 :=
  (List.replicate zeros 0 ++ (Nat.digits base n).reverse).map digitByte

/-- The bytes are a positional numeral of `n`, the most significant digit first. -/
structure Numeral (base n : Nat) (ds : List UInt8) : Prop where
  nonempty : ds ≠ []
  digits : ∃ vs, List.Forall₂ DigitOf vs ds ∧ (∀ v ∈ vs, v < base) ∧ Nat.ofDigits base vs.reverse = n

/-- The number is decoded without an overflow, and `endp` is left behind the numeral. -/
def Decodes (str : List UInt8) (base n len : Nat) : Prop :=
  strtolLong str base = some (n, len) ∧ strtol str base = some (n, len)

section digits
variable {base v : Nat} {d : UInt8}

theorem DigitOf.digitval (h : DigitOf v d) : hexdigit d = true ∧ digitval d = v := by
  unfold hexdigit Initramfs.digitval
  simp only [UInt8.le_iff_toNat_le, UInt8.reduceToNat, Bool.or_eq_true, decide_eq_true_eq]
  rcases h with ⟨hv, hd⟩ | ⟨hlo, hhi, hd⟩
  · rw [if_pos (by omega)]
    omega
  · rw [if_neg (by omega)]
    split_ifs <;> omega

theorem digitOf_digitval (h : hexdigit d = true) : DigitOf (digitval d) d := by
  unfold DigitOf digitval
  simp only [hexdigit, UInt8.le_iff_toNat_le, UInt8.reduceToNat, Bool.or_eq_true, decide_eq_true_eq] at h ⊢
  split_ifs <;> omega

theorem digitOf_digitByte (h : v < 36) : DigitOf v (digitByte v) := by
  unfold DigitOf digitByte
  split_ifs with hten
  · rw [UInt8.toNat_ofNat_of_lt' (by simp only [UInt8.size]; omega)]
    omega
  · rw [UInt8.toNat_ofNat_of_lt' (by simp only [UInt8.size]; omega)]
    omega

theorem isDigit_iff : IsDigit base d ↔ hexdigit d = true ∧ digitval d < base := by
  constructor
  · rintro ⟨v, hv, hd⟩
    obtain ⟨hhex, hval⟩ := hd.digitval
    exact ⟨hhex, hval ▸ hv⟩
  · rintro ⟨hhex, hlt⟩
    exact ⟨digitval d, hlt, digitOf_digitval hhex⟩

theorem numeralOf_numeral {n zeros : Nat} (hbase : 2 ≤ base) (hle : base ≤ 36) (h : 0 < zeros ∨ 0 < n) :
    Numeral base n (numeralOf base n zeros) := by
  have hlt : ∀ v ∈ List.replicate zeros 0 ++ (Nat.digits base n).reverse, v < base := by
    intro v hv
    rcases List.mem_append.mp hv with hzero | hdigit
    · rw [List.eq_of_mem_replicate hzero]
      omega
    · exact Nat.digits_lt_base hbase (List.mem_reverse.mp hdigit)
  constructor
  · intro hnil
    rw [numeralOf, List.map_eq_nil_iff, List.append_eq_nil_iff, List.replicate_eq_nil_iff, List.reverse_eq_nil_iff,
      Nat.digits_eq_nil_iff_eq_zero] at hnil
    omega
  · refine ⟨_, ?_, hlt, ?_⟩
    · rw [numeralOf, List.forall₂_map_right_iff, List.forall₂_same]
      exact fun v hv => digitOf_digitByte ((hlt v hv).trans_le hle)
    · rw [← value_eq_ofDigits, value_zeros_append, value_digits]

end digits

/-! ### The loop -/

section loops
variable {base ret n : Nat} {str : List UInt8} {r : Nat × Nat}

/-- Where nothing overflows, nothing wraps. -/
theorem strtolLoop_eq_of_long (h : strtolLongLoop base str ret n = some r) :
    strtolLoop base str ret n = some r := by
  induction str generalizing ret n with
  | nil => contradiction
  | cons d str ih =>
      unfold strtolLongLoop at h
      unfold strtolLoop
      split_ifs at h ⊢ with hhex hend hfits
      · exact h
      · rw [wrap64_of_lt (hfits.trans (by norm_num))]
        exact ih h
      · exact h

theorem chooseBase_given (str : List UInt8) (h : base ≠ 0) : chooseBase str base = (base, 0) := if_pos h

theorem chooseBase_decimal {d : UInt8} (str : List UInt8) (h : d ≠ 48) : chooseBase (d :: str) 0 = (10, 0) := by
  simp [chooseBase, h]

theorem chooseBase_octal {d : UInt8} (str : List UInt8) (h : d ≠ 120) :
    chooseBase (48 :: d :: str) 0 = (8, 1) := by
  simp [chooseBase, h]

theorem strtol_eq (str : List UInt8) (base : Nat) : strtol str base =
    strtolLoop (chooseBase str base).1 (str.drop (chooseBase str base).2) 0 (chooseBase str base).2 := by
  unfold strtol chooseBase
  by_cases hbase : base ≠ 0
  · rw [if_pos hbase, if_pos hbase]
    rfl
  · rw [if_neg hbase, if_neg hbase]
    cases str with
    | nil => rfl
    | cons d str =>
        by_cases hd : d = 48
        · subst hd
          cases str with
          | nil => rfl
          | cons e str =>
              by_cases he : e = 120
              · subst he
                rfl
              · simp [he]
        · simp [hd]

theorem strtol_eq_of_long (h : strtolLong str base = some r) : strtol str base = some r := by
  rw [strtol_eq]
  exact strtolLoop_eq_of_long h

/-- The loop stops at the first byte that is no digit of the base, with the value of those in front. -/
theorem strtolLongLoop_digits {vs : List Nat} {ds rest : List UInt8} {t : UInt8}
    (hds : List.Forall₂ DigitOf vs ds) (hvs : ∀ v ∈ vs, v < base) (ht : ¬ IsDigit base t)
    (hvalue : valueFrom base ret vs < 2 ^ 63) :
    strtolLongLoop base (ds ++ t :: rest) ret n = some (valueFrom base ret vs, n + ds.length) := by
  induction hds generalizing ret n with
  | nil =>
      rw [isDigit_iff, not_and, not_lt] at ht
      rw [List.nil_append, strtolLongLoop]
      by_cases hhex : hexdigit t = true
      · rw [if_pos hhex, if_pos (ht hhex)]
        rfl
      · rw [if_neg hhex]
        rfl
  | @cons v d vs ds hd hds ih =>
      obtain ⟨hhex, hval⟩ := hd.digitval
      have hv := hvs v List.mem_cons_self
      have hle : ret * base + v ≤ valueFrom base (ret * base + v) vs := le_valueFrom (Nat.zero_lt_of_lt hv)
      rw [valueFrom_cons] at hvalue ⊢
      rw [List.cons_append, strtolLongLoop, if_pos hhex, hval, if_neg (Nat.not_le.mpr hv),
        if_pos (hle.trans_lt hvalue), ih (fun w hw => hvs w (List.mem_cons_of_mem v hw)) hvalue, List.length_cons,
        Nat.add_assoc, Nat.add_comm 1]

end loops

section decodes
variable {base n : Nat} {ds rest : List UInt8} {t : UInt8}

theorem Numeral.decodes {str : List UInt8} {given skipped : Nat} (h : Numeral base n ds) (hn : n < 2 ^ 63)
    (ht : ¬ IsDigit base t) (hbase : chooseBase str given = (base, skipped))
    (hdrop : str.drop skipped = ds ++ t :: rest) : Decodes str given n (skipped + ds.length) := by
  obtain ⟨vs, hds, hvs, hvalue⟩ := h.digits
  have hfrom : valueFrom base 0 vs = n := value_eq_ofDigits.trans hvalue
  have hlong : strtolLong str given = some (n, skipped + ds.length) := by
    rw [strtolLong, hbase]
    dsimp only
    rw [hdrop, strtolLongLoop_digits hds hvs ht (hfrom ▸ hn), hfrom]
  exact ⟨hlong, strtol_eq_of_long hlong⟩

theorem Numeral.decodes_bare {given : Nat} (h : Numeral base n ds) (hn : n < 2 ^ 63) (ht : ¬ IsDigit base t)
    (hbase : chooseBase (ds ++ t :: rest) given = (base, 0)) : Decodes (ds ++ t :: rest) given n ds.length := by
  have hdecodes := h.decodes hn ht hbase List.drop_zero
  rwa [Nat.zero_add] at hdecodes

/-- A digit of a base up to ten is a decimal digit. -/
theorem Numeral.head_lt (h : Numeral base n ds) (hbase : base ≤ 10) :
    ∃ d ds', ds = d :: ds' ∧ d.toNat < 48 + base := by
  obtain ⟨vs, hds, hvs, -⟩ := h.digits
  cases hds with
  | nil => exact absurd rfl h.nonempty
  | @cons v d vs ds' hd hds =>
      have hv := hvs v List.mem_cons_self
      refine ⟨d, ds', rfl, ?_⟩
      rcases hd with ⟨-, hval⟩ | ⟨hlo, -, -⟩
      · omega
      · omega

/-- What is printed in a base is read back, up to the first byte that is no digit of it. -/
theorem strtol_numeralOf {zeros : Nat} (hbase : 2 ≤ base) (hle : base ≤ 36) (hn : n < 2 ^ 63)
    (h : 0 < zeros ∨ 0 < n) (ht : ¬ IsDigit base t) :
    strtol (numeralOf base n zeros ++ t :: rest) base = some (n, (numeralOf base n zeros).length) := by
  have hbase0 : base ≠ 0 := by omega
  exact ((numeralOf_numeral hbase hle h).decodes_bare hn ht (chooseBase_given _ hbase0)).2

end decodes

/-- Every numeral of a number below `2 ^ 63` is decoded in its base, and with base 0 behind the
prefix that stands for it. -/
theorem strtol_decodes_numerals (n : Nat) (hn : n < 2 ^ 63) (ds rest : List UInt8) (t : UInt8) :
    (∀ base, 2 ≤ base → base ≤ 36 → Numeral base n ds → ¬ IsDigit base t →
      Decodes (ds ++ t :: rest) base n ds.length) ∧
    (Numeral 10 n ds → ds.head? ≠ some 48 → ¬ IsDigit 10 t → Decodes (ds ++ t :: rest) 0 n ds.length) ∧
    (Numeral 8 n ds → ¬ IsDigit 8 t → Decodes (48 :: (ds ++ t :: rest)) 0 n (1 + ds.length)) ∧
    (Numeral 16 n ds → ¬ IsDigit 16 t → Decodes (48 :: 120 :: (ds ++ t :: rest)) 0 n (2 + ds.length)) := by
  refine ⟨?_, ?_, ?_, ?_⟩
  · intro base hbase _ hds ht
    have hbase0 : base ≠ 0 := by omega
    exact hds.decodes_bare hn ht (chooseBase_given _ hbase0)
  · intro hds hfirst ht
    obtain ⟨d, ds, rfl, -⟩ := hds.head_lt (by decide)
    have hd : d ≠ 48 := fun heq => hfirst (heq ▸ rfl)
    exact hds.decodes_bare hn ht (chooseBase_decimal _ hd)
  · -- an octal digit is no `x`
    intro hds ht
    obtain ⟨d, ds, rfl, hlt⟩ := hds.head_lt (by decide)
    have hd : d ≠ 120 := by
      rintro rfl
      contradiction
    exact hds.decodes hn ht (chooseBase_octal (ds ++ t :: rest) hd) rfl
  · intro hds ht
    exact hds.decodes hn ht rfl rfl

/-- The strings `00755`, `42 `, `0755` and `0xfFg`. -/
theorem strtol_decodes_numerals_four :
    Decodes ([48, 48, 55, 53, 53] ++ 0 :: []) 8 493 5 ∧ Decodes ([52, 50] ++ 32 :: []) 0 42 2 ∧
      Decodes (48 :: ([55, 53, 53] ++ 0 :: [])) 0 493 4 ∧
      Decodes (48 :: 120 :: ([102, 70] ++ 103 :: [])) 0 255 4 := by
  have hpadded : Numeral 8 493 [48, 48, 55, 53, 53] :=
    ⟨by decide, [0, 0, 7, 5, 5], by decide, by decide, by decide⟩
  have hdecimal : Numeral 10 42 [52, 50] := ⟨by decide, [4, 2], by decide, by decide, by decide⟩
  have hoctal : Numeral 8 493 [55, 53, 53] := ⟨by decide, [7, 5, 5], by decide, by decide, by decide⟩
  have hhex : Numeral 16 255 [102, 70] := ⟨by decide, [15, 15], by decide, by decide, by decide⟩
  refine ⟨?_, ?_, ?_, ?_⟩
  · exact (strtol_decodes_numerals 493 (by decide) _ [] 0).1 8 (by decide) (by decide) hpadded (by decide)
  · exact (strtol_decodes_numerals 42 (by decide) _ [] 32).2.1 hdecimal (by decide) (by decide)
  · exact (strtol_decodes_numerals 493 (by decide) _ [] 0).2.2.1 hoctal (by decide)
  · exact (strtol_decodes_numerals 255 (by decide) _ [] 103).2.2.2 hhex (by decide)

end Lucix.Initramfs
