import Mathlib.Tactic

/-! Numbers put together from fields of bits, the lowest field first. -/
namespace Lucix.BitFields

/-- A field is a width and a value, of which the low bits are stored. -/
abbrev Field := Nat × Nat

def pack : List Field → Nat
  | [] => 0
  | (w, v) :: fs => v % 2 ^ w + 2 ^ w * pack fs

def width (fs : List Field) : Nat := (fs.map Prod.fst).sum

theorem width_cons (f : Field) (fs : List Field) : width (f :: fs) = f.1 + width fs := by
  rw [width, List.map_cons, List.sum_cons, width]

/-- The value of `w` bits from bit `lo` on. -/
def bits (n lo w : Nat) : Nat := n / 2 ^ lo % 2 ^ w

theorem bits_lt (n lo w : Nat) : bits n lo w < 2 ^ w := Nat.mod_lt _ (Nat.two_pow_pos w)

theorem bits_of_lt {n w : Nat} (h : n < 2 ^ w) : bits n 0 w = n := by
  rw [bits, pow_zero, Nat.div_one, Nat.mod_eq_of_lt h]

theorem bits_add (n lo v w : Nat) : bits n lo (v + w) = bits n lo v + 2 ^ v * bits n (lo + v) w := by
  rw [bits, bits, bits, pow_add, Nat.mod_mul, Nat.div_div_eq_div_mul, ← pow_add]

theorem bits_shift (n lo k w : Nat) : bits (n / 2 ^ k) lo w = bits n (k + lo) w := by
  rw [bits, bits, Nat.div_div_eq_div_mul, ← pow_add]

theorem bits_mod (n : Nat) {lo w k : Nat} (h : lo + w ≤ k) : bits (n % 2 ^ k) lo w = bits n lo w := by
  obtain ⟨d, rfl⟩ := Nat.exists_eq_add_of_le h
  rw [bits, bits, Nat.add_assoc, pow_add 2 lo, Nat.mod_mul_right_div_self, pow_add, Nat.mod_mul_right_mod]

theorem bits_bits (n lo : Nat) {k w v : Nat} (h : k + v ≤ w) : bits (bits n lo w) k v = bits n (lo + k) v := by
  rw [show bits n lo w = n / 2 ^ lo % 2 ^ w from rfl, bits_mod _ h, bits_shift]

/-- What lies above a field does not show in it. -/
theorem bits_add_mul (n m : Nat) {lo w k : Nat} (h : lo + w ≤ k) : bits (n + 2 ^ k * m) lo w = bits n lo w := by
  obtain ⟨d, rfl⟩ := Nat.exists_eq_add_of_le h
  have hpow : 2 ^ (lo + w + d) * m = 2 ^ lo * (2 ^ w * (2 ^ d * m)) := by ring
  rw [bits, bits, hpow, Nat.add_mul_div_left _ _ (Nat.two_pow_pos lo), Nat.add_mul_mod_self_left]

theorem pack_append (fs gs : List Field) : pack (fs ++ gs) = pack fs + 2 ^ width fs * pack gs := by
  induction fs with
  | nil => simp [pack, width]
  | cons f fs ih =>
      obtain ⟨w, v⟩ := f
      rw [List.cons_append, pack, pack, ih, width_cons, pow_add]
      ring

theorem pack_lt (fs : List Field) : pack fs < 2 ^ width fs := by
  induction fs with
  | nil => exact Nat.zero_lt_one
  | cons f fs ih =>
      obtain ⟨w, v⟩ := f
      have hv : v % 2 ^ w + 1 ≤ 2 ^ w := Nat.mod_lt v (Nat.two_pow_pos w)
      calc pack ((w, v) :: fs) = v % 2 ^ w + 2 ^ w * pack fs := rfl
        _ < 2 ^ w + 2 ^ w * pack fs := Nat.add_lt_add_right hv _
        _ = 2 ^ w * (pack fs + 1) := by ring
        _ ≤ 2 ^ w * 2 ^ width fs := Nat.mul_le_mul_left _ ih
        _ = 2 ^ width ((w, v) :: fs) := by rw [← pow_add, width_cons]

theorem bits_pack {fs : List Field} (i : Nat) {lo w v : Nat} (h : fs[i]? = some (w, v))
    (hlo : width (fs.take i) = lo) : bits (pack fs) lo w = v % 2 ^ w := by
  subst hlo
  obtain ⟨hi, hv⟩ := List.getElem?_eq_some_iff.mp h
  have hsplit : pack fs =
      pack (fs.take i) + 2 ^ width (fs.take i) * (v % 2 ^ w + 2 ^ w * pack (fs.drop (i + 1))) := by
    conv_lhs => rw [← List.take_append_drop i fs, pack_append, List.drop_eq_getElem_cons hi, hv, pack]
  rw [hsplit, bits, Nat.add_mul_div_left _ _ (Nat.two_pow_pos _), Nat.div_eq_of_lt (pack_lt _), Nat.zero_add,
    Nat.add_mul_mod_self_left, Nat.mod_mod]

/-! ### Structures in memory -/

/-- A little-endian word of `n` bytes. -/
def readLe (mem : Nat → UInt8) : Nat → Nat → Nat
  | _, 0 => 0
  | a, n + 1 => (mem a).toNat + 256 * readLe mem (a + 1) n

/-- The bytes from an address on are those of the fields. -/
def Holds (mem : Nat → UInt8) (a : Nat) (fs : List Field) : Prop :=
  ∀ i, 8 * i < width fs → (mem (a + i)).toNat = bits (pack fs) (8 * i) 8

section holds
variable {mem : Nat → UInt8} {a k n : Nat} {fs gs : List Field}

theorem readLe_of_bits {N lo : Nat} (h : ∀ i < n, (mem (a + i)).toNat = bits N (lo + 8 * i) 8) :
    readLe mem a n = bits N lo (8 * n) := by
  induction n generalizing a lo with
  | zero => simp [readLe, bits, Nat.mod_one]
  | succ n ih =>
      have hfirst : (mem a).toNat = bits N lo 8 := h 0 (Nat.zero_lt_succ n)
      have hrest := @ih (a + 1) (lo + 8) fun i hi => by
        have hi' := h (i + 1) (by omega)
        rw [show a + 1 + i = a + (i + 1) by omega, hi', show lo + 8 + 8 * i = lo + 8 * (i + 1) by ring]
      rw [readLe, hfirst, hrest, show 8 * (n + 1) = 8 + 8 * n by ring, bits_add N lo 8 (8 * n),
        show 2 ^ 8 = 256 by norm_num]

theorem Holds.read (h : Holds mem a fs) (i : Nat) {o v : Nat} (hf : fs[i]? = some (8 * n, v))
    (ho : width (fs.take i) = 8 * o) : readLe mem (a + o) n = v % 2 ^ (8 * n) := by
  have hi := (List.getElem?_eq_some_iff.mp hf).1
  have hsum : width (fs.take i) + 8 * n ≤ width fs := by
    have hsplit : width fs = width (fs.take i) + width (fs.drop i) := by
      rw [width, width, width, ← List.sum_append, ← List.map_append, List.take_append_drop]
    have hv := (List.getElem?_eq_some_iff.mp hf).2
    rw [hsplit, List.drop_eq_getElem_cons hi, hv, width_cons]
    exact Nat.add_le_add_left (Nat.le_add_right _ _) _
  have hbytes := @readLe_of_bits mem (a + o) n (pack fs) (8 * o) fun j hj => by
    rw [Nat.add_assoc, h (o + j) (by omega), Nat.mul_add]
  rw [hbytes]
  exact bits_pack i hf ho

theorem Holds.append_iff (hk : width fs = 8 * k) :
    Holds mem a (fs ++ gs) ↔ Holds mem a fs ∧ Holds mem (a + k) gs := by
  have hwidth : width (fs ++ gs) = width fs + width gs := by
    rw [width, List.map_append, List.sum_append, width, width]
  have hlow : ∀ i, 8 * i < width fs → bits (pack (fs ++ gs)) (8 * i) 8 = bits (pack fs) (8 * i) 8 := by
    intro i hi
    rw [pack_append]
    exact bits_add_mul _ _ (by omega)
  have hhigh : ∀ i, bits (pack (fs ++ gs)) (8 * (k + i)) 8 = bits (pack gs) (8 * i) 8 := by
    intro i
    rw [pack_append, hk, Nat.mul_add, ← bits_shift, Nat.add_mul_div_left _ _ (Nat.two_pow_pos _), ← hk,
      Nat.div_eq_of_lt (pack_lt fs), Nat.zero_add]
  constructor
  · intro h
    refine ⟨fun i hi => ?_, fun i hi => ?_⟩
    · rw [h i (by omega), hlow i hi]
    · rw [Nat.add_assoc, h (k + i) (by omega), hhigh]
  · rintro ⟨hf, hg⟩ i hi
    rcases Nat.lt_or_ge (8 * i) (width fs) with hlt | hge
    · rw [hf i hlt, hlow i hlt]
    · obtain ⟨j, rfl⟩ := Nat.exists_eq_add_of_le (show k ≤ i by omega)
      rw [← Nat.add_assoc, hg j (by omega), hhigh]

/-- Memory with some structures in it; where they overlap the first one is there. -/
def image : List (Nat × List Field) → Nat → UInt8
  | [], _ => 0
  | (a, fs) :: rest, x =>
      if a ≤ x ∧ 8 * (x - a) < width fs then UInt8.ofNat (bits (pack fs) (8 * (x - a)) 8) else image rest x

theorem holds_image (a : Nat) (fs : List Field) (rest : List (Nat × List Field)) :
    Holds (image ((a, fs) :: rest)) a fs := by
  intro i hi
  have hin : a ≤ a + i ∧ 8 * (a + i - a) < width fs := ⟨Nat.le_add_right a i, by rwa [Nat.add_sub_cancel_left]⟩
  rw [image, if_pos hin, Nat.add_sub_cancel_left, UInt8.toNat_ofNat']
  exact Nat.mod_eq_of_lt (bits_lt _ _ 8)

theorem Holds.image_cons {rest : List (Nat × List Field)} (h : Holds (image rest) a fs) {b : Nat}
    (hapart : ∀ i, 8 * i < width fs → ¬ (b ≤ a + i ∧ 8 * (a + i - b) < width gs)) :
    Holds (image ((b, gs) :: rest)) a fs := by
  intro i hi
  rw [image, if_neg (hapart i hi)]
  exact h i hi

end holds
end Lucix.BitFields
