import Lucix.PrintkNumber
import Lucix.Strtol

/-! `strtol` on the text of an integer conversion: what is printed is read back. -/
namespace Lucix.Printk
open Initramfs Positional

/-! ### Conversions of the switch -/

section conversions
variable {δ : Type*} {floats : FloatOutput δ} {mem : Nat → List UInt8} {spec : UInt8} {flags : Flags}
  {va va' : List (Arg δ)} {m width prec : Nat} {negative : Bool}

theorem specBase_ge (hbinary : spec ≠ 'b'.toUInt8) : 8 ≤ specBase spec := by
  unfold specBase
  split_ifs <;> decide

theorem specBase_bounds (spec : UInt8) : 2 ≤ specBase spec ∧ specBase spec ≤ 16 := by
  unfold specBase
  split_ifs <;> decide

theorem integerFlags_precision (spec : UInt8) (flags : Flags) :
    (integerFlags spec flags).precision = flags.precision := by
  unfold integerFlags
  dsimp only
  split_ifs <;> rfl

theorem integerFlags_hash (h : flags.hash = false ∨ specBase spec = 10) : (integerFlags spec flags).hash = false := by
  unfold integerFlags
  dsimp only
  split_ifs <;> simp_all

/-- The flag `0` does not count where a precision is given. -/
theorem integerFlags_zeropad (h : (integerFlags spec flags).precision = true) :
    (integerFlags spec flags).zeropad = false := by
  rw [integerFlags_precision] at h
  unfold integerFlags
  dsimp only
  split_ifs <;> simp_all

theorem magnitude_le {bits : Nat} {value : Int} {n : Nat} (h : magnitude bits value = some n) : n = value.natAbs := by
  unfold magnitude at h
  split_ifs at h
  exact (Option.some.inj h).symm

theorem vaWord_lt {r : Nat × List (Arg δ)} (h : vaWord va = some r) : r.1 < 2 ^ 64 := by
  cases va with
  | nil => contradiction
  | cons a va =>
      cases a with
      | word v =>
          rw [← Option.some.inj h]
          exact v.toNat_lt
      | double x => contradiction

theorem bmod_natAbs_le (v : Nat) {m : Nat} (hm : 0 < m) : (Int.bmod v m).natAbs ≤ m := by
  have hlo := Int.le_bmod (x := v) hm
  have hhi := Int.bmod_lt (x := v) hm
  omega

theorem readInteger_lt (h : readInteger spec flags va = some (m, negative, va')) : m < 2 ^ 64 := by
  obtain ⟨⟨v, rest⟩, hword, h⟩ := Option.bind_eq_some_iff.mp h
  have hv : v < 2 ^ 64 := vaWord_lt hword
  dsimp only at h
  by_cases hsigned : spec = 'i'.toUInt8 ∨ spec = 'd'.toUInt8
  · rw [if_pos hsigned] at h
    by_cases hlong : flags.longLong = true ∨ flags.long = true
    · rw [if_pos hlong] at h
      obtain ⟨n, hn, heq⟩ := Option.map_eq_some_iff.mp h
      have hm : m = (toInt64 v).natAbs := (Prod.mk.inj heq).1 ▸ magnitude_le hn
      by_cases hhigh : v < 2 ^ 63
      · rw [toInt64_of_lt hhigh] at hm
        omega
      · rw [toInt64_of_ge (Nat.not_lt.mp hhigh)] at hm
        omega
    · rw [if_neg hlong] at h
      obtain ⟨n, hn, heq⟩ := Option.map_eq_some_iff.mp h
      rw [← (Prod.mk.inj heq).1, magnitude_le hn]
      split_ifs
      · have hbyte := (UInt8.ofNat v).toNat_lt
        unfold charValue
        split_ifs <;> omega
      · exact (bmod_natAbs_le v (by norm_num)).trans_lt (by norm_num)
      · exact (bmod_natAbs_le v (by norm_num)).trans_lt (by norm_num)
  · rw [if_neg hsigned] at h
    by_cases hlong : flags.longLong = true ∨ flags.long = true
    · rw [if_pos hlong] at h
      rw [← (Prod.mk.inj (Option.some.inj h)).1]
      exact hv
    · rw [if_neg hlong] at h
      rw [← (Prod.mk.inj (Option.some.inj h)).1]
      split_ifs <;> omega

theorem evalSpecifier_integer (hint : isInteger spec = true) (hwidth : width < 2 ^ 64)
    (hread : readInteger spec (integerFlags spec flags) va = some (m, negative, va')) {σ : Type*} (out : OutFct σ)
    (d : UInt64 × σ) : evalSpecifier floats mem out spec flags width prec va d =
      some (va', send out (numberText m negative (specBase spec) prec width (integerFlags spec flags)) d) := by
  rw [evalSpecifier_eq hwidth, specifierText, if_pos hint]
  dsimp only
  rw [hread]
  rfl

/-- A receiver that keeps everything. -/
def collect : OutFct (List UInt8) := fun c _ s => s ++ [c]

theorem send_collect (text : List UInt8) (d : UInt64 × List UInt8) : (send collect text d).2 = d.2 ++ text := by
  induction text generalizing d with
  | nil => exact (List.append_nil _).symm
  | cons c text ih => exact (ih _).trans (List.append_assoc d.2 [c] text)

/-- A conversion of an integer is the one that C documents, whatever receives it, exactly if what is asked
for fits the buffer and no precision is given to a field that is filled from the left. -/
theorem integer_standard_iff (hint : isInteger spec = true) (hbinary : spec ≠ 'b'.toUInt8)
    (hhash : flags.hash = false ∨ specBase spec = 10) (hprec : flags.precision = false → prec = 0)
    (hwidth : width < 2 ^ 64) (hread : readInteger spec (integerFlags spec flags) va = some (m, negative, va')) :
    (∀ (σ : Type) (out : OutFct σ) (d : UInt64 × σ), evalSpecifier floats mem out spec flags width prec va d =
        some (va', send out (standardText m negative (specBase spec) prec width (integerFlags spec flags)) d)) ↔
      Conforms m negative (specBase spec) prec width (integerFlags spec flags) := by
  rw [← numberText_standard_iff (specBase_ge hbinary) (readInteger_lt hread) (specBase_bounds spec).2
    (integerFlags_hash hhash) (integerFlags_precision spec flags ▸ hprec) integerFlags_zeropad]
  constructor
  · intro hall
    have hsent := hall (List UInt8) collect (0, [])
    rw [evalSpecifier_integer hint hwidth hread] at hsent
    have htext := congrArg (fun r => r.2.2) (Option.some.inj hsent)
    simpa only [send_collect, List.nil_append] using htext
  · intro htext σ out d
    rw [evalSpecifier_integer hint hwidth hread, htext]

end conversions

/-! ### Digits that are read back -/

section readback
variable {base value width prec z : Nat} {upper negative : Bool} {flags : Flags} {buf : List UInt8}

theorem digitOf_digitChar {v : Nat} (h : v < 16) (upper : Bool) : DigitOf v (digitChar upper v) := by
  have hall : ∀ v < 16, ∀ upper, DigitOf v (digitChar upper v) := by decide
  exact hall v h upper

/-- What the buffer has room for of the digits is a numeral of the value up to that many digits. -/
theorem digitBuffer_numeral (hbase : 2 ≤ base) (hle : base ≤ 16) (hshown : flags.precision = false ∨ value ≠ 0)
    (z : Nat) : Numeral base (value % base ^ 32)
      (List.replicate z '0'.toUInt8 ++ (digitBuffer value base flags).reverse) := by
  obtain ⟨vs, hvs, hne, hlt, hsum⟩ : ∃ vs : List Nat, digitBuffer value base flags =
      vs.map (digitChar flags.uppercase) ∧ vs ≠ [] ∧ (∀ v ∈ vs, v < base) ∧
        Nat.ofDigits base vs = value % base ^ 32 := by
    rw [digitBuffer, if_pos hshown, ntoaBufferSize, ntoaLoop_eq hbase, List.nil_append]
    refine ⟨_, rfl, ?_, ?_, ?_⟩
    · split_ifs with hzero
      · simp
      · rw [Nat.digits_def' hbase (Nat.pos_of_ne_zero hzero), List.take_succ_cons]
        simp
    · split_ifs with hzero
      · intro v hv
        rw [List.mem_singleton.mp hv]
        omega
      · exact fun v hv => Nat.digits_lt_base hbase (List.mem_of_mem_take hv)
    · split_ifs with hzero
      · rw [hzero, Nat.zero_mod]
        rfl
      · exact (Nat.self_mod_pow_eq_ofDigits_take 32 value hbase).symm
  have hsmall : ∀ v ∈ List.replicate z 0 ++ vs.reverse, v < base := by
    intro v hv
    rcases List.mem_append.mp hv with hzero | hdigit
    · rw [List.eq_of_mem_replicate hzero]
      omega
    · exact hlt v (List.mem_reverse.mp hdigit)
  have hbytes : List.replicate z '0'.toUInt8 ++ (digitBuffer value base flags).reverse =
      (List.replicate z 0 ++ vs.reverse).map (digitChar flags.uppercase) := by
    rw [hvs, List.map_append, List.map_replicate, List.map_reverse]
    rfl
  rw [hbytes]
  constructor
  · simp [hne]
  · refine ⟨List.replicate z 0 ++ vs.reverse, ?_, hsmall, ?_⟩
    · rw [List.forall₂_map_right_iff, List.forall₂_same]
      exact fun v hv => digitOf_digitChar ((hsmall v hv).trans_le hle) _
    · rw [← value_eq_ofDigits, value_zeros_append, value_eq_ofDigits, List.reverse_reverse, hsum]

theorem padLeadingZeros_eq (buf : List UInt8) (negative : Bool) (prec width : Nat) (flags : Flags) :
    ∃ z, (padLeadingZeros buf negative prec width flags).1 = buf ++ List.replicate z '0'.toUInt8 := by
  unfold padLeadingZeros
  split_ifs
  · exact ⟨0, (List.append_nil buf).symm⟩
  all_goals
    simp only [fillZeros, List.append_assoc, List.replicate_append_replicate]
    exact ⟨_, rfl⟩

theorem numberText_parts (hhash : flags.hash = false) (value base prec width : Nat) (negative : Bool) : ∃ j z k,
    let ds := List.replicate z '0'.toUInt8 ++ (digitBuffer value base flags).reverse
    numberText value negative base prec width flags =
      List.replicate j ' '.toUInt8 ++ fittingSign negative flags ds ++ ds ++ List.replicate k ' '.toUInt8 := by
  obtain ⟨z, hz⟩ := padLeadingZeros_eq (digitBuffer value base flags) negative prec width flags
  have hrev : (digitBuffer value base flags ++ List.replicate z '0'.toUInt8).reverse =
      List.replicate z '0'.toUInt8 ++ (digitBuffer value base flags).reverse := by
    rw [List.reverse_append, List.reverse_replicate]
  have hlen := congrArg List.length hrev
  rw [List.length_reverse] at hlen
  rw [numberText_of_not_hash hhash]
  dsimp only
  rw [hz, hrev, hlen, ← fittingSign]
  generalize (padLeadingZeros (digitBuffer value base flags) negative prec width flags).2 -
    (fittingSign negative flags (List.replicate z '0'.toUInt8 ++ (digitBuffer value base flags).reverse) ++
      (List.replicate z '0'.toUInt8 ++ (digitBuffer value base flags).reverse)).length = n
  refine ⟨if flags.left = false ∧ flags.zeropad = false then n else 0, z, if flags.left then n else 0, ?_⟩
  simp only [List.append_assoc]
  congr 1
  · split_ifs <;> rfl
  · congr 3
    split_ifs <;> rfl

theorem not_isDigit_of_not_hexdigit {t : UInt8} (h : hexdigit t = false) : ¬ IsDigit base t := by
  rw [isDigit_iff, h]
  exact fun h => absurd h.1 Bool.false_ne_true

theorem Numeral.decodes_terminated {n k : Nat} {ds rest : List UInt8} (h : Numeral base n ds) (hn : n < 2 ^ 63)
    (hbase : base ≠ 0) : Decodes (ds ++ (List.replicate k ' '.toUInt8 ++ 0 :: rest)) base n ds.length := by
  cases k with
  | zero => exact h.decodes_bare hn (not_isDigit_of_not_hexdigit (t := 0) (by decide)) (chooseBase_given _ hbase)
  | succ k =>
      rw [List.replicate_succ, List.cons_append]
      exact h.decodes_bare hn (not_isDigit_of_not_hexdigit (by decide)) (chooseBase_given _ hbase)

end readback

section roundtrip
variable {δ : Type*} {floats : FloatOutput δ} {mem : Nat → List UInt8} {spec : UInt8} {flags : Flags}
  {va va' : List (Arg δ)} {m width prec : Nat} {negative : Bool}

/-- The text of a conversion without a prefix is spaces, the sign unless the digits fill the buffer, digits
and spaces; `strtol` in the base of the conversion reads from the digits the value up to 32 of them. -/
theorem strtol_reads_conversion (hint : isInteger spec = true) (hhash : flags.hash = false ∨ specBase spec = 10)
    (hwidth : width < 2 ^ 64) (hread : readInteger spec (integerFlags spec flags) va = some (m, negative, va'))
    (hshown : flags.precision = false ∨ m ≠ 0) (hfits : m % specBase spec ^ 32 < 2 ^ 63) :
    ∃ (j k : Nat) (ds : List UInt8),
      (∀ (σ : Type) (out : OutFct σ) (d : UInt64 × σ), evalSpecifier floats mem out spec flags width prec va d =
        some (va', send out (List.replicate j ' '.toUInt8 ++ fittingSign negative (integerFlags spec flags) ds ++ ds
          ++ List.replicate k ' '.toUInt8) d)) ∧
      ∀ rest, Decodes (ds ++ (List.replicate k ' '.toUInt8 ++ 0 :: rest)) (specBase spec)
        (m % specBase spec ^ 32) ds.length := by
  obtain ⟨hbase, hle⟩ := specBase_bounds spec
  obtain ⟨j, z, k, htext⟩ := numberText_parts (integerFlags_hash hhash) m (specBase spec) prec width negative
  refine ⟨j, k, List.replicate z '0'.toUInt8 ++ (digitBuffer m (specBase spec) (integerFlags spec flags)).reverse,
    fun σ out d => ?_, fun rest => ?_⟩
  · rw [evalSpecifier_integer hint hwidth hread, htext]
  · refine Numeral.decodes_terminated (digitBuffer_numeral hbase hle ?_ z) hfits (by omega)
    rw [integerFlags_precision]
    exact hshown

end roundtrip

/-! ### Prefixes -/

section prefixes
variable {base m width prec : Nat} {flags : Flags} {buf : List UInt8}

/-- The digits that a value has in a base. -/
def digitCount (base m : Nat) : Nat := (Nat.digits base m).length

/-- The length that the digits are filled to. -/
def filledLength (base m prec width : Nat) (flags : Flags) : Nat :=
  if flags.left then digitCount base m
  else max (digitCount base m) (max prec (if flags.zeropad then width else 0))

/-- How many of them are kept behind the prefix. -/
def keptDigits (base m prec width : Nat) (flags : Flags) : Nat :=
  if flags.precision = false ∧ filledLength base m prec width flags = width then
    filledLength base m prec width flags - (if base = 16 then 2 else 1)
  else filledLength base m prec width flags

/-- The prefix that the flag `#` writes. -/
def basePrefix (base : Nat) : List UInt8 := if base = 16 then ['0'.toUInt8, 'x'.toUInt8] else ['0'.toUInt8]

theorem dropForHash_eq (hbase : base = 8 ∨ base = 16) (hbuf : buf ≠ []) (hprec : flags.precision = false → prec = 0) :
    dropForHash buf base prec width flags = buf.take
      (if flags.precision = false ∧ buf.length = width then buf.length - (if base = 16 then 2 else 1)
        else buf.length) := by
  have hpos := List.length_pos_iff.mpr hbuf
  unfold dropForHash
  by_cases hdrop : flags.precision = false ∧ buf.length = width
  · rw [if_pos ⟨hdrop.1, hpos.ne', Or.inr hdrop.2⟩, if_pos hdrop]
    dsimp only
    rcases hbase with rfl | rfl
    · rw [if_neg (by simp), if_neg (by decide), List.dropLast_eq_take]
    · rw [if_pos rfl, List.length_dropLast]
      by_cases hone : buf.length - 1 = 0
      · rw [if_neg (by simp [hone]), List.dropLast_eq_take, hone, show buf.length - 2 = 0 by omega]
      · rw [if_pos ⟨hone, rfl⟩, List.dropLast_eq_take, List.dropLast_eq_take, List.take_take, List.length_take]
        congr 1
        omega
  · rw [if_neg hdrop, List.take_length, if_neg]
    rintro ⟨hnone, -, hlen⟩
    rcases hlen with hlen | hlen
    · rw [hprec hnone] at hlen
      omega
    · exact hdrop ⟨hnone, hlen⟩

/-- Digits of the value are dropped where they just fill the field, and one of them where the field is one
wider, is filled with zeros and has room to be made for two letters. -/
theorem digitCount_le_keptDigits_iff (hbase : base = 8 ∨ base = 16) (hm : m ≠ 0)
    (hprec : flags.precision = false → prec = 0) :
    digitCount base m ≤ keptDigits base m prec width flags ↔ flags.precision = true ∨
      (width ≠ digitCount base m ∧
        ¬ (base = 16 ∧ flags.zeropad = true ∧ flags.left = false ∧ width = digitCount base m + 1)) := by
  have hpos : 0 < digitCount base m := List.length_pos_iff.mpr (Nat.digits_ne_nil_iff_ne_zero.mpr hm)
  unfold keptDigits filledLength
  generalize digitCount base m = n at *
  cases hp : flags.precision with
  | true =>
      refine iff_of_true ?_ (Or.inl rfl)
      rw [if_neg (by simp)]
      split_ifs <;> omega
  | false =>
      rw [hprec hp]
      rcases hbase with rfl | rfl
      all_goals
        cases flags.left with
        | true =>
            simp only [if_true, true_and]
            split_ifs <;> simp <;> omega
        | false =>
            cases flags.zeropad with
            | true =>
                simp only [if_true, Bool.false_eq_true, if_false, true_and]
                split_ifs <;> simp <;> omega
            | false =>
                simp only [Bool.false_eq_true, if_false, true_and]
                split_ifs <;> simp <;> omega

/-- The prefix and the digits have room in the buffer. -/
def PrefixFits (prec width : Nat) (flags : Flags) : Prop :=
  flags.left = false → prec ≤ 30 ∧ (flags.zeropad = true → width ≤ 32)

theorem PrefixFits.bounds (hroom : PrefixFits prec width flags) (hbase : base = 8 ∨ base = 16) (hm : m < 2 ^ 64)
    (hzeropad : flags.precision = true → flags.zeropad = false) (hprec : flags.precision = false → prec = 0) :
    filledLength base m prec width flags ≤ 32 ∧
      keptDigits base m prec width flags + (basePrefix base).length ≤ 32 := by
  have hcount : digitCount base m ≤ 22 := digits_length_le (by rcases hbase with rfl | rfl <;> norm_num) hm
  unfold PrefixFits at hroom
  unfold keptDigits filledLength basePrefix
  generalize digitCount base m = n at *
  cases hl : flags.left with
  | true =>
      rcases hbase with rfl | rfl <;> simp only [if_true] <;> split_ifs <;> simp <;> omega
  | false =>
      obtain ⟨hsmall, hwidth⟩ := hroom hl
      cases hz : flags.zeropad with
      | true =>
          have hnone : flags.precision = false := by
            by_contra h
            have := hzeropad (Bool.not_eq_false _ ▸ h)
            rw [hz] at this
            contradiction
          have hwide := hwidth hz
          rw [hprec hnone]
          rcases hbase with rfl | rfl <;> simp only [hnone, if_true, Bool.false_eq_true, if_false, true_and] <;>
            split_ifs <;> simp <;> omega
      | false =>
          rcases hbase with rfl | rfl <;> simp only [Bool.false_eq_true, if_false] <;> split_ifs <;> simp <;> omega

theorem digitBuffer_of_ne_zero (hbase : 8 ≤ base) (hm : m ≠ 0) (hlt : m < 2 ^ 64) :
    digitBuffer m base flags = (Nat.digits base m).map (digitChar flags.uppercase) := by
  rw [digitBuffer_eq hbase hlt, if_neg (fun h => hm h.2), numeral, if_neg hm, ← List.map_reverse,
    List.reverse_reverse]

theorem padLeadingZeros_filled (hplus : flags.plus = false) (hspace : flags.space = false)
    (hbuf : buf.length = digitCount base m) (hfits : filledLength base m prec width flags ≤ 32) :
    padLeadingZeros buf false prec width flags =
      (buf ++ List.replicate (filledLength base m prec width flags - buf.length) '0'.toUInt8, width) := by
  unfold padLeadingZeros
  unfold filledLength at hfits ⊢
  rw [hbuf]
  by_cases hl : flags.left = true
  · rw [if_pos hl, if_pos hl, Nat.sub_self]
    exact Prod.ext (List.append_nil buf).symm rfl
  rw [if_neg hl] at hfits
  rw [if_neg hl, if_neg hl]
  simp only [hplus, hspace, Bool.false_eq_true, or_self, and_false, if_false]
  refine Prod.ext ?_ rfl
  dsimp only
  by_cases hz : flags.zeropad = true
  · rw [if_pos hz] at hfits
    rw [if_pos hz, if_pos hz, fillZeros, fillZeros, List.append_assoc, List.replicate_append_replicate,
      List.length_append, List.length_replicate, hbuf]
    congr 2
    unfold ntoaBufferSize
    omega
  · rw [if_neg hz] at hfits
    rw [if_neg hz, if_neg hz, fillZeros, hbuf]
    congr 2
    unfold ntoaBufferSize
    omega

/-- The digits and zeros that are kept, the least significant first. -/
def keptValues (base m prec width : Nat) (flags : Flags) : List Nat :=
  (Nat.digits base m ++ List.replicate (filledLength base m prec width flags - digitCount base m) 0).take
    (keptDigits base m prec width flags)

theorem handleHash_eq {kept : List UInt8} (hbase : base = 8 ∨ base = 16) (hhash : flags.hash = true)
    (hlower : flags.uppercase = false) (hdrop : dropForHash buf base prec width flags = kept)
    (hroom : kept.length + (basePrefix base).length ≤ 32) :
    handleHash buf base prec width flags = kept ++ (basePrefix base).reverse := by
  rw [handleHash, if_pos hhash, hdrop, appendBaseLetter]
  rcases hbase with rfl | rfl
  · have hlt : kept.length < ntoaBufferSize := by
      simp only [basePrefix, show (8 : Nat) ≠ 16 by decide, if_false, List.length_singleton] at hroom
      unfold ntoaBufferSize
      omega
    rw [if_neg (by simp), if_neg (by simp), if_neg (by simp), push, if_pos hlt]
    rfl
  · simp only [basePrefix, if_true, List.length_cons, List.length_nil] at hroom
    have hlt : kept.length < ntoaBufferSize := by
      unfold ntoaBufferSize
      omega
    have hlt' : (kept ++ ['x'.toUInt8]).length < ntoaBufferSize := by
      rw [List.length_append, List.length_singleton]
      unfold ntoaBufferSize
      omega
    rw [if_pos ⟨rfl, hlower, hlt⟩, push, if_pos hlt', List.append_assoc]
    rfl

theorem revText_parts (buf : List UInt8) (width : Nat) (flags : Flags) :
    ∃ j k, revText buf width flags = List.replicate j ' '.toUInt8 ++ buf.reverse ++ List.replicate k ' '.toUInt8 := by
  refine ⟨if flags.left = false ∧ flags.zeropad = false then width - buf.length else 0,
    if flags.left then width - buf.length else 0, ?_⟩
  unfold revText
  dsimp only
  congr 1
  · congr 1
    split_ifs <;> rfl
  · split_ifs <;> rfl

theorem numberText_prefixed (hbase : base = 8 ∨ base = 16) (hm : m ≠ 0) (hlt : m < 2 ^ 64)
    (hplus : flags.plus = false) (hspace : flags.space = false) (hhash : flags.hash = true)
    (hlower : flags.uppercase = false) (hprec : flags.precision = false → prec = 0)
    (hzeropad : flags.precision = true → flags.zeropad = false) (hroom : PrefixFits prec width flags) :
    ∃ j k, numberText m false base prec width flags = List.replicate j ' '.toUInt8 ++
      (basePrefix base ++ (keptValues base m prec width flags).reverse.map (digitChar false)) ++
        List.replicate k ' '.toUInt8 := by
  obtain ⟨hfilled, hkept⟩ := hroom.bounds hbase hlt hzeropad hprec
  have hbase8 : 8 ≤ base := by rcases hbase with rfl | rfl <;> norm_num
  have hflags : hashFlags m flags = flags := if_neg hm
  have hdigits : digitBuffer m base flags = (Nat.digits base m).map (digitChar false) := by
    rw [digitBuffer_of_ne_zero hbase8 hm hlt, hlower]
  have hcount : (digitBuffer m base flags).length = digitCount base m := by rw [hdigits, List.length_map]; rfl
  have hle : digitCount base m ≤ filledLength base m prec width flags := by
    unfold filledLength
    split_ifs <;> omega
  have hpos : 0 < digitCount base m := List.length_pos_iff.mpr (Nat.digits_ne_nil_iff_ne_zero.mpr hm)
  have hvalues : digitBuffer m base flags ++
      List.replicate (filledLength base m prec width flags - (digitBuffer m base flags).length) '0'.toUInt8 =
        (Nat.digits base m ++ List.replicate (filledLength base m prec width flags - digitCount base m) 0).map
          (digitChar false) := by
    rw [hcount, hdigits, List.map_append, List.map_replicate]
    rfl
  have hlength : ((Nat.digits base m ++
      List.replicate (filledLength base m prec width flags - digitCount base m) 0).map (digitChar false)).length =
        filledLength base m prec width flags := by
    rw [List.length_map, List.length_append, List.length_replicate]
    change digitCount base m + _ = _
    omega
  have hdrop : dropForHash ((Nat.digits base m ++
      List.replicate (filledLength base m prec width flags - digitCount base m) 0).map (digitChar false))
        base prec width flags = (keptValues base m prec width flags).map (digitChar false) := by
    rw [dropForHash_eq hbase (List.ne_nil_of_length_pos (by omega)) hprec, hlength, ← keptDigits, ← List.map_take,
      ← keptValues]
  have hshort : ((keptValues base m prec width flags).map (digitChar false)).length + (basePrefix base).length ≤
      32 := by
    rw [List.length_map, keptValues, List.length_take]
    omega
  obtain ⟨j, k, htext⟩ := revText_parts
    ((keptValues base m prec width flags).map (digitChar false) ++ (basePrefix base).reverse) width flags
  refine ⟨j, k, ?_⟩
  rw [List.reverse_append, List.reverse_reverse, ← List.map_reverse] at htext
  rw [← htext, numberText, formatBuffer, hflags, padLeadingZeros_filled hplus hspace hcount hfilled, hvalues]
  dsimp only
  rw [handleHash_eq hbase hhash hlower hdrop hshort, appendSign]
  simp [hplus, hspace]

theorem keptValues_lt (hbase : 2 ≤ base) : ∀ v ∈ keptValues base m prec width flags, v < base := by
  intro v hv
  rcases List.mem_append.mp (List.mem_of_mem_take hv) with hdigit | hzero
  · exact Nat.digits_lt_base hbase hdigit
  · rw [List.eq_of_mem_replicate hzero]
    omega

theorem keptValues_value (hbase : 2 ≤ base) :
    Nat.ofDigits base (keptValues base m prec width flags) = m % base ^ keptDigits base m prec width flags := by
  have hall : ∀ v ∈ Nat.digits base m ++
      List.replicate (filledLength base m prec width flags - digitCount base m) 0, v < base := by
    intro v hv
    rcases List.mem_append.mp hv with hdigit | hzero
    · exact Nat.digits_lt_base hbase hdigit
    · rw [List.eq_of_mem_replicate hzero]
      omega
  have hwhole : Nat.ofDigits base (Nat.digits base m ++
      List.replicate (filledLength base m prec width flags - digitCount base m) 0) = m := by
    rw [Nat.ofDigits_append_replicate_zero, Nat.ofDigits_digits]
  rw [keptValues, ← Nat.ofDigits_mod_pow_eq_ofDigits_take _ (by omega) _ hall, hwhole]

/-- `strtol` finds the base by the prefix and reads the digits that are kept. -/
theorem strtolLong_prefixed (prec width : Nat) (flags : Flags) (hbase : base = 8 ∨ base = 16) (hm : m < 2 ^ 63)
    (k : Nat) (rest : List UInt8) :
    strtolLong (basePrefix base ++ (keptValues base m prec width flags).reverse.map (digitChar false) ++
        (List.replicate k ' '.toUInt8 ++ 0 :: rest)) 0 =
      some (m % base ^ keptDigits base m prec width flags,
        (basePrefix base).length + (keptValues base m prec width flags).length) := by
  obtain ⟨h2, h16⟩ : 2 ≤ base ∧ base ≤ 16 := by rcases hbase with rfl | rfl <;> norm_num
  generalize hvs : keptValues base m prec width flags = vs
  have hlt : ∀ v ∈ vs.reverse, v < base := fun v hv => keptValues_lt h2 v (hvs ▸ List.mem_reverse.mp hv)
  have hvalue : valueFrom base 0 vs.reverse = m % base ^ keptDigits base m prec width flags := by
    rw [← keptValues_value h2, hvs, ← List.reverse_reverse vs, ← value_eq_ofDigits, List.reverse_reverse]
    rfl
  have hbound : valueFrom base 0 vs.reverse < 2 ^ 63 := by
    rw [hvalue]
    exact (Nat.mod_le _ _).trans_lt hm
  have hdigits : List.Forall₂ DigitOf vs.reverse (vs.reverse.map (digitChar false)) := by
    rw [List.forall₂_map_right_iff, List.forall₂_same]
    exact fun v hv => digitOf_digitChar ((hlt v hv).trans_le h16) _
  obtain ⟨t, tail, htail, ht, htx⟩ : ∃ t tail, List.replicate k ' '.toUInt8 ++ 0 :: rest = t :: tail ∧
      ¬ IsDigit base t ∧ t ≠ 120 := by
    cases k with
    | zero => exact ⟨0, rest, rfl, not_isDigit_of_not_hexdigit (by decide), by decide⟩
    | succ k => exact ⟨_, _, List.cons_append, not_isDigit_of_not_hexdigit (by decide), by decide⟩
  have hlen : (vs.reverse.map (digitChar false)).length = vs.length := by rw [List.length_map, List.length_reverse]
  rw [htail]
  rcases hbase with rfl | rfl
  · have hchoose : chooseBase (48 :: (vs.reverse.map (digitChar false) ++ t :: tail)) 0 = (8, 1) := by
      cases hr : vs.reverse with
      | nil => exact chooseBase_octal tail htx
      | cons v ws =>
          refine chooseBase_octal (ws.map (digitChar false) ++ t :: tail) ?_
          have hsmall : ∀ v < 8, digitChar false v ≠ 120 := by decide
          exact hsmall v (hlt v (hr ▸ List.mem_cons_self))
    change strtolLong (48 :: (vs.reverse.map (digitChar false) ++ t :: tail)) 0 = _
    rw [strtolLong, hchoose]
    dsimp only
    rw [List.drop_succ_cons, List.drop_zero, strtolLongLoop_digits hdigits hlt ht hbound, hvalue, hlen]
    rfl
  · change strtolLongLoop 16 (vs.reverse.map (digitChar false) ++ t :: tail) 0 2 = _
    rw [strtolLongLoop_digits hdigits hlt ht hbound, hvalue, hlen]
    rfl

theorem prefixed_decodes_iff (hbase : base = 8 ∨ base = 16) (hm : m < 2 ^ 63) (k : Nat) :
    let body := basePrefix base ++ (keptValues base m prec width flags).reverse.map (digitChar false)
    (∀ rest, Decodes (body ++ (List.replicate k ' '.toUInt8 ++ 0 :: rest)) 0 m body.length) ↔
      digitCount base m ≤ keptDigits base m prec width flags := by
  have h2 : 1 < base := by rcases hbase with rfl | rfl <;> norm_num
  have hlen : (basePrefix base ++ (keptValues base m prec width flags).reverse.map (digitChar false)).length =
      (basePrefix base).length + (keptValues base m prec width flags).length := by
    rw [List.length_append, List.length_map, List.length_reverse]
  dsimp only
  rw [hlen, digitCount, Nat.digits_length_le_iff h2]
  constructor
  · intro hall
    have hread := (hall []).1
    rw [strtolLong_prefixed prec width flags hbase hm] at hread
    exact (Nat.mod_eq_iff_lt (Nat.pow_pos (by omega)).ne').mp (Prod.mk.inj (Option.some.inj hread)).1
  · intro hlt rest
    have hlong := strtolLong_prefixed prec width flags hbase hm k rest
    rw [Nat.mod_eq_of_lt hlt] at hlong
    exact ⟨hlong, strtol_eq_of_long hlong⟩

end prefixes

section hashes
variable {δ : Type*} {floats : FloatOutput δ} {mem : Nat → List UInt8} {spec : UInt8} {flags : Flags}
  {va va' : List (Arg δ)} {m width prec : Nat} {negative : Bool}

theorem integerFlags_unsigned (flags : Flags) (h : spec = 'o'.toUInt8 ∨ spec = 'x'.toUInt8) :
    (integerFlags spec flags).plus = false ∧ (integerFlags spec flags).space = false ∧
      (integerFlags spec flags).hash = flags.hash ∧ (integerFlags spec flags).uppercase = flags.uppercase := by
  have hbase : specBase spec ≠ 10 := by rcases h with rfl | rfl <;> decide
  have hupper : spec ≠ 'X'.toUInt8 := by rcases h with rfl | rfl <;> decide
  have hsigned : spec ≠ 'i'.toUInt8 ∧ spec ≠ 'd'.toUInt8 := by rcases h with rfl | rfl <;> decide
  simp only [integerFlags, if_neg hbase, if_neg hupper, if_pos hsigned]
  split_ifs
  · exact ⟨rfl, rfl, rfl, rfl⟩
  · exact ⟨rfl, rfl, rfl, rfl⟩

theorem readInteger_unsigned (h : spec = 'o'.toUInt8 ∨ spec = 'x'.toUInt8)
    (hread : readInteger spec flags va = some (m, negative, va')) : negative = false := by
  obtain ⟨⟨v, rest⟩, -, hread⟩ := Option.bind_eq_some_iff.mp hread
  dsimp only at hread
  rw [if_neg (by rcases h with rfl | rfl <;> decide)] at hread
  split_ifs at hread
  · exact (Prod.mk.inj (Prod.mk.inj (Option.some.inj hread)).2).1.symm
  all_goals exact (Prod.mk.inj (Prod.mk.inj (Option.some.inj hread)).2).1.symm

/-- With the flag `#` a value above zero is read back by `strtol` without a given base, unless its digits just
fill the field, or leave one place in a field of a hexadecimal number that is filled with zeros. -/
theorem prefix_reads_back_iff (hspec : spec = 'o'.toUInt8 ∨ spec = 'x'.toUInt8) (hhash : flags.hash = true)
    (hlower : flags.uppercase = false) (hprec : flags.precision = false → prec = 0) (hwidth : width < 2 ^ 64)
    (hroom : PrefixFits prec width (integerFlags spec flags))
    (hread : readInteger spec (integerFlags spec flags) va = some (m, negative, va')) (hm : m ≠ 0)
    (hlt : m < 2 ^ 63) :
    ∃ (j k : Nat) (body : List UInt8),
      (∀ (σ : Type) (out : OutFct σ) (d : UInt64 × σ), evalSpecifier floats mem out spec flags width prec va d =
        some (va', send out (List.replicate j ' '.toUInt8 ++ body ++ List.replicate k ' '.toUInt8) d)) ∧
      body.head? = some '0'.toUInt8 ∧
      ((∀ rest, Decodes (body ++ (List.replicate k ' '.toUInt8 ++ 0 :: rest)) 0 m body.length) ↔
        flags.precision = true ∨ (width ≠ digitCount (specBase spec) m ∧
          ¬ (specBase spec = 16 ∧ (integerFlags spec flags).zeropad = true ∧
            (integerFlags spec flags).left = false ∧ width = digitCount (specBase spec) m + 1))) := by
  have hint : isInteger spec = true := by rcases hspec with rfl | rfl <;> decide
  have hbase : specBase spec = 8 ∨ specBase spec = 16 := by rcases hspec with rfl | rfl <;> decide
  obtain ⟨hplus, hspace, hhash', hlower'⟩ := integerFlags_unsigned flags hspec
  obtain rfl := readInteger_unsigned hspec hread
  have hprecision := integerFlags_precision spec flags
  obtain ⟨j, k, htext⟩ := numberText_prefixed hbase hm (hlt.trans (by norm_num)) hplus hspace (hhash'.trans hhash)
    (hlower'.trans hlower) (hprecision ▸ hprec) integerFlags_zeropad hroom
  refine ⟨j, k, basePrefix (specBase spec) ++
    (keptValues (specBase spec) m prec width (integerFlags spec flags)).reverse.map (digitChar false), ?_, ?_, ?_⟩
  · intro σ out d
    rw [evalSpecifier_integer hint hwidth hread, htext]
  · rcases hbase with h | h <;> rw [h] <;> rfl
  · refine (prefixed_decodes_iff hbase hlt k).trans ?_
    rw [digitCount_le_keptDigits_iff hbase hm (hprecision ▸ hprec), hprecision]

end hashes

/-- The conversion `%#6o` of 64. -/
theorem prefix_reads_back_iff_octal : ∃ (j k : Nat) (body : List UInt8),
    (∀ (σ : Type) (out : OutFct σ) (d : UInt64 × σ),
      evalSpecifier noFloats (fun _ => []) out 'o'.toUInt8 { hash := true } 6 0 [.word 64] d =
        some ([], send out (List.replicate j ' '.toUInt8 ++ body ++ List.replicate k ' '.toUInt8) d)) ∧
      ∀ rest, Decodes (body ++ (List.replicate k ' '.toUInt8 ++ 0 :: rest)) 0 64 body.length := by
  have hread : readInteger 'o'.toUInt8 (integerFlags 'o'.toUInt8 { hash := true }) ([.word 64] : List (Arg Unit)) =
      some (64, false, []) := by decide +kernel
  obtain ⟨j, k, body, hsend, -, hiff⟩ := prefix_reads_back_iff (Or.inl rfl) rfl rfl (fun _ => rfl)
    (by norm_num : 6 < 2 ^ 64) (fun _ => ⟨by decide, fun h => absurd h (by decide)⟩) hread (by decide) (by norm_num)
  have hcount : digitCount 8 64 = 3 := by norm_num [digitCount]
  refine ⟨j, k, body, hsend, hiff.mpr (Or.inr ⟨?_, fun h => absurd h.1 (by decide)⟩)⟩
  change 6 ≠ digitCount 8 64
  rw [hcount]
  decide

/-- The conversion `%-6d` of -42. -/
theorem integer_standard_iff_left :
    evalSpecifier noFloats (fun _ => []) collect 'd'.toUInt8 { left := true } 6 0 [.word (-42)] (0, []) =
      some ([], send collect "-42   ".toUTF8.toList (0, [])) := by
  have hread : readInteger 'd'.toUInt8 (integerFlags 'd'.toUInt8 { left := true }) ([.word (-42)] : List (Arg Unit)) =
      some (42, true, []) := by decide +kernel
  have htext : standardText 42 true 10 0 6 (integerFlags 'd'.toUInt8 { left := true }) = "-42   ".toUTF8.toList := by
    decide +kernel
  rw [← htext]
  exact (integer_standard_iff (by decide) (by decide) (Or.inl rfl) (fun _ => rfl) (by norm_num) hread).mpr
    (by decide +kernel) _ collect (0, [])

/-- The conversion `%.3ld` of 5. -/
theorem strtol_reads_conversion_padded : ∃ (j k : Nat) (ds : List UInt8),
    (∀ (σ : Type) (out : OutFct σ) (d : UInt64 × σ),
      evalSpecifier noFloats (fun _ => []) out 'd'.toUInt8 { long := true, precision := true } 0 3 [.word 5] d =
        some ([], send out (List.replicate j ' '.toUInt8 ++ fittingSign false
          (integerFlags 'd'.toUInt8 { long := true, precision := true }) ds ++ ds ++
            List.replicate k ' '.toUInt8) d)) ∧
      ∀ rest, Decodes (ds ++ (List.replicate k ' '.toUInt8 ++ 0 :: rest)) (specBase 'd'.toUInt8)
        (5 % specBase 'd'.toUInt8 ^ 32) ds.length := by
  refine strtol_reads_conversion (by decide) (Or.inl rfl) (by norm_num) ?_ (Or.inr (by decide)) (by decide +kernel)
  decide +kernel

end Lucix.Printk
