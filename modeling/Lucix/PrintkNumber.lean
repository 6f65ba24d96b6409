import Mathlib.Data.Nat.Digits.Lemmas
import Lucix.PrintkFormat

/-! The text of an integer against the one that C documents: a sign, at least `precision` digits, and
the field filled with spaces or zeros. -/
namespace Lucix.Printk
open Positional

/-! ### Digits -/

/-- The shortest numeral of the value, the most significant digit first. -/
def numeral (base : Nat) (upper : Bool) (value : Nat) : List UInt8 :=
  (if value = 0 then [0] else (Nat.digits base value).reverse).map (digitChar upper)

section digits
variable {base value : Nat} {upper : Bool} {flags : Flags}

/-- The loop leaves the digits in the buffer, the least significant one first, as many as it has room for. -/
theorem ntoaLoop_eq (hbase : 2 ≤ base) (room value : Nat) (buf : List UInt8) :
    ntoaLoop base upper (room + 1) value buf =
      buf ++ (if value = 0 then [0] else (Nat.digits base value).take (room + 1)).map (digitChar upper) := by
  induction room generalizing value buf with
  | zero =>
      have hloop : ntoaLoop base upper 1 value buf = buf ++ [digitChar upper (value % base)] := by
        simp [ntoaLoop]
      rw [hloop]
      by_cases hzero : value = 0
      · rw [if_pos hzero, hzero, Nat.zero_mod]
        rfl
      · rw [if_neg hzero, Nat.digits_def' hbase (Nat.pos_of_ne_zero hzero)]
        rfl
  | succ room ih =>
      have hstep : ntoaLoop base upper (room + 1 + 1) value buf =
          if value / base ≠ 0 then
            ntoaLoop base upper (room + 1) (value / base) (buf ++ [digitChar upper (value % base)])
          else buf ++ [digitChar upper (value % base)] := rfl
      rw [hstep]
      by_cases hzero : value = 0
      · rw [hzero, Nat.zero_div, if_neg (not_not.mpr rfl), if_pos rfl, Nat.zero_mod]
        rfl
      rw [if_neg hzero, Nat.digits_def' hbase (Nat.pos_of_ne_zero hzero), List.take_succ_cons]
      split_ifs with hmore
      · rw [ih, if_neg hmore, List.append_assoc]
        rfl
      · rw [not_not.mp hmore, Nat.digits_zero]
        rfl

/-- In these bases a value of 64 bits has fewer digits than the buffer has room for. -/
theorem digits_length_le (hbase : 8 ≤ base) (hvalue : value < 2 ^ 64) : (Nat.digits base value).length ≤ 22 := by
  rw [Nat.digits_length_le_iff (by omega)]
  calc value < 2 ^ 64 := hvalue
    _ ≤ 8 ^ 22 := by norm_num
    _ ≤ base ^ 22 := Nat.pow_le_pow_left hbase 22

theorem digitBuffer_eq (hbase : 8 ≤ base) (hvalue : value < 2 ^ 64) :
    digitBuffer value base flags =
      (if flags.precision ∧ value = 0 then [] else numeral base flags.uppercase value).reverse := by
  have hlen := digits_length_le hbase hvalue
  unfold digitBuffer
  by_cases hzero : value = 0
  · cases hprec : flags.precision with
    | true => simp [hzero]
    | false =>
        rw [if_pos (Or.inl rfl), if_neg (by simp), ntoaBufferSize, ntoaLoop_eq (by omega), if_pos hzero, numeral,
          if_pos hzero]
        rfl
  · rw [if_pos (Or.inr hzero), if_neg (fun h => hzero h.2), ntoaBufferSize, ntoaLoop_eq (by omega), if_neg hzero,
      List.take_of_length_le (by omega), numeral, if_neg hzero, ← List.map_reverse, List.reverse_reverse,
      List.nil_append]

theorem numeral_length_le (hbase : 8 ≤ base) (hvalue : value < 2 ^ 64) :
    (numeral base upper value).length ≤ 22 := by
  have hlen := digits_length_le hbase hvalue
  unfold numeral
  split_ifs
  · simp
  · rw [List.length_map, List.length_reverse]
    exact hlen

/-- The leading digit of a value above zero is not a zero. -/
theorem numeral_head (upper : Bool) (hbase : 8 ≤ base) (hle : base ≤ 16) (hzero : value ≠ 0) :
    ∃ c cs, numeral base upper value = c :: cs ∧ c ≠ '0'.toUInt8 := by
  have hne : Nat.digits base value ≠ [] := Nat.digits_ne_nil_iff_ne_zero.mpr hzero
  obtain ⟨v, vs, hvs⟩ := List.exists_cons_of_ne_nil (fun h => hne (List.reverse_eq_nil_iff.mp h))
  have hlast : (Nat.digits base value).getLast hne = v := by
    rw [← List.head_reverse (by simpa using hne)]
    simp [hvs]
  refine ⟨digitChar upper v, vs.map (digitChar upper), ?_, ?_⟩
  · rw [numeral, if_neg hzero, hvs, List.map_cons]
  · have hnonzero : v ≠ 0 := hlast ▸ Nat.getLast_digit_ne_zero base hzero
    have hlt : v < base := Nat.digits_lt_base (by omega) (List.mem_reverse.mp (hvs ▸ List.mem_cons_self))
    have hall : ∀ v < 16, v ≠ 0 → ∀ upper, digitChar upper v ≠ '0'.toUInt8 := by decide
    exact hall v (by omega) hnonzero upper

end digits

/-! ### The text that C documents -/

def signText (negative : Bool) (flags : Flags) : List UInt8 :=
  if negative then ['-'.toUInt8]
  else if flags.plus then ['+'.toUInt8]
  else if flags.space then [' '.toUInt8]
  else []

/-- No digits for a zero with an explicit precision; the precision then adds its own. -/
def ownDigits (value base : Nat) (flags : Flags) : List UInt8 :=
  if flags.precision ∧ value = 0 then [] else numeral base flags.uppercase value

def zerosTo (n : Nat) (digits : List UInt8) : List UInt8 :=
  List.replicate (n - digits.length) '0'.toUInt8 ++ digits

/-- The sign and the digits in a field, the digits filled up with zeros under the flag `0`. -/
def standardText (value : Nat) (negative : Bool) (base prec width : Nat) (flags : Flags) : List UInt8 :=
  let sign := signText negative flags
  let digits := zerosTo prec (ownDigits value base flags)
  if flags.left = false ∧ flags.zeropad then sign ++ zerosTo (width - sign.length) digits
  else padText flags.left (width - (sign.length + digits.length)) (sign ++ digits)

section standard
variable {value base prec width : Nat} {negative : Bool} {flags : Flags} {buf : List UInt8}

theorem signText_length_le (negative : Bool) (flags : Flags) : (signText negative flags).length ≤ 1 := by
  unfold signText
  split_ifs <;> simp

theorem signText_ne_nil_iff : signText negative flags ≠ [] ↔ negative ∨ flags.plus ∨ flags.space := by
  unfold signText
  split_ifs <;> simp_all

theorem zerosTo_length (n : Nat) (digits : List UInt8) : (zerosTo n digits).length = max n digits.length := by
  rw [zerosTo, List.length_append, List.length_replicate]
  omega

theorem zerosTo_of_le {n : Nat} {digits : List UInt8} (h : n ≤ digits.length) : zerosTo n digits = digits := by
  rw [zerosTo, Nat.sub_eq_zero_of_le h]
  rfl

theorem zerosTo_zerosTo (m n : Nat) (digits : List UInt8) :
    zerosTo m (zerosTo n digits) = zerosTo (max m n) digits := by
  rw [zerosTo, zerosTo_length, zerosTo, zerosTo, ← List.append_assoc, List.replicate_append_replicate]
  congr 2
  omega

theorem fillZeros_reverse (buf : List UInt8) (bound : Nat) :
    (fillZeros buf bound).reverse = zerosTo (min bound ntoaBufferSize) buf.reverse := by
  rw [fillZeros, List.reverse_append, List.reverse_replicate, zerosTo, List.length_reverse]

theorem appendSign_reverse (buf : List UInt8) (negative : Bool) (flags : Flags) :
    (appendSign buf negative flags).reverse =
      (if buf.length < ntoaBufferSize then signText negative flags else []) ++ buf.reverse := by
  unfold appendSign signText push
  split_ifs <;> simp

theorem hashFlags_of_not (h : flags.hash = false) (value : Nat) : hashFlags value flags = flags := by
  unfold hashFlags
  split_ifs
  · rw [← h]
  · rfl

/-- Without a prefix the text is the filled digits behind the sign, in a field of spaces. -/
theorem numberText_of_not_hash (hhash : flags.hash = false) :
    numberText value negative base prec width flags =
      (let (buf, width) := padLeadingZeros (digitBuffer value base flags) negative prec width flags
       let text := (if buf.length < ntoaBufferSize then signText negative flags else []) ++ buf.reverse
       let spaces := List.replicate (width - text.length) ' '.toUInt8
       (if flags.left = false ∧ flags.zeropad = false then spaces else []) ++ text
         ++ if flags.left then spaces else []) := by
  have hbuf : ∀ buf width, handleHash buf base prec width flags = buf := by
    intro buf width
    rw [handleHash, if_neg (by simp [hhash])]
  have hlen : ∀ buf, (appendSign buf negative flags).length = (appendSign buf negative flags).reverse.length :=
    fun buf => List.length_reverse.symm
  unfold numberText formatBuffer revText
  simp only [hashFlags_of_not hhash, hbuf, hlen, appendSign_reverse]

section layouts
variable (hbase : 8 ≤ base) (hvalue : value < 2 ^ 64)
include hbase hvalue

theorem ownDigits_length_le (flags : Flags) : (ownDigits value base flags).length ≤ 22 := by
  unfold ownDigits
  split_ifs
  · exact Nat.zero_le _
  · exact numeral_length_le hbase hvalue

theorem digitBuffer_reverse : (digitBuffer value base flags).reverse = ownDigits value base flags := by
  rw [digitBuffer_eq hbase hvalue, List.reverse_reverse]
  rfl

theorem digitBuffer_length : (digitBuffer value base flags).length = (ownDigits value base flags).length := by
  rw [← digitBuffer_reverse hbase hvalue, List.length_reverse]

theorem numberText_left (hhash : flags.hash = false) (hleft : flags.left = true) :
    numberText value negative base prec width flags =
      padText true (width - ((signText negative flags).length + (ownDigits value base flags).length))
        (signText negative flags ++ ownDigits value base flags) := by
  have hlen := ownDigits_length_le hbase hvalue flags
  rw [numberText_of_not_hash hhash]
  simp only [padLeadingZeros, hleft, if_true, digitBuffer_reverse hbase hvalue,
    digitBuffer_length hbase hvalue]
  rw [if_pos (show _ < ntoaBufferSize by unfold ntoaBufferSize; omega), List.length_append]
  rfl

/-- The sign, where fewer digits than the buffer has room for stand in front of it. -/
def fittingSign (negative : Bool) (flags : Flags) (digits : List UInt8) : List UInt8 :=
  if digits.length < ntoaBufferSize then signText negative flags else []

omit hbase hvalue in
theorem fittingSign_eq {digits : List UInt8} (h : digits.length + (signText negative flags).length ≤ 32) :
    fittingSign negative flags digits = signText negative flags := by
  unfold fittingSign ntoaBufferSize
  split_ifs with hroom
  · rfl
  · exact (List.length_eq_zero_iff.mp (by omega)).symm

theorem numberText_spaces (hhash : flags.hash = false) (hleft : flags.left = false)
    (hzeropad : flags.zeropad = false) :
    numberText value negative base prec width flags =
      let digits := zerosTo (min prec ntoaBufferSize) (ownDigits value base flags)
      let text := fittingSign negative flags digits ++ digits
      padText false (width - text.length) text := by
  have hbuf : (fillZeros (digitBuffer value base flags) prec).reverse =
      zerosTo (min prec ntoaBufferSize) (ownDigits value base flags) := by
    rw [fillZeros_reverse, digitBuffer_reverse hbase hvalue]
  have hlen := congrArg List.length hbuf
  rw [List.length_reverse] at hlen
  rw [numberText_of_not_hash hhash]
  simp only [padLeadingZeros, hleft, hzeropad, Bool.false_eq_true, if_false, false_and, and_false, hbuf, hlen,
    and_self, if_true, List.append_nil]
  rfl

theorem numberText_zeros (hhash : flags.hash = false) (hleft : flags.left = false) (hzeropad : flags.zeropad = true) :
    numberText value negative base 0 width flags =
      let room := if width ≠ 0 ∧ signText negative flags ≠ [] then width - 1 else width
      let digits := zerosTo (min room ntoaBufferSize) (ownDigits value base flags)
      fittingSign negative flags digits ++ digits := by
  have hbuf : ∀ room, (fillZeros (fillZeros (digitBuffer value base flags) 0) room).reverse =
      zerosTo (min room ntoaBufferSize) (ownDigits value base flags) := by
    intro room
    rw [fillZeros_reverse, fillZeros_reverse, digitBuffer_reverse hbase hvalue, zerosTo_zerosTo,
      Nat.zero_min, Nat.max_zero]
  have hlen := fun room => congrArg List.length (hbuf room)
  simp only [List.length_reverse] at hlen
  rw [numberText_of_not_hash hhash]
  simp only [padLeadingZeros, hleft, hzeropad, Bool.false_eq_true, if_false, true_and, Bool.true_eq_false, and_false,
    if_true, hbuf, hlen, List.append_nil, List.nil_append, signText_ne_nil_iff]
  rfl

/-! ### Where the two agree -/

/-- What the sign and the digits ask for fits the buffer, and no precision is given to a field that is
filled from the left. A sign that is a space may also be one of the spaces of the field. -/
def Conforms (value : Nat) (negative : Bool) (base prec width : Nat) (flags : Flags) : Prop :=
  if flags.left then prec ≤ (ownDigits value base flags).length
  else if flags.zeropad then width ≤ 32
  else prec + (signText negative flags).length ≤ 32 ∨
    (prec = 32 ∧ signText negative flags = [' '.toUInt8] ∧ 32 < width)

instance (value : Nat) (negative : Bool) (base prec width : Nat) (flags : Flags) :
    Decidable (Conforms value negative base prec width flags) :=
  inferInstanceAs (Decidable (ite _ _ _))

theorem numberText_left_iff (hle : base ≤ 16) (hhash : flags.hash = false) (hleft : flags.left = true)
    (hprec : flags.precision = false → prec = 0) :
    numberText value negative base prec width flags = standardText value negative base prec width flags ↔
      prec ≤ (ownDigits value base flags).length := by
  rw [numberText_left hbase hvalue hhash hleft, standardText]
  simp only [hleft, Bool.true_eq_false, false_and, if_false]
  constructor
  · intro heq
    by_contra hmore
    obtain ⟨k, hk⟩ : ∃ k, prec - (ownDigits value base flags).length = k + 1 := ⟨_, (Nat.succ_pred (by omega)).symm⟩
    simp only [padText, if_true, List.append_assoc, List.append_cancel_left_eq] at heq
    rw [zerosTo, hk, List.replicate_succ, List.cons_append] at heq
    -- the leading digit, or the first space behind no digits, would be a zero
    have hhead : ∀ c cs, ownDigits value base flags = c :: cs → c = '0'.toUInt8 := by
      intro c cs hown
      rw [hown] at heq
      exact (List.cons.inj heq).1
    by_cases hzero : value = 0
    · cases hp : flags.precision with
      | false =>
          rw [hprec hp] at hmore
          exact hmore (Nat.zero_le _)
      | true =>
          have hown : ownDigits value base flags = [] := by rw [ownDigits, if_pos ⟨hp, hzero⟩]
          rw [hown, List.nil_append] at heq
          have hmem : '0'.toUInt8 ∈ List.replicate (width - ((signText negative flags).length + 0)) ' '.toUInt8 := by
            rw [show (0 : Nat) = ([] : List UInt8).length from rfl, heq]
            exact List.mem_cons_self
          exact absurd (List.eq_of_mem_replicate hmem) (by decide)
    · obtain ⟨c, cs, hnumeral, hc⟩ := numeral_head flags.uppercase hbase hle hzero
      refine hc (hhead c cs ?_)
      rw [ownDigits, if_neg (fun h => hzero h.2), hnumeral]
  · intro hfits
    rw [zerosTo_of_le hfits]

theorem numberText_spaces_iff (hhash : flags.hash = false) (hleft : flags.left = false)
    (hzeropad : flags.zeropad = false) :
    numberText value negative base prec width flags = standardText value negative base prec width flags ↔
      prec + (signText negative flags).length ≤ 32 ∨
        (prec = 32 ∧ signText negative flags = [' '.toUInt8] ∧ 32 < width) := by
  have hown := ownDigits_length_le hbase hvalue flags
  have hsign := signText_length_le negative flags
  rw [numberText_spaces hbase hvalue hhash hleft hzeropad, standardText]
  simp only [hleft, hzeropad, Bool.false_eq_true, and_false, if_false]
  by_cases hfits : prec + (signText negative flags).length ≤ 32
  · refine iff_of_true ?_ (Or.inl hfits)
    rw [show min prec ntoaBufferSize = prec by unfold ntoaBufferSize; omega,
      fittingSign_eq (by rw [zerosTo_length]; omega), List.length_append]
  have hmin : min prec ntoaBufferSize = 32 := by
    unfold ntoaBufferSize
    omega
  have hfull : (zerosTo 32 (ownDigits value base flags)).length = 32 := by
    rw [zerosTo_length]
    omega
  have hnone : fittingSign negative flags (zerosTo 32 (ownDigits value base flags)) = [] := by
    rw [fittingSign, if_neg (by rw [hfull]; decide)]
  have hsplit : zerosTo prec (ownDigits value base flags) =
      List.replicate (prec - 32) '0'.toUInt8 ++ zerosTo 32 (ownDigits value base flags) := by
    have hmax := zerosTo_zerosTo prec 32 (ownDigits value base flags)
    rw [Nat.max_eq_left (by omega)] at hmax
    rw [← hmax, zerosTo.eq_1 prec, hfull]
  rw [hmin, hnone, List.nil_append, hfull, zerosTo_length, hsplit, or_iff_right hfits]
  simp only [padText, Bool.false_eq_true, if_false]
  rw [← List.append_assoc, ← List.append_assoc, List.append_left_inj]
  constructor
  · intro heq
    by_cases hprec : prec = 32
    · have hone : (signText negative flags).length = 1 := by omega
      obtain ⟨c, hc⟩ := List.length_eq_one_iff.mp hone
      rw [hprec, Nat.sub_self, List.replicate_zero, List.append_nil, hc] at heq
      have hmem : c ∈ List.replicate (width - 32) ' '.toUInt8 := heq ▸ List.mem_append_right _ (by simp)
      refine ⟨hprec, ?_, ?_⟩
      · rw [hc, List.eq_of_mem_replicate hmem]
      · have hpos := List.length_pos_iff.mpr (List.ne_nil_of_mem hmem)
        rw [List.length_replicate] at hpos
        omega
    · have hmem : '0'.toUInt8 ∈ List.replicate (width - 32) ' '.toUInt8 := by
        rw [heq]
        refine List.mem_append_right _ ?_
        rw [show prec - 32 = prec - 33 + 1 by omega, List.replicate_succ]
        exact List.mem_cons_self
      exact absurd (List.eq_of_mem_replicate hmem) (by decide)
  · rintro ⟨rfl, hspace, hwidth⟩
    rw [hspace, Nat.sub_self, List.replicate_zero, List.append_nil, List.length_singleton,
      Nat.max_eq_left (by omega), show width - 32 = width - (1 + 32) + 1 by omega, List.replicate_succ']

theorem numberText_zeros_iff (hhash : flags.hash = false) (hleft : flags.left = false)
    (hzeropad : flags.zeropad = true) :
    numberText value negative base 0 width flags = standardText value negative base 0 width flags ↔ width ≤ 32 := by
  have hown := ownDigits_length_le hbase hvalue flags
  have hsign := signText_length_le negative flags
  have hroom : (if width ≠ 0 ∧ signText negative flags ≠ [] then width - 1 else width) =
      width - (signText negative flags).length := by
    by_cases hnil : signText negative flags = []
    · rw [if_neg (fun h => h.2 hnil), hnil]
      rfl
    · have hpos := List.length_pos_iff.mpr hnil
      by_cases hwidth : width = 0
      · rw [if_neg (fun h => h.1 hwidth), hwidth, Nat.zero_sub]
      · rw [if_pos ⟨hwidth, hnil⟩, show (signText negative flags).length = 1 by omega]
  have hzero : zerosTo 0 (ownDigits value base flags) = ownDigits value base flags := zerosTo_of_le (Nat.zero_le _)
  rw [numberText_zeros hbase hvalue hhash hleft hzeropad, standardText]
  simp only [hleft, hzeropad, and_self, if_true, hroom, hzero]
  constructor
  · intro heq
    by_contra hwide
    have hmin : min (width - (signText negative flags).length) ntoaBufferSize = 32 := by
      unfold ntoaBufferSize
      omega
    have hlen := congrArg List.length heq
    rw [hmin, List.length_append, List.length_append, zerosTo_length, zerosTo_length, fittingSign,
      if_neg (by rw [zerosTo_length]; unfold ntoaBufferSize; omega), List.length_nil] at hlen
    omega
  · intro hwide
    rw [show min (width - (signText negative flags).length) ntoaBufferSize =
        width - (signText negative flags).length by unfold ntoaBufferSize; omega,
      fittingSign_eq (by rw [zerosTo_length]; omega)]

theorem numberText_standard_iff (hle : base ≤ 16) (hhash : flags.hash = false)
    (hprec : flags.precision = false → prec = 0) (hzeropad : flags.precision = true → flags.zeropad = false) :
    numberText value negative base prec width flags = standardText value negative base prec width flags ↔
      Conforms value negative base prec width flags := by
  unfold Conforms
  by_cases hleft : flags.left = true
  · rw [if_pos hleft]
    exact numberText_left_iff hbase hvalue hle hhash hleft hprec
  rw [if_neg hleft]
  have hright := Bool.not_eq_true _ ▸ hleft
  by_cases hzeros : flags.zeropad = true
  · rw [if_pos hzeros]
    have hnone : flags.precision = false := by
      by_contra h
      rw [hzeropad (Bool.not_eq_false _ ▸ h)] at hzeros
      contradiction
    rw [hprec hnone]
    exact numberText_zeros_iff hbase hvalue hhash hright hzeros
  · rw [if_neg hzeros]
    exact numberText_spaces_iff hbase hvalue hhash hright (Bool.not_eq_true _ ▸ hzeros)

end layouts
end standard
end Lucix.Printk
