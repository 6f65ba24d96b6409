import Lucix.Printk

/-! The characters that each part of `_vsnprintf` sends: a text that does not depend on the receiver,
and whose numbers never outgrow the buffer that they are converted in. -/
namespace Lucix.Printk
open Emission

section out
variable {σ : Type*} {out : OutFct σ} {text text' : List UInt8} {f g : UInt64 × σ → UInt64 × σ}

/-- Hand the text to the output function, one character at each index. -/
def send (out : OutFct σ) (text : List UInt8) (d : UInt64 × σ) : UInt64 × σ := emit (· + 1) out text d

/-- The program sends this text and does nothing else. -/
def Sends (out : OutFct σ) (f : UInt64 × σ → UInt64 × σ) (text : List UInt8) : Prop := Emits (· + 1) out f text

theorem send_append (d : UInt64 × σ) : send out (text ++ text') d = send out text' (send out text d) := emit_append d

theorem iterate_succ (n : Nat) (i : UInt64) : (fun j : UInt64 => j + 1)^[n] i = i + UInt64.ofNat n := by
  induction n generalizing i with
  | zero => simp
  | succ n ih =>
      rw [Function.iterate_succ_apply, ih, UInt64.ofNat_add, UInt64.add_assoc]
      congr 1
      exact UInt64.add_comm _ _

theorem send_fst (d : UInt64 × σ) : (send out text d).1 = d.1 + UInt64.ofNat text.length := by
  rw [send, emit_fst, iterate_succ]

theorem send_foldl {step : σ → UInt8 → σ} (h : ∀ c i s, out c i s = step s c) (d : UInt64 × σ) :
    (send out text d).2 = text.foldl step d.2 := emit_foldl h d

theorem sends_put (c : UInt8) : Sends out (put out c) [c] := fun _ => rfl

theorem sends_putTimes (c : UInt8) (n : Nat) : Sends out (putTimes out c n) (List.replicate n c) := by
  induction n with
  | zero => exact fun _ => rfl
  | succ n ih => exact (sends_put c).comp ih

theorem sends_putAll (cs : List UInt8) : Sends out (putAll out cs) cs := by
  induction cs with
  | nil => exact fun _ => rfl
  | cons c cs ih => exact (sends_put c).comp ih

theorem padTo_eq {start : UInt64} {width fuel k : Nat} {d : UInt64 × σ} (hidx : d.1 = start + UInt64.ofNat k)
    (hfuel : width ≤ k + fuel) (hk : k < 2 ^ 64) (hwidth : width < 2 ^ 64) :
    padTo out start width fuel d = send out (List.replicate (width - k) ' '.toUInt8) d := by
  induction fuel generalizing k d with
  | zero =>
      rw [show width - k = 0 by omega]
      rfl
  | succ fuel ih =>
      have hdiff : (d.1 - start).toNat = k := by
        rw [hidx, UInt64.add_comm, UInt64.add_sub_cancel, UInt64.toNat_ofNat_of_lt' hk]
      unfold padTo
      rw [hdiff]
      split_ifs with hmore
      · have hnext : (put out ' '.toUInt8 d).1 = start + UInt64.ofNat (k + 1) := by
          rw [UInt64.ofNat_add, ← UInt64.add_assoc, ← hidx]
          rfl
        rw [ih hnext (by omega) (by omega), show width - k = width - (k + 1) + 1 by omega, List.replicate_succ]
        rfl
      · rw [show width - k = 0 by omega]
        rfl

end out

/-! ### Numbers -/

def revText (buf : List UInt8) (width : Nat) (flags : Flags) : List UInt8 :=
  let spaces := List.replicate (width - buf.length) ' '.toUInt8
  (if flags.left = false ∧ flags.zeropad = false then spaces else []) ++ buf.reverse
    ++ if flags.left then spaces else []

/-- The buffer of `_ntoa_format` and the width that is left. -/
def formatBuffer (buf : List UInt8) (negative : Bool) (base prec width : Nat) (flags : Flags) : List UInt8 × Nat :=
  let (buf, width) := padLeadingZeros buf negative prec width flags
  (appendSign (handleHash buf base prec width flags) negative flags, width)

def digitBuffer (value base : Nat) (flags : Flags) : List UInt8 :=
  if flags.precision = false ∨ value ≠ 0 then ntoaLoop base flags.uppercase ntoaBufferSize value [] else []

/-- There is no prefix for a zero. -/
def hashFlags (value : Nat) (flags : Flags) : Flags := if value = 0 then { flags with hash := false } else flags

def numberText (value : Nat) (negative : Bool) (base prec width : Nat) (flags : Flags) : List UInt8 :=
  let flags := hashFlags value flags
  let (buf, width) := formatBuffer (digitBuffer value base flags) negative base prec width flags
  revText buf width flags

section bounds
variable {buf : List UInt8} {negative : Bool} {base prec width value : Nat} {flags : Flags}

theorem push_length_le (h : buf.length ≤ ntoaBufferSize) (c : UInt8) : (push buf c).length ≤ ntoaBufferSize := by
  unfold push
  split_ifs with hroom
  · rw [List.length_append]
    exact hroom
  · exact h

theorem fillZeros_length (buf : List UInt8) (bound : Nat) :
    (fillZeros buf bound).length = max buf.length (min bound ntoaBufferSize) := by
  rw [fillZeros, List.length_append, List.length_replicate]
  omega

theorem padLeadingZeros_le (h : buf.length ≤ ntoaBufferSize) :
    (padLeadingZeros buf negative prec width flags).1.length ≤ ntoaBufferSize ∧
      (padLeadingZeros buf negative prec width flags).2 ≤ width := by
  unfold padLeadingZeros
  split_ifs
  · exact ⟨h, le_rfl⟩
  all_goals
    simp only [fillZeros_length]
    omega

theorem append_length_le (hroom : buf.length < ntoaBufferSize) (c : UInt8) :
    (buf ++ [c]).length ≤ ntoaBufferSize := by
  rw [List.length_append]
  exact hroom

theorem dropForHash_length_le : (dropForHash buf base prec width flags).length ≤ buf.length := by
  unfold dropForHash
  dsimp only
  split_ifs
  · simp only [List.length_dropLast]
    omega
  · rw [List.length_dropLast]
    exact Nat.sub_le _ _
  · exact le_rfl

theorem appendBaseLetter_length_le (h : buf.length ≤ ntoaBufferSize) :
    (appendBaseLetter buf base flags).length ≤ ntoaBufferSize := by
  unfold appendBaseLetter
  split_ifs with hlower hupper hbinary
  · exact append_length_le hlower.2.2 _
  · exact append_length_le hupper.2.2 _
  · exact append_length_le hbinary.2 _
  · exact h

theorem handleHash_length_le (h : buf.length ≤ ntoaBufferSize) :
    (handleHash buf base prec width flags).length ≤ ntoaBufferSize := by
  unfold handleHash
  split_ifs
  · exact push_length_le (appendBaseLetter_length_le (dropForHash_length_le.trans h)) _
  · exact h

theorem appendSign_length_le (h : buf.length ≤ ntoaBufferSize) :
    (appendSign buf negative flags).length ≤ ntoaBufferSize := by
  unfold appendSign
  split_ifs
  · exact push_length_le h _
  · exact push_length_le h _
  · exact push_length_le h _
  · exact h

theorem ntoaLoop_length_le (upper : Bool) (room value : Nat) (buf : List UInt8) :
    (ntoaLoop base upper room value buf).length ≤ buf.length + room := by
  induction room generalizing value buf with
  | zero => exact le_rfl
  | succ room ih =>
      unfold ntoaLoop
      dsimp only
      split_ifs
      · refine (ih _ _).trans ?_
        simp only [List.length_append, List.length_singleton]
        omega
      · simp only [List.length_append, List.length_singleton]
        omega

theorem digitBuffer_length_le (value base : Nat) (flags : Flags) :
    (digitBuffer value base flags).length ≤ ntoaBufferSize := by
  unfold digitBuffer
  split_ifs
  · refine (ntoaLoop_length_le _ _ _ _).trans ?_
    simp
  · exact Nat.zero_le _

theorem formatBuffer_le (h : buf.length ≤ ntoaBufferSize) (negative : Bool) (base prec width : Nat)
    (flags : Flags) :
    (formatBuffer buf negative base prec width flags).1.length ≤ ntoaBufferSize ∧
      (formatBuffer buf negative base prec width flags).2 ≤ width :=
  ⟨appendSign_length_le (handleHash_length_le (padLeadingZeros_le h).1), (padLeadingZeros_le h).2⟩

end bounds

section numbers
variable {σ : Type*} {out : OutFct σ} {buf : List UInt8} {width : Nat}

theorem sends_outRev (hbuf : buf.length < 2 ^ 64) (hwidth : width < 2 ^ 64) (flags : Flags) :
    Sends out (outRev out buf width flags) (revText buf width flags) := by
  intro d
  have hfront : Sends out
      (fun d => putAll out buf.reverse
        (if flags.left = false ∧ flags.zeropad = false then putTimes out ' '.toUInt8 (width - buf.length) d else d))
      ((if flags.left = false ∧ flags.zeropad = false then List.replicate (width - buf.length) ' '.toUInt8 else [])
        ++ buf.reverse) :=
    (Emits.ite _ (sends_putTimes _ _)).comp (sends_putAll _)
  unfold outRev revText
  dsimp only
  rw [emit_append, ← hfront d]
  by_cases hleft : flags.left
  · rw [if_pos hleft, if_pos hleft]
    refine padTo_eq ?_ (Nat.le_add_left _ _) hbuf hwidth
    refine (congrArg Prod.fst (hfront d)).trans ((send_fst d).trans ?_)
    rw [List.length_append, List.length_reverse, if_neg (by simp [hleft]), List.length_nil, Nat.zero_add]
  · rw [if_neg hleft, if_neg hleft]
    rfl

theorem sends_ntoaLong (hwidth : width < 2 ^ 64) (value : Nat) (negative : Bool) (base prec : Nat) (flags : Flags) :
    Sends out (ntoaLong out value negative base prec width flags)
      (numberText value negative base prec width flags) := by
  obtain ⟨hlen, hle⟩ := formatBuffer_le (digitBuffer_length_le value base (hashFlags value flags)) negative base
    prec width (hashFlags value flags)
  exact sends_outRev (hlen.trans_lt (by decide)) (hle.trans_lt hwidth) _

end numbers

/-! ### Specifiers -/

/-- The characters of a string that are sent, at most `precision` where the precision counts. -/
def shownString (limited : Bool) : List UInt8 → Nat → Option (List UInt8)
  | [], _ => none
  | c :: p, precision =>
      if c ≠ 0 ∧ (limited = false ∨ precision ≠ 0) then (shownString limited p (precision - 1)).map (c :: ·)
      else some []

/-- Spaces in front of the text, or behind it where the field is filled from the left. -/
def padText (left : Bool) (spaces : Nat) (text : List UInt8) : List UInt8 :=
  if left then text ++ List.replicate spaces ' '.toUInt8 else List.replicate spaces ' '.toUInt8 ++ text

def stringText (p : List UInt8) (flags : Flags) (width precision : Nat) : Option (List UInt8) :=
  (strnlenS p (if precision ≠ 0 then precision else 2 ^ 64 - 1)).bind fun len =>
    let l := len % 2 ^ 32
    let l := if flags.precision then (if l < precision then l else precision) else l
    (shownString flags.precision p precision).map (padText flags.left (width - l))

section specifiers
variable {δ : Type*} (floats : FloatOutput δ) (mem : Nat → List UInt8)

/-- The text of a specifier, and the arguments behind it. -/
def specifierText (spec : UInt8) (flags : Flags) (width precision : Nat) (va : List (Arg δ)) :
    Option (List UInt8 × List (Arg δ)) :=
  if isInteger spec then
    let flags := integerFlags spec flags
    (readInteger spec flags va).map fun (value, negative, va) =>
      (numberText value negative (specBase spec) precision width flags, va)
  else if spec = 'f'.toUInt8 ∨ spec = 'F'.toUInt8 then
    let flags := if spec = 'F'.toUInt8 then { flags with uppercase := true } else flags
    (vaDouble va).map fun (x, va) => (floats.ftoa x precision width flags, va)
  else if spec = 'e'.toUInt8 ∨ spec = 'E'.toUInt8 ∨ spec = 'g'.toUInt8 ∨ spec = 'G'.toUInt8 then
    let flags := if spec = 'g'.toUInt8 ∨ spec = 'G'.toUInt8 then { flags with adaptExp := true } else flags
    let flags := if spec = 'E'.toUInt8 ∨ spec = 'G'.toUInt8 then { flags with uppercase := true } else flags
    (vaDouble va).map fun (x, va) => (floats.etoa x precision width flags, va)
  else if spec = 'c'.toUInt8 then
    (vaWord va).map fun (v, va) => (padText flags.left (width - 1) [UInt8.ofNat v], va)
  else if spec = 's'.toUInt8 then
    (vaWord va).bind fun (p, va) => (stringText (mem p) flags width precision).map fun text => (text, va)
  else if spec = 'p'.toUInt8 then
    (vaWord va).map fun (v, va) =>
      (numberText v false 16 precision 16 { flags with zeropad := true, uppercase := true }, va)
  else some ([spec], va)

variable {floats mem} {σ : Type*} {out : OutFct σ}

theorem sends_padded (left : Bool) (spaces : Nat) {f : UInt64 × σ → UInt64 × σ} {text : List UInt8}
    (hf : Sends out f text) (d : UInt64 × σ) :
    (let d := if left = false then putTimes out ' '.toUInt8 spaces d else d
     if left then putTimes out ' '.toUInt8 spaces (f d) else f d) = send out (padText left spaces text) d := by
  cases left with
  | true => exact hf.comp (sends_putTimes _ _) d
  | false => exact Emits.comp (sends_putTimes _ _) hf d

theorem putString_eq (limited : Bool) (p : List UInt8) (precision : Nat) (d : UInt64 × σ) :
    putString out limited p precision d = (shownString limited p precision).map fun text => send out text d := by
  induction p generalizing precision d with
  | nil => rfl
  | cons c p ih =>
      unfold putString shownString
      split_ifs
      · rw [ih, Option.map_map]
        rfl
      · rfl

theorem stringDirective_eq (p : List UInt8) (flags : Flags) (width precision : Nat) (d : UInt64 × σ) :
    stringDirective out p flags width precision d =
      (stringText p flags width precision).map fun text => send out text d := by
  unfold stringDirective stringText
  rw [Option.map_bind]
  congr 1
  funext len
  dsimp only [Function.comp]
  rw [putString_eq, Option.map_map, Option.map_map]
  cases shownString flags.precision p precision with
  | none => rfl
  | some text => exact congrArg some (sends_padded flags.left _ (fun _ => rfl) d)

theorem evalSpecifier_eq {width : Nat} (hwidth : width < 2 ^ 64) (spec : UInt8) (flags : Flags) (precision : Nat)
    (va : List (Arg δ)) (d : UInt64 × σ) :
    evalSpecifier floats mem out spec flags width precision va d =
      (specifierText floats mem spec flags width precision va).map fun (text, va) => (va, send out text d) := by
  unfold evalSpecifier specifierText
  dsimp only
  by_cases hint : isInteger spec
  · rw [if_pos hint, if_pos hint, Option.map_map]
    congr 1
    funext r
    exact congrArg (Prod.mk r.2.2) (sends_ntoaLong hwidth _ _ _ _ _ d)
  rw [if_neg hint, if_neg hint]
  by_cases hf : spec = 'f'.toUInt8 ∨ spec = 'F'.toUInt8
  · rw [if_pos hf, if_pos hf, Option.map_map]
    congr 1
    funext r
    exact congrArg (Prod.mk r.2) (sends_putAll _ d)
  rw [if_neg hf, if_neg hf]
  by_cases he : spec = 'e'.toUInt8 ∨ spec = 'E'.toUInt8 ∨ spec = 'g'.toUInt8 ∨ spec = 'G'.toUInt8
  · rw [if_pos he, if_pos he, Option.map_map]
    congr 1
    funext r
    exact congrArg (Prod.mk r.2) (sends_putAll _ d)
  rw [if_neg he, if_neg he]
  by_cases hc : spec = 'c'.toUInt8
  · rw [if_pos hc, if_pos hc, Option.map_map]
    congr 1
    funext r
    exact congrArg (Prod.mk r.2) (sends_padded flags.left _ (sends_put _) d)
  rw [if_neg hc, if_neg hc]
  by_cases hs : spec = 's'.toUInt8
  · rw [if_pos hs, if_pos hs, Option.map_bind]
    congr 1
    funext r
    rw [stringDirective_eq, Option.map_map, Function.comp, Option.map_map]
    rfl
  rw [if_neg hs, if_neg hs]
  by_cases hp : spec = 'p'.toUInt8
  · rw [if_pos hp, if_pos hp, Option.map_map]
    congr 1
    funext r
    exact congrArg (Prod.mk r.2) (sends_ntoaLong (by norm_num) _ _ _ _ _ d)
  rw [if_neg hp, if_neg hp]
  split_ifs with hpercent
  · rw [hpercent]
    rfl
  · rfl

end specifiers
end Lucix.Printk
