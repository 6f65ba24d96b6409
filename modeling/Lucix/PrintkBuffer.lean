import Mathlib.Data.List.GetD
import Lucix.PrintkFormat

/-! `snprintf_` and `sprintf_`: what they leave in a buffer and around it. -/
namespace Lucix.Printk
open Emission

/-- The bytes that are stored in a buffer of this size: the text as far as there is room for it and a
terminator. -/
def bounded (count : Nat) (text : List UInt8) : List UInt8 := (text.take (count - 1) ++ [0]).take count

section bounded
variable {count : Nat} {text : List UInt8}

theorem bounded_length_le (count : Nat) (text : List UInt8) : (bounded count text).length ≤ count := by
  rw [bounded, List.length_take]
  exact Nat.min_le_left _ _

theorem bounded_zero (text : List UInt8) : bounded 0 text = [] := rfl

theorem bounded_pos (h : 0 < count) (text : List UInt8) : bounded count text = text.take (count - 1) ++ [0] := by
  rw [bounded, List.take_of_length_le]
  simp only [List.length_append, List.length_take, List.length_singleton]
  omega

/-- With room for one byte more than the text the whole text is stored. -/
theorem bounded_of_lt (h : text.length < count) : bounded count text = text ++ [0] := by
  rw [bounded_pos (by omega), List.take_of_length_le (by omega)]

end bounded

section buffer
variable {δ : Type*} {floats : FloatOutput δ} {mem : Nat → List UInt8} {count : UInt64} {text : List UInt8}
  {buffer : Nat → UInt8}

theorem send_outBuffer (hlen : text.length < 2 ^ 64) :
    (send (outBuffer count) text (0, buffer)).2 =
      fun j => if j < count.toNat then text.getD j (buffer j) else buffer j := by
  have hpos : ∀ k ≤ text.length, ((fun i : UInt64 => i + 1)^[k] 0).toNat = (0 : UInt64).toNat + k := by
    intro k hk
    rw [iterate_succ, UInt64.zero_add, UInt64.toNat_ofNat_of_lt' (hk.trans_lt hlen)]
    exact (Nat.zero_add k).symm
  refine (emit_store (d := ((0 : UInt64), buffer)) hpos).trans ?_
  funext j
  simp

theorem terminate_outBuffer (hlen : text.length < 2 ^ 64) :
    terminate (outBuffer count) count text buffer = fun j => (bounded count.toNat text).getD j (buffer j) := by
  have hidx : (UInt64.ofNat text.length).toNat = text.length := UInt64.toNat_ofNat_of_lt' hlen
  rw [terminate, send_outBuffer hlen]
  funext j
  by_cases hcount : count = 0
  · have hzero : count.toNat = 0 := by rw [hcount]; rfl
    simp [hzero, outBuffer, store, bounded_zero]
  have hpos : 0 < count.toNat := by
    rw [Nat.pos_iff_ne_zero]
    exact fun h => hcount (UInt64.toNat_inj.mp h)
  have hterm : (if UInt64.ofNat text.length < count then UInt64.ofNat text.length else count - 1).toNat =
      min text.length (count.toNat - 1) := by
    split_ifs with hroom
    · rw [UInt64.lt_iff_toNat_lt, hidx] at hroom
      rw [hidx]
      omega
    · rw [UInt64.lt_iff_toNat_lt, hidx] at hroom
      have hone : (1 : UInt64) ≤ count := UInt64.le_iff_toNat_le.mpr hpos
      rw [UInt64.toNat_sub_of_le _ _ hone]
      change count.toNat - 1 = _
      omega
  unfold outBuffer
  rw [hterm, bounded_pos hpos, store, if_pos (by omega), Function.update_apply]
  have htake : (text.take (count.toNat - 1)).length = min text.length (count.toNat - 1) := by
    rw [List.length_take]
    omega
  rcases Nat.lt_trichotomy j (min text.length (count.toNat - 1)) with hlt | heq | hgt
  · rw [if_neg hlt.ne, if_pos (by omega), List.getD_append _ _ _ _ (by omega)]
    simp only [List.getD_eq_getElem?_getD, List.getElem?_take_of_lt (show j < count.toNat - 1 by omega)]
  · rw [if_pos heq, List.getD_append_right _ _ _ _ (by omega), htake, heq, Nat.sub_self]
    rfl
  · rw [if_neg hgt.ne', List.getD_append_right _ _ _ _ (by omega), htake,
      List.getD_eq_default [0] _ (by simp only [List.length_singleton]; omega)]
    split_ifs with hin
    · rw [List.getD_eq_default _ _ (by omega)]
    · rfl

/-- A call with a null pointer measures the text. A call with a buffer stores of it what fits in front
of a terminator, all of it from one byte more than was measured, and nothing from `count` on. -/
theorem snprintf_two_calls {ps : List Piece} (hps : ∀ p ∈ ps, p.WellFormed) {va : List (Arg δ)}
    (htext : render floats mem ps va = some text) (hlen : text.length < 2 ^ 31) :
    (∀ count, snprintf floats mem none count (spell ps ++ [0]) va = some ((text.length : Int), none)) ∧
      (∀ buffer count, snprintf floats mem (some buffer) count (spell ps ++ [0]) va =
        some ((text.length : Int), some fun j => (bounded count.toNat text).getD j (buffer j))) ∧
      (∀ count, (bounded count text).length ≤ count ∧ (text.length < count ↔ bounded count text = text ++ [0])) := by
  have hret : toInt32 text.length = text.length := toInt32_of_lt hlen
  refine ⟨fun count => ?_, fun buffer count => ?_, fun count => ⟨bounded_length_le count text, ?_⟩⟩
  · simp only [snprintf]
    rw [vsnprintf_spell hps, htext, Option.map_some, Option.map_some, hret]
  · simp only [snprintf]
    rw [vsnprintf_spell hps, htext, Option.map_some, Option.map_some, hret,
      terminate_outBuffer (hlen.trans (by norm_num))]
  · refine ⟨bounded_of_lt, fun heq => ?_⟩
    have hle := bounded_length_le count text
    rw [heq, List.length_append] at hle
    exact hle

end buffer

theorem snprintf_two_calls_width :
    snprintf noFloats (fun _ => []) (some fun _ => 1) 5 (spell widthFormat ++ [0]) [.word 42] =
      some (6, some fun j => ("n=  ".toUTF8.toList ++ [0]).getD j 1) := by
  have htext : render noFloats (fun _ => []) widthFormat [.word 42] = some "n=  42".toUTF8.toList := by decide +kernel
  have hstored : bounded (UInt64.toNat 5) "n=  42".toUTF8.toList = "n=  ".toUTF8.toList ++ [0] := by decide +kernel
  have hcalls := snprintf_two_calls (by decide +kernel : ∀ p ∈ widthFormat, p.WellFormed) htext (by decide +kernel)
  have hlen : "n=  42".toUTF8.toList.length = 6 := by decide +kernel
  rw [hlen] at hcalls
  rw [← hstored]
  exact hcalls.2.1 (fun _ => 1) 5

end Lucix.Printk
