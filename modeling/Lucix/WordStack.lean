import Mathlib.Tactic

/-! A stack of 64-bit words in a memory that wraps around: the words from the stack pointer on,
and what pushing, popping and storing do to them. -/
namespace WordStack

abbrev Word := BitVec 64

/-- The words at the 8-byte steps from an address are all that is ever read through it. -/
abbrev Memory := Word → Word

/-- The address of word `i` from `sp` on. -/
def slot (sp : Word) (i : Nat) : Word := sp + BitVec.ofNat 64 (8 * i)

@[simp] theorem slot_zero (sp : Word) : slot sp 0 = sp := by
  simp [slot]

theorem slot_succ (sp : Word) (i : Nat) : slot sp (i + 1) = slot (sp + 8) i := by
  unfold slot
  bv_omega

theorem slot_pred (sp : Word) (i : Nat) : slot (sp - 8) (i + 1) = slot sp i := by
  unfold slot
  bv_omega

theorem slot_injective {sp : Word} {i j : Nat} (hi : i < 2 ^ 61) (hj : j < 2 ^ 61) (h : slot sp i = slot sp j) :
    i = j := by
  unfold slot at h
  bv_omega

theorem slot_ne_below {sp : Word} {i : Nat} (hi : i + 1 < 2 ^ 61) : slot sp i ≠ sp - 8 := by
  unfold slot
  bv_omega

/-- The words from `sp` on. -/
def Holds (mem : Memory) (sp : Word) (ws : List Word) : Prop := ∀ i w, ws[i]? = some w → mem (slot sp i) = w

section holds
variable {mem : Memory} {sp w : Word} {ws : List Word}

theorem Holds.nil : Holds mem sp [] := by
  intro i w h
  simp at h

theorem Holds.push (h : Holds mem sp ws) (hlen : ws.length + 1 < 2 ^ 61) :
    Holds (Function.update mem (sp - 8) w) (sp - 8) (w :: ws) := by
  intro i v hv
  cases i with
  | zero =>
      rw [List.getElem?_cons_zero] at hv
      rw [slot_zero, Function.update_self, Option.some.inj hv]
  | succ i =>
      rw [List.getElem?_cons_succ] at hv
      have hi : i < ws.length := (List.getElem?_eq_some_iff.mp hv).1
      rw [slot_pred, Function.update_of_ne (slot_ne_below (by omega))]
      exact h i v hv

theorem Holds.head (h : Holds mem sp (w :: ws)) : mem sp = w := by
  have hzero := h 0 w rfl
  rwa [slot_zero] at hzero

theorem Holds.tail (h : Holds mem sp (w :: ws)) : Holds mem (sp + 8) ws := by
  intro i v hv
  rw [← slot_succ]
  exact h (i + 1) v hv

end holds

/-! ### Records -/

section record
variable {φ : Type} [DecidableEq φ] {fields : List φ} {mem : Memory} {sp : Word}

/-- The word of a field of the record at an address; the fields are words, in their order. -/
def field (fields : List φ) (mem : Memory) (record : Word) (f : φ) : Word := mem (slot record (fields.idxOf f))

/-- A record on the stack is read field by field. -/
theorem Holds.field_eq {g : φ → Word} {ws : List Word} (h : Holds mem sp (fields.map g ++ ws)) {f : φ}
    (hf : f ∈ fields) : field fields mem sp f = g f := by
  have hlt := List.idxOf_lt_length_of_mem hf
  apply h
  rw [List.getElem?_append_left (by rwa [List.length_map]), List.getElem?_map, List.getElem?_idxOf hf,
    Option.map_some]

theorem holds_of_fields {g : φ → Word} (hnodup : fields.Nodup) (h : ∀ f ∈ fields, field fields mem sp f = g f) :
    Holds mem sp (fields.map g) := by
  intro i v hv
  rw [List.getElem?_map] at hv
  obtain ⟨f, hf, rfl⟩ := Option.map_eq_some_iff.mp hv
  obtain ⟨hi, rfl⟩ := List.getElem?_eq_some_iff.mp hf
  have hfield := h _ (List.getElem_mem hi)
  rwa [field, hnodup.idxOf_getElem] at hfield

@[simp] theorem field_update_self {record w : Word} {f : φ} :
    field fields (Function.update mem (slot record (fields.idxOf f)) w) record f = w := Function.update_self ..

theorem field_update_of_ne {record w : Word} {f g : φ} (hlen : fields.length < 2 ^ 61) (hf : f ∈ fields)
    (hg : g ∈ fields) (hne : f ≠ g) :
    field fields (Function.update mem (slot record (fields.idxOf g)) w) record f = field fields mem record f := by
  have hfi := List.idxOf_lt_length_of_mem hf
  have hgi := List.idxOf_lt_length_of_mem hg
  apply Function.update_of_ne
  intro hslot
  exact hne ((List.idxOf_inj hf).mp (slot_injective (by omega) (by omega) hslot))

/-- Assignments between two records: each of the named fields of `dst` takes that of `src`, in order. -/
def copyFields (dstFields srcFields : List φ) (dst src : Word) (names : List φ) (mem : Memory) : Memory :=
  names.foldl (fun mem f => Function.update mem (slot dst (dstFields.idxOf f)) (field srcFields mem src f)) mem

/-- No word of one record has a byte of a word of the other, whatever their addresses are multiples of. -/
def Apart (dstFields srcFields : List φ) (dst src : Word) : Prop :=
  ∀ i < dstFields.length, ∀ j < srcFields.length,
    8 ≤ (slot dst i - slot src j).toNat ∧ 8 ≤ (slot src j - slot dst i).toNat

omit [DecidableEq φ] in
theorem Apart.slot_ne {dstFields srcFields : List φ} {dst src : Word} (h : Apart dstFields srcFields dst src)
    {i j : Nat} (hi : i < dstFields.length) (hj : j < srcFields.length) : slot dst i ≠ slot src j := by
  intro heq
  have hbytes := (h i hi j hj).1
  rw [heq, BitVec.sub_self] at hbytes
  exact absurd hbytes (by decide)

variable {dstFields srcFields names : List φ} {dst src : Word}

theorem copyFields_of_ne {a : Word} (h : ∀ f ∈ names, a ≠ slot dst (dstFields.idxOf f)) :
    copyFields dstFields srcFields dst src names mem a = mem a := by
  induction names generalizing mem with
  | nil => rfl
  | cons f names ih =>
      rw [copyFields, List.foldl_cons, ← copyFields, ih fun g hg => h g (List.mem_cons_of_mem _ hg)]
      exact Function.update_of_ne (h f List.mem_cons_self) _ _

/-- A field that is assigned once holds what the source held, since no assignment reaches the source. -/
theorem field_copyFields (hlen : dstFields.length < 2 ^ 61) (hapart : Apart dstFields srcFields dst src)
    (hdst : ∀ f ∈ names, f ∈ dstFields) (hsrc : ∀ f ∈ names, f ∈ srcFields) (hnodup : names.Nodup) {f : φ}
    (hf : f ∈ names) :
    field dstFields (copyFields dstFields srcFields dst src names mem) dst f = field srcFields mem src f := by
  induction names generalizing mem with
  | nil => simp at hf
  | cons g names ih =>
      have hlt : ∀ {f}, f ∈ g :: names → dstFields.idxOf f < dstFields.length :=
        fun hf => List.idxOf_lt_length_of_mem (hdst _ hf)
      rw [copyFields, List.foldl_cons, ← copyFields]
      rw [List.nodup_cons] at hnodup
      rcases List.mem_cons.mp hf with rfl | hmem
      · rw [field, copyFields_of_ne, Function.update_self]
        intro h hh hslot
        have hidx := slot_injective (by have := hlt hf; omega) (by have := hlt (.tail _ hh); omega) hslot
        rw [(List.idxOf_inj (hdst f hf)).mp hidx] at hnodup
        exact hnodup.1 hh
      · rw [ih (fun f hf => hdst f (.tail _ hf)) (fun f hf => hsrc f (.tail _ hf)) hnodup.2 hmem]
        exact Function.update_of_ne
          (hapart.slot_ne (hlt List.mem_cons_self) (List.idxOf_lt_length_of_mem (hsrc f hf))).symm _ _

end record

end WordStack
