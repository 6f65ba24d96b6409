import Lucix.MapExact

/-! `cpu_mm_get_phys_address` beside the walk of the processor, in every tree that calls
of `map_contiguous` build in a new top-level table. The two go through the same
tables and stop at the same entry. For a large page the processor adds the offset of
the address in it to the frame, while the function returns the frame alone. -/
namespace Lucix.PageTable
open Execution (run Guarded run_guarded)
open RadixWalk (walk)

/-- The arguments of a call of `map_contiguous`. -/
structure MapCall where
  vaddr : Nat
  args : MapArgs

def MapCall.step (pages : Nat → Nat) (pgtable : Nat) (s : Tables) (c : MapCall) : Option Tables :=
  mapContiguous pages s pgtable c.args.physAddr c.vaddr c.args.size c.args.big c.args.prot

/-- The result of `cpu_mm_get_phys_address` is the frame that the translation falls in, and the
error value when there is no translation. -/
structure Agrees (s : Tables) (pgtable va : Nat) : Prop where
  error_iff : cpuMmGetPhysAddress s pgtable va = 0xfff ↔ hwTranslate s pgtable va = none
  frame : ∀ pa, hwTranslate s pgtable va = some pa →
    cpuMmGetPhysAddress s pgtable va = pa / 2 ^ 12 * 2 ^ 12

/-- If a large page maps the address, then bits 12 to 20 of its entry are those of the address,
and the reserved ones from 13 on are zero. At an aligned frame this is the first 4 KiB. -/
def OwnFrame (s : Tables) (pgtable va : Nat) : Prop :=
  ∀ w d, walkAt s pgtable (pageIndex va) = some (w, [d]) →
    w / 2 ^ 12 % 2 ^ 9 = va / 2 ^ 12 % 2 ^ 9 ∧ va / 2 ^ 12 % 2 ^ 9 < 2

/-- A tree whose entries are what `map_contiguous` stores: no page is larger than 2 MiB and no
frame has more than 48 bits. -/
structure Built (pages : Nat → Nat) (limit pgtable : Nat) (s : Tables) : Prop where
  rooted : ∃ pos, Rooted pages limit pgtable s pos
  leaves : ∀ x w r, walkAt s pgtable x = some (w, r) → r.length ≤ 1 ∧ w < 2 ^ 48

/-- A call of 4 KiB pages takes the first frame of a large page in its range for a table. That is
none of the tables, nor one that is still to be handed out. -/
def MapCall.Spares (pages : Nat → Nat) (limit pgtable : Nat) (s : Tables) (c : MapCall) : Prop :=
  ∀ x, c.args.start c.vaddr ≤ x → x < c.args.start c.vaddr + c.args.numPages * c.args.unit →
    ∀ w r, walkAt s pgtable x = some (w, r) → c.args.depth < r.length →
      (∀ q, tableOf s pgtable q ≠ some (pa2va (pageFrame w))) ∧
        Settled pages limit s (pa2va (pageFrame w))

section agreement
variable {pages : Nat → Nat} {limit pgtable : Nat} {s s' : Tables} {pos : Nat → Option (List Nat)}
  {p : List Nat} {t i va : Nat} {c : MapCall}

/-! ### The tables on the way -/

theorem Rooted.linked (h : Rooted pages limit pgtable s pos) (hpos : pos t = some p) (hlevel : p.length < 3)
    (hpresent : ¬ s.mem t i &&& presentFlag = 0) (hsize : ¬ s.mem t i &&& pdetPageSize ≠ 0) :
    pos (pa2va (pageFrame (s.mem t i))) = some (p ++ [i]) ∧
      hwFrame (s.mem t i) = pageFrame (s.mem t i) := by
  have hread : hwCoding.read (4 - 1 - p.length) (s.mem t i) = .table (pa2va (hwFrame (s.mem t i))) := by
    have hup : ¬ (4 - 1 - p.length = 0 ∨ s.mem t i &&& pdetPageSize ≠ 0) := not_or.mpr ⟨by omega, hsize⟩
    simp only [hwCoding, if_neg hpresent, if_neg hup]
  have hbelow := h.tree.below t p i _ hpos hread
  have hsame := read_table_frame hread (h.tree.valid _ _ hbelow)
  refine ⟨hsame ▸ hbelow, ?_⟩
  rw [← va2pa_pa2va (hwFrame (s.mem t i)), ← hsame, va2pa_pa2va]

theorem not_large {q : List Nat} (hpresent : ¬ s.mem t i &&& presentFlag = 0) (hq : 1 < q.length)
    (hleaf : ∀ w r, walk hwCoding s.mem t (i :: q) = some (w, r) → r.length ≤ 1 ∧ w < 2 ^ 48) :
    ¬ s.mem t i &&& pdetPageSize ≠ 0 := by
  intro hsize
  have hlen := (hleaf _ _ (walk_value hpresent (.inr hsize))).1
  omega

theorem pagePath_pageIndex (va : Nat) :
    pagePath (pageIndex va) ++ [pageIndex va % 2 ^ 9] =
      [pml4FromVa va, pdptFromVa va, pdetFromVa va, pteFromVa va] := by
  simp only [pagePath, pageIndex, List.cons_append, List.nil_append, List.cons.injEq, and_true,
    pml4FromVa_eq, pdptFromVa_eq, pdetFromVa_eq, pteFromVa_eq]
  omega

/-- The function returns the frame of the entry at which the processor ends. -/
theorem Built.getPhysAddress (h : Built pages limit pgtable s) (va : Nat) :
    cpuMmGetPhysAddress s pgtable va =
      ((walkAt s pgtable (pageIndex va)).map fun r => pageFrame r.1).getD 0xfff := by
  obtain ⟨pos, hrooted⟩ := h.rooted
  have hleaf := h.leaves (pageIndex va)
  rw [walkAt, pagePath_pageIndex] at hleaf ⊢
  unfold cpuMmGetPhysAddress
  dsimp only
  by_cases h₄ : s.mem pgtable (pml4FromVa va) &&& presentFlag = 0
  · rw [if_pos h₄, walk_absent h₄]
    rfl
  have hs₄ := not_large h₄ (by simp) hleaf
  obtain ⟨hpos₃, hframe₄⟩ := hrooted.linked hrooted.root (by simp) h₄ hs₄
  rw [if_neg h₄]
  rw [walk_table h₄ (by simp) hs₄, hframe₄] at hleaf ⊢
  generalize pa2va (pageFrame (s.mem pgtable (pml4FromVa va))) = pdpt at hpos₃ hleaf ⊢
  by_cases h₃ : s.mem pdpt (pdptFromVa va) &&& presentFlag = 0
  · rw [if_pos h₃, walk_absent h₃]
    rfl
  have hs₃ := not_large h₃ (by simp) hleaf
  obtain ⟨hpos₂, hframe₃⟩ := hrooted.linked hpos₃ (by simp) h₃ hs₃
  rw [if_neg h₃, walk_table h₃ (by simp) hs₃, hframe₃]
  generalize pa2va (pageFrame (s.mem pdpt (pdptFromVa va))) = pdet at hpos₂ ⊢
  by_cases h₂ : s.mem pdet (pdetFromVa va) &&& presentFlag = 0
  · rw [if_pos h₂, walk_absent h₂]
    rfl
  by_cases hs₂ : s.mem pdet (pdetFromVa va) &&& pdetPageSize ≠ 0
  · rw [if_neg h₂, if_pos hs₂, walk_value h₂ (.inr hs₂)]
    rfl
  obtain ⟨-, hframe₂⟩ := hrooted.linked hpos₂ (by simp) h₂ hs₂
  rw [if_neg h₂, if_neg hs₂, walk_table h₂ (by simp) hs₂, hframe₂]
  generalize pa2va (pageFrame (s.mem pdet (pdetFromVa va))) = pte
  by_cases h₁ : s.mem pte (pteFromVa va) &&& presentFlag = 0
  · rw [if_pos h₁, walk_absent h₁]
    rfl
  · rw [if_neg h₁, walk_value h₁ (.inl rfl)]
    rfl

/-! ### Runs of calls -/

theorem MapArgs.length_spare (a : MapArgs) (x : Nat) : (a.spare x).length ≤ 1 := by
  unfold MapArgs.spare
  split <;> simp

theorem Built.call (hp : Supply pages limit) (h : Built pages limit pgtable s)
    (hspares : c.Spares pages limit pgtable s) (hstep : c.step pages pgtable s = some s')
    (hroom : s'.next ≤ limit) : Built pages limit pgtable s' := by
  obtain ⟨pos, hrooted⟩ := h.rooted
  obtain ⟨pos', hrooted', hunplaced⟩ := hrooted.prune
  have hspared : c.args.Spared pages limit (c.args.start c.vaddr) (walkAt s pgtable) s pos' := by
    intro x hlow hhigh w r hwalk hdeep
    obtain ⟨hno, hsettled⟩ := hspares x hlow hhigh w r hwalk hdeep
    have hlen := (h.leaves x w r hwalk).1
    exact ⟨by omega, hunplaced _ hno, hsettled⟩
  obtain ⟨hrooted'', hwalks⟩ := mapContiguous_walks hp hrooted' rfl hspared hstep hroom
  refine ⟨hrooted'', fun x w r hwalk => ?_⟩
  rw [hwalks] at hwalk
  split at hwalk
  case isTrue =>
    rw [Option.some.injEq, Prod.mk.injEq] at hwalk
    rw [← hwalk.1, ← hwalk.2]
    exact ⟨c.args.length_spare x, c.args.word_lt _⟩
  case isFalse => exact h.leaves x w r hwalk

theorem built_of_run (hp : Supply pages limit) {mem : Nat → Nat → Nat} {calls : List MapCall}
    (hspares : Guarded (MapCall.step pages (pages 0)) (MapCall.Spares pages limit (pages 0))
      (newRoot pages mem) calls)
    (hrun : run (MapCall.step pages (pages 0)) (newRoot pages mem) calls = some s)
    (hroom : s.next ≤ limit) : Built pages limit (pages 0) s := by
  refine run_guarded (fun s => s.next ≤ limit → Built pages limit (pages 0) s) ?_ ?_ hspares hrun hroom
  · intro s c s' h hguard hstep hroom'
    exact (h ((mapContiguous_later hstep).trans hroom')).call hp hguard hstep hroom'
  · intro hone
    refine ⟨⟨_, newRoot_rooted hp (Nat.lt_of_succ_le hone) mem⟩, fun x w r hwalk => ?_⟩
    rw [walkAt_newRoot] at hwalk
    contradiction

/-! ### The two results -/

theorem pageFrame_ne_error (w : Nat) : pageFrame w ≠ 0xfff := by
  rw [pageFrame_eq]
  omega

theorem pageFrame_mod (w : Nat) : pageFrame w % 2 ^ 12 = 0 := by
  rw [pageFrame_eq]
  omega

/-- The frame in the entry of a large page against the frame of the address. -/
theorem frame_iff (w va : Nat) :
    ¬ pageFrame w % 2 ^ 21 / 2 ^ 13 ≠ 0 ∧
        pageFrame w = (pageFrame w / 2 ^ 21 * 2 ^ 21 + va % 2 ^ 21) / 2 ^ 12 * 2 ^ 12 ↔
      w / 2 ^ 12 % 2 ^ 9 = va / 2 ^ 12 % 2 ^ 9 ∧ va / 2 ^ 12 % 2 ^ 9 < 2 := by
  have hbits : pageFrame w / 2 ^ 12 % 2 ^ 9 = w / 2 ^ 12 % 2 ^ 9 := by
    rw [pageFrame_eq]
    omega
  have hpage := pageFrame_mod w
  omega

section entry
variable {w : Nat} (hget : cpuMmGetPhysAddress s pgtable va = pageFrame w) (hlt : w < 2 ^ 48)
include hget hlt

theorem agrees_of_small (htranslate : hwTranslate s pgtable va = hwAddress va w []) :
    Agrees s pgtable va := by
  rw [hwAddress, hwFrame_of_lt hlt] at htranslate
  refine ⟨iff_of_false (hget ▸ pageFrame_ne_error w) (by simp [htranslate]), fun pa hpa => ?_⟩
  obtain rfl := Option.some.inj (htranslate.symm.trans hpa)
  have hpage := pageFrame_mod w
  rw [hget]
  omega

theorem agrees_large_iff {d : Nat} (htranslate : hwTranslate s pgtable va = hwAddress va w [d]) :
    Agrees s pgtable va ↔ w / 2 ^ 12 % 2 ^ 9 = va / 2 ^ 12 % 2 ^ 9 ∧ va / 2 ^ 12 % 2 ^ 9 < 2 := by
  have hdiffers : ¬ cpuMmGetPhysAddress s pgtable va = 0xfff := hget ▸ pageFrame_ne_error w
  rw [← frame_iff]
  rw [hwAddress, hwLarge, hwFrame_of_lt hlt] at htranslate
  split at htranslate
  case isTrue hreserved =>
    refine iff_of_false (fun h => hdiffers (h.error_iff.mpr htranslate)) fun h => h.1 hreserved
  case isFalse hclear =>
    constructor
    · intro h
      exact ⟨hclear, hget.symm.trans (h.frame _ htranslate)⟩
    · intro h
      refine ⟨iff_of_false hdiffers (by simp [htranslate]), fun pa hpa => ?_⟩
      obtain rfl := Option.some.inj (htranslate.symm.trans hpa)
      exact hget.trans h.2

end entry

theorem Built.agrees_iff (h : Built pages limit pgtable s) (va : Nat) :
    Agrees s pgtable va ↔ OwnFrame s pgtable va := by
  have hget := h.getPhysAddress va
  have htranslate := hwTranslate_eq s pgtable va
  unfold OwnFrame
  cases hwalk : walkAt s pgtable (pageIndex va) with
  | none =>
      rw [hwalk] at hget htranslate
      refine iff_of_true ⟨iff_of_true hget htranslate, fun pa hpa => ?_⟩ fun w d hfound => by contradiction
      rw [htranslate] at hpa
      contradiction
  | some found =>
      obtain ⟨w, r⟩ := found
      obtain ⟨hlen, hlt⟩ := h.leaves _ w r hwalk
      rw [hwalk] at hget htranslate
      rcases r with _ | ⟨d, _ | ⟨d', r⟩⟩
      · exact iff_of_true (agrees_of_small hget hlt htranslate) fun w' d hfound => by simp at hfound
      · rw [agrees_large_iff (d := d) hget hlt htranslate]
        constructor
        · intro hown w' d' hfound
          rw [Option.some.injEq, Prod.mk.injEq] at hfound
          rwa [← hfound.1]
        · intro hown
          exact hown w d rfl
      · simp at hlen

/-- For every tree that calls of `map_contiguous` build, in both page sizes, and every address: the
function agrees with the processor exactly when no large page maps the address, or the entry of
that page names the frame of the address. -/
theorem getPhysAddress_agrees_iff (hp : Supply pages limit) {mem : Nat → Nat → Nat}
    {calls : List MapCall}
    (hspares : Guarded (MapCall.step pages (pages 0)) (MapCall.Spares pages limit (pages 0))
      (newRoot pages mem) calls)
    (hrun : run (MapCall.step pages (pages 0)) (newRoot pages mem) calls = some s)
    (hroom : s.next ≤ limit) (va : Nat) :
    Agrees s (pages 0) va ↔ OwnFrame s (pages 0) va :=
  (built_of_run hp hspares hrun hroom).agrees_iff va

end agreement

/-! ### A large page and a small one -/

def twoSizes : List MapCall :=
  [⟨0, 0, 0x200000, true, kernelProt⟩, ⟨0x400000, 0x5000, 0x1000, false, kernelProt⟩]

/-- In the small page the two agree. -/
theorem small_page_agrees :
    ∃ s, run (MapCall.step lowPages (lowPages 0)) (newRoot lowPages fun _ _ => 0) twoSizes = some s ∧
      Agrees s (lowPages 0) 0x400123 ∧ cpuMmGetPhysAddress s (lowPages 0) 0x400123 = 0x5000 := by
  have hspares : Guarded (MapCall.step lowPages (lowPages 0)) (MapCall.Spares lowPages (2 ^ 30) (lowPages 0))
      (newRoot lowPages fun _ _ => 0) twoSizes := by
    refine ⟨?_, ?_, trivial⟩
    · intro x _ _ w r hwalk
      rw [walkAt_newRoot] at hwalk
      contradiction
    · intro x hlow hhigh w r hwalk
      obtain rfl : x = 0x400 := Nat.le_antisymm (Nat.le_of_lt_succ hhigh) hlow
      rw [show walkAt _ (lowPages 0) 0x400 = none by decide +kernel] at hwalk
      contradiction
  refine ⟨_, rfl, (getPhysAddress_agrees_iff lowPages_supply hspares rfl (by decide +kernel) _).mpr ?_,
    by decide +kernel⟩
  intro w d hwalk
  rw [show walkAt _ (lowPages 0) (pageIndex 0x400123) = some (0x5003, []) by decide +kernel] at hwalk
  simp at hwalk

/-- The addresses that the processor takes. -/
def Canonical (va : Nat) : Prop := va < 2 ^ 47 ∨ 2 ^ 64 - 2 ^ 47 ≤ va ∧ va < 2 ^ 64

/-- In the large page they differ from the second 4 KiB on. -/
theorem second_page_differs :
    ¬ ∀ (pages : Nat → Nat) (limit : Nat) (mem : Nat → Nat → Nat) (calls : List MapCall) (s : Tables)
      (va : Nat), Supply pages limit →
        run (MapCall.step pages (pages 0)) (newRoot pages mem) calls = some s → s.next ≤ limit →
        Canonical va → Agrees s (pages 0) va := by
  intro hall
  have hagrees := hall lowPages (2 ^ 30) (fun _ _ => 0) twoSizes _ 0x1000 lowPages_supply rfl
    (by decide +kernel) (.inl (by norm_num))
  have hframe := hagrees.frame 0x1000 (by decide +kernel)
  revert hframe
  decide +kernel

end Lucix.PageTable
