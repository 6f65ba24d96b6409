import Lucix.Vma
import Lucix.Execution
import Mathlib.Order.CompletePartialOrder

/-! The layout of an address space under `do_mmap`: the areas stay sorted, disjoint and
below the limit as long as every call finds a place by the rules it was written for and
joins no areas. -/
namespace Lucix.Mm
open Execution

/-- The areas are sorted, disjoint and non-empty, and end below the limit. -/
structure WellLaid (areas : List VmArea) : Prop where
  bounds : ∀ a ∈ areas, a.start < a.endAddr ∧ a.endAddr ≤ x86Limit
  sorted : areas.Pairwise fun a b => a.endAddr ≤ b.start

/-- Every byte that the call asked for lies in an area with the call's file, flags and the
protection that it is given. -/
def Covers (areas : List VmArea) (c : MmapCall) (r : Nat) : Prop :=
  ∃ a ∈ areas, a.file = c.file ∧ a.prot = c.storedProt ∧ a.flags = c.flags ∧
    a.start ≤ r ∧ r + c.length ≤ a.endAddr

def layoutStep (areas : List VmArea) (c : MmapCall) : Option (List VmArea) :=
  (mapArea areas c).map Prod.snd

/-! ### When a call finds a place -/

/-- The attributes that `try_join` compares are those of the new area. -/
def MmapCall.SameKind (c : MmapCall) (a : VmArea) : Prop :=
  a.file = c.file ∧ a.flags = c.flags ∧ a.prot = c.storedProt ∧
    a.vmOps = (c.file.bind File.mmap).getD c.object.vmOps

instance (c : MmapCall) (a : VmArea) : Decidable (c.SameKind a) :=
  inferInstanceAs (Decidable (_ ∧ _))

/-- No area of the same kind touches the range from `start` on. -/
def MmapCall.JoinsNothing (c : MmapCall) (areas : List VmArea) (start : Nat) : Prop :=
  ∀ a ∈ areas, a.endAddr = start ∨ start + c.rounded = a.start → ¬ c.SameKind a

instance (c : MmapCall) (areas : List VmArea) (start : Nat) : Decidable (c.JoinsNothing areas start) :=
  inferInstanceAs (Decidable (∀ a ∈ areas, _))

/-- The range from `start` on is free, below the limit, and joined with nothing. -/
def MmapCall.Lands (c : MmapCall) (areas : List VmArea) (start : Nat) : Prop :=
  start + c.rounded ≤ x86Limit ∧ (∀ a ∈ areas, a.endAddr ≤ start ∨ start + c.rounded ≤ a.start) ∧
    c.JoinsNothing areas start

instance (c : MmapCall) (areas : List VmArea) (start : Nat) : Decidable (c.Lands areas start) :=
  inferInstanceAs (Decidable (_ ∧ _))

/-- Some gap from `low` to the limit is larger than `len` and two pages. -/
def HasGap (len : Nat) : Nat → List VmArea → Prop
  | low, [] => low + len + pageSize * 2 < x86Limit
  | low, area :: rest => low + len + pageSize * 2 < area.start ∨ HasGap len area.endAddr rest

instance HasGap.decidable (len : Nat) : ∀ low areas, Decidable (HasGap len low areas)
  | _, [] => inferInstanceAs (Decidable (_ < _))
  | low, area :: rest =>
      have := HasGap.decidable len area.endAddr rest
      inferInstanceAs (Decidable (low + len + pageSize * 2 < area.start ∨ HasGap len area.endAddr rest))

/-- The call finds a place for its area, and the area is not joined with another: the rounded
length does not wrap; a hint that passes the overlap test stays below the limit; without one there
are areas, and a large enough gap, or where the lowest area lies below the low limit and its
distance from it wraps, the range behind the low limit is free. -/
def MmapCall.Fits (c : MmapCall) (areas : List VmArea) : Prop :=
  c.length ≤ 2 ^ 64 - pageSize ∧
    if c.addr ≠ 0 ∧ isValidVaddrForVma areas c.addr c.rounded = true then
      c.addr + c.rounded ≤ x86Limit ∧ c.JoinsNothing areas c.addr
    else match areas with
      | [] => False
      | first :: _ =>
          if first.start < x86LowLimit then c.Lands areas (x86LowLimit + pageSize)
          else HasGap c.rounded x86LowLimit areas

instance (c : MmapCall) (areas : List VmArea) : Decidable (c.Fits areas) := by
  unfold MmapCall.Fits
  cases areas <;> infer_instance

section place
variable {areas : List VmArea} {c : MmapCall}

theorem rounded_spec (h : c.length ≤ 2 ^ 64 - pageSize) :
    c.length ≤ c.rounded ∧ 0 < c.rounded ∧ c.rounded < 2 ^ 64 := by
  have hpos := c.length_pos
  unfold MmapCall.rounded
  unfold pageSize at *
  split_ifs
  all_goals
    rw [wrap64_of_lt (by omega)]
    omega

/-- In a gap that is larger than the area and two pages, a page stays free on both sides. -/
theorem placeInGap_eq {gapStart gapEnd len : Nat} (hgap : gapStart + len + pageSize * 2 < gapEnd)
    (hend : gapEnd ≤ x86Limit) :
    sub64 gapEnd gapStart > wrap64 (len + pageSize * 2) ∧
      placeInGap gapStart len = (gapStart + pageSize, gapStart + pageSize + len) := by
  unfold x86Limit at hend
  unfold placeInGap
  unfold pageSize at *
  rw [sub64_of_le (by omega) (by omega), wrap64_of_lt (by omega),
    wrap64_of_lt (by omega), wrap64_of_lt (by omega)]
  exact ⟨by omega, rfl⟩

theorem gap_of_gt {gapStart gapEnd len : Nat} (hlen : len + pageSize * 2 < 2 ^ 64)
    (hle : gapStart ≤ gapEnd) (hend : gapEnd ≤ x86Limit)
    (h : sub64 gapEnd gapStart > wrap64 (len + pageSize * 2)) :
    gapStart + len + pageSize * 2 < gapEnd := by
  unfold x86Limit at hend
  rw [sub64_of_le hle (by omega), wrap64_of_lt hlen] at h
  omega

theorem WellLaid.tail {a : VmArea} (h : WellLaid (a :: areas)) : WellLaid areas where
  bounds := fun b hb => h.bounds b (List.mem_cons_of_mem _ hb)
  sorted := h.sorted.of_cons

theorem WellLaid.above {a : VmArea} (h : WellLaid (a :: areas)) : ∀ b ∈ areas, a.endAddr ≤ b.start :=
  (List.pairwise_cons.mp h.sorted).1

theorem WellLaid.below {a : VmArea} {r : Nat} (h : WellLaid (a :: areas)) (hr : r < a.start) :
    ∀ b ∈ a :: areas, r < b.start := by
  intro b hb
  rcases List.mem_cons.mp hb with rfl | hb'
  · exact hr
  · have hbound := h.bounds a List.mem_cons_self
    have habove := h.above b hb'
    omega

theorem HasGap.small {len low : Nat} (hwl : WellLaid areas) (h : HasGap len low areas) :
    len + pageSize * 2 < x86Limit := by
  induction areas generalizing low with
  | nil =>
      have hlast : low + len + pageSize * 2 < x86Limit := h
      omega
  | cons area rest ih =>
      rcases h with hfirst | hrest
      · have := hwl.bounds area List.mem_cons_self
        omega
      · exact ih hwl.tail hrest

/-- Where there is a gap, `cpu_assign_vma_vaddr` finds one, and leaves a page on both sides. -/
theorem assignVmaVaddr_gap {len low : Nat} (hne : areas ≠ []) (hwl : WellLaid areas)
    (hlow : ∀ a ∈ areas, low ≤ a.start) (hgap : HasGap len low areas) :
    ∃ start, assignVmaVaddr len low areas = some (start, start + len) ∧ low < start ∧
      start + len ≤ x86Limit ∧ ∀ a ∈ areas, a.endAddr < start ∨ start + len < a.start := by
  have hsmall := hgap.small hwl
  have hlen : len + pageSize * 2 < 2 ^ 64 := by
    unfold x86Limit at hsmall
    omega
  have hpage : 0 < pageSize := by decide
  induction areas generalizing low with
  | nil => contradiction
  | cons area rest ih =>
      obtain ⟨hnonempty, hlimit⟩ := hwl.bounds area List.mem_cons_self
      have habove := hwl.above
      have hlowarea := hlow area List.mem_cons_self
      unfold assignVmaVaddr
      dsimp only
      by_cases hprev : sub64 area.start low > wrap64 (len + pageSize * 2)
      · -- the gap before the area
        have hroom := gap_of_gt hlen hlowarea (by omega) hprev
        rw [if_pos hprev, (placeInGap_eq hroom (by omega)).2]
        exact ⟨low + pageSize, rfl, by omega, by omega, fun a ha => .inr (hwl.below (by omega) a ha)⟩
      · rw [if_neg hprev]
        have hrest : HasGap len area.endAddr rest := by
          rcases hgap with hfirst | hrest
          · exact absurd (placeInGap_eq hfirst (by omega)).1 hprev
          · exact hrest
        cases rest with
        | nil =>
            have hlast : area.endAddr + len + pageSize * 2 < x86Limit := hrest
            obtain ⟨htaken, hplace⟩ := placeInGap_eq hlast (Nat.le_refl _)
            dsimp only
            rw [if_pos htaken, hplace]
            refine ⟨area.endAddr + pageSize, rfl, by omega, by omega, ?_⟩
            intro a ha
            obtain rfl := List.mem_singleton.mp ha
            left
            omega
        | cons next rest =>
            have hnext := habove next List.mem_cons_self
            have hnextlimit := hwl.tail.bounds next List.mem_cons_self
            dsimp only
            by_cases htaken : sub64 next.start area.endAddr > wrap64 (len + pageSize * 2)
            · have hroom := gap_of_gt hlen hnext (by omega) htaken
              rw [if_pos htaken, (placeInGap_eq hroom (by omega)).2]
              refine ⟨area.endAddr + pageSize, rfl, by omega, by omega, ?_⟩
              intro a ha
              rcases List.mem_cons.mp ha with rfl | ha'
              · left
                omega
              · exact .inr (hwl.tail.below (by omega) a ha')
            · rw [if_neg htaken]
              obtain ⟨start, hstart, hbehind, hend, hclear⟩ := ih (List.cons_ne_nil _ _) hwl.tail habove
                hrest
              refine ⟨start, hstart, by omega, hend, ?_⟩
              intro a ha
              rcases List.mem_cons.mp ha with rfl | ha'
              · exact .inl hbehind
              · exact hclear a ha'

theorem isValidVaddrForVma_clear {addr length : Nat} (hwrap : addr + length < 2 ^ 64)
    (h : isValidVaddrForVma areas addr length = true) {a : VmArea} (ha : a ∈ areas) :
    a.endAddr ≤ addr ∨ addr + length ≤ a.start := by
  have hall := List.all_eq_true.mp h a ha
  rw [wrap64_of_lt hwrap] at hall
  split_ifs at hall with hinside hleft hright
  by_contra hoverlap
  omega

theorem isValidVaddrForVma_of_clear {addr length : Nat} (hpos : 0 < length) (hwrap : addr + length < 2 ^ 64)
    (hbounds : ∀ a ∈ areas, a.start < a.endAddr)
    (hclear : ∀ a ∈ areas, a.endAddr ≤ addr ∨ addr + length ≤ a.start) :
    isValidVaddrForVma areas addr length = true := by
  refine List.all_eq_true.mpr fun a ha => ?_
  have hbound := hbounds a ha
  have hside := hclear a ha
  rw [wrap64_of_lt hwrap, if_neg (by omega), if_neg (by omega), if_neg (by omega)]

theorem disjoint_area_iff {addr length : Nat} {a : VmArea} (hpos : 0 < length) (ha : a.start < a.endAddr) :
    Disjoint (Set.Ico addr (addr + length)) (Set.Ico a.start a.endAddr) ↔
      a.endAddr ≤ addr ∨ addr + length ≤ a.start := by
  rw [Set.Ico_disjoint_Ico]
  omega

/-- The three tests that are made of each area decide whether the range meets one of them. -/
theorem isValidVaddrForVma_iff_disjoint (areas : List VmArea) (addr length : Nat)
    (hareas : ∀ a ∈ areas, a.start < a.endAddr) (hpos : 0 < length) (hwrap : addr + length < 2 ^ 64) :
    isValidVaddrForVma areas addr length = true ↔
      ∀ a ∈ areas, Disjoint (Set.Ico addr (addr + length)) (Set.Ico a.start a.endAddr) := by
  constructor
  · intro hvalid a ha
    exact (disjoint_area_iff hpos (hareas a ha)).mpr (isValidVaddrForVma_clear hwrap hvalid ha)
  · intro hdisjoint
    apply isValidVaddrForVma_of_clear hpos hwrap hareas
    intro a ha
    exact (disjoint_area_iff hpos (hareas a ha)).mp (hdisjoint a ha)

def touchedArea : VmArea :=
  ⟨0x3000, 0x5000, 0x2000, ⟨true, true, true, false, false, 0⟩, ⟨true, true, false, 0⟩, none, 0, 0, .null⟩

/-- A range that ends where an area starts passes. -/
theorem isValidVaddrForVma_iff_disjoint_touching :
    isValidVaddrForVma [touchedArea] 0x1000 0x2000 = true ∧
      Disjoint (Set.Ico 0x1000 0x3000) (Set.Ico 0x3000 0x5000) :=
  ⟨by decide +kernel, (isValidVaddrForVma_iff_disjoint [touchedArea] 0x1000 0x2000 (by decide) (by decide)
    (by decide)).mp (by decide +kernel) touchedArea List.mem_cons_self⟩

/-- A call that fits gets the range it asked for, free and below the limit, and touches no area
that it could be joined with. -/
theorem MmapCall.Fits.place (hwl : WellLaid areas) (h : c.Fits areas) :
    (c.place areas).2 = (c.place areas).1 + c.rounded ∧ c.Lands areas (c.place areas).1 := by
  obtain ⟨hlength, hcase⟩ := h
  obtain ⟨-, hpos, hlt⟩ := rounded_spec hlength
  unfold MmapCall.place
  by_cases hhint : c.addr ≠ 0 ∧ isValidVaddrForVma areas c.addr c.rounded = true
  · rw [if_pos hhint] at hcase ⊢
    obtain ⟨hlimit, hapart⟩ := hcase
    have hwrap : c.addr + c.rounded < 2 ^ 64 := by
      unfold x86Limit at hlimit
      omega
    exact ⟨wrap64_of_lt hwrap, hlimit, fun a ha => isValidVaddrForVma_clear hwrap hhint.2 ha, hapart⟩
  · rw [if_neg hhint] at hcase ⊢
    cases areas with
    | nil => contradiction
    | cons first rest =>
        dsimp only at hcase
        by_cases hbelow : first.start < x86LowLimit
        · -- the distance from the low limit down to the first area wraps
          rw [if_pos hbelow] at hcase
          have hlimit := hcase.1
          have htaken : sub64 first.start x86LowLimit > wrap64 (c.rounded + pageSize * 2) := by
            unfold x86Limit x86LowLimit pageSize at *
            rw [sub64, wrap64_of_lt (by omega), Nat.mod_eq_of_lt (by omega)]
            omega
          have hplace : placeInGap x86LowLimit c.rounded =
              (x86LowLimit + pageSize, x86LowLimit + pageSize + c.rounded) := by
            unfold x86Limit x86LowLimit pageSize at *
            rw [placeInGap, wrap64_of_lt (by decide), wrap64_of_lt (by unfold pageSize; omega)]
            rfl
          have hassign : cpuAssignVmaVaddr (first :: rest) c.rounded =
              some (x86LowLimit + pageSize, x86LowLimit + pageSize + c.rounded) := by
            unfold cpuAssignVmaVaddr assignVmaVaddr
            rw [if_pos htaken, hplace]
          rw [hassign]
          exact ⟨rfl, hcase⟩
        · rw [if_neg hbelow] at hcase
          have hlow : ∀ a ∈ first :: rest, x86LowLimit ≤ a.start := by
            intro a ha
            have hnonempty := (hwl.bounds first List.mem_cons_self).1
            rcases List.mem_cons.mp ha with rfl | ha'
            · omega
            · have := hwl.above a ha'
              omega
          obtain ⟨start, hstart, -, hend, hclear⟩ :=
            assignVmaVaddr_gap (List.cons_ne_nil _ _) hwl hlow hcase
          rw [cpuAssignVmaVaddr, hstart, Option.getD_some]
          refine ⟨rfl, hend, fun a ha => ?_, fun a ha htouch => ?_⟩
          all_goals
            have := hclear a ha
            have := (hwl.bounds a ha).1
            dsimp only at *
            omega

end place

/-! ### Insertion -/

section insertion
variable {areas : List VmArea} {vma : VmArea}

theorem mem_insertSorted {a : VmArea} : a ∈ insertSorted vma areas ↔ a = vma ∨ a ∈ areas := by
  induction areas with
  | nil => simp [insertSorted]
  | cons b rest ih =>
      unfold insertSorted
      split
      · simp
      · rw [List.mem_cons, ih, List.mem_cons]
        tauto

/-- A relation that the new area has to all areas, on the side it is put, extends to the list. -/
theorem insertSorted_pairwise {R : VmArea → VmArea → Prop} (hwl : WellLaid areas)
    (hpair : areas.Pairwise R) (hafter : ∀ a ∈ areas, vma.start < a.start → R vma a)
    (hbefore : ∀ a ∈ areas, ¬ vma.start < a.start → R a vma) : (insertSorted vma areas).Pairwise R := by
  induction areas with
  | nil => simp [insertSorted]
  | cons b rest ih =>
      obtain ⟨hb, hrest⟩ := List.pairwise_cons.mp hpair
      unfold insertSorted
      split
      case isTrue hlt =>
        refine List.pairwise_cons.mpr ⟨?_, hpair⟩
        intro a ha
        apply hafter a ha
        rcases List.mem_cons.mp ha with rfl | ha'
        · exact hlt
        · have := hwl.above a ha'
          have := (hwl.bounds b List.mem_cons_self).1
          omega
      case isFalse hge =>
        refine List.pairwise_cons.mpr ⟨?_, ih hwl.tail hrest ?_ ?_⟩
        · intro a ha
          rcases mem_insertSorted.mp ha with rfl | ha'
          · exact hbefore b List.mem_cons_self hge
          · exact hb a ha'
        · exact fun a ha => hafter a (List.mem_cons_of_mem _ ha)
        · exact fun a ha => hbefore a (List.mem_cons_of_mem _ ha)

theorem tryJoin_apart (h : areas.Pairwise fun a b => ¬ a.Joins b) : tryJoin areas = (areas, none) := by
  induction areas with
  | nil => rfl
  | cons a rest ih =>
      obtain ⟨ha, hrest⟩ := List.pairwise_cons.mp h
      cases rest with
      | nil => rfl
      | cons b rest =>
          rw [tryJoin, if_neg (ha b List.mem_cons_self), ih hrest]

theorem tryJoin_none {areas' : List VmArea} (h : tryJoin areas = (areas', none)) : areas' = areas := by
  induction areas generalizing areas' with
  | nil => exact (Prod.mk.inj h).1.symm
  | cons current rest ih =>
      cases rest with
      | nil => exact (Prod.mk.inj h).1.symm
      | cons next rest =>
          rw [tryJoin] at h
          split_ifs at h
          · exact absurd (Prod.mk.inj h).2 (by simp)
          · obtain ⟨rfl, hnone⟩ := Prod.mk.inj h
            exact congrArg (List.cons current) (ih (Prod.ext rfl hnone))

theorem insertSorted_length (vma : VmArea) (areas : List VmArea) :
    (insertSorted vma areas).length = areas.length + 1 := by
  induction areas with
  | nil => rfl
  | cons area rest ih =>
      rw [insertSorted]
      split
      · rfl
      · rw [List.length_cons, ih, List.length_cons]

theorem insertVma_length {areas' : List VmArea} (h : insertVma areas vma = (areas', none)) :
    areas'.length = areas.length + 1 := by
  unfold insertVma at h
  split_ifs at h with hnil
  · rw [← (Prod.mk.inj h).1, hnil]
    rfl
  · rw [tryJoin_none h, insertSorted_length]

/-- No two areas could be joined. -/
def Apart (areas : List VmArea) : Prop := areas.Pairwise fun a b => ¬ a.Joins b

theorem insertVma_free (hwl : WellLaid areas) (hapart : Apart areas) (hstart : vma.start < vma.endAddr)
    (hend : vma.endAddr ≤ x86Limit)
    (hclear : ∀ a ∈ areas, a.endAddr ≤ vma.start ∨ vma.endAddr ≤ a.start)
    (hjoins : ∀ a ∈ areas, ¬ a.Joins vma ∧ ¬ vma.Joins a) :
    insertVma areas vma = (insertSorted vma areas, none) ∧ WellLaid (insertSorted vma areas) ∧
      Apart (insertSorted vma areas) := by
  have hsorted : WellLaid (insertSorted vma areas) := by
    refine ⟨?_, insertSorted_pairwise hwl hwl.sorted ?_ ?_⟩
    · intro a ha
      rcases mem_insertSorted.mp ha with rfl | ha'
      · exact ⟨hstart, hend⟩
      · exact hwl.bounds a ha'
    · intro a ha hlt
      have := hclear a ha
      have := (hwl.bounds a ha).1
      omega
    · intro a ha hge
      have := hclear a ha
      omega
  have happ : Apart (insertSorted vma areas) :=
    insertSorted_pairwise hwl hapart (fun a ha _ => (hjoins a ha).2) (fun a ha _ => (hjoins a ha).1)
  refine ⟨?_, hsorted, happ⟩
  unfold insertVma
  split
  case isTrue hnil => rw [hnil]; rfl
  case isFalse => exact tryJoin_apart happ

theorem WellLaid.unique (h : WellLaid areas) {a b : VmArea} (ha : a ∈ areas) (hb : b ∈ areas) {va : Nat}
    (hva : a.start ≤ va ∧ va < a.endAddr) (hvb : b.start ≤ va ∧ va < b.endAddr) : a = b := by
  have hapart : areas.Pairwise fun a b => a.endAddr ≤ b.start ∨ b.endAddr ≤ a.start :=
    h.sorted.imp fun hle => .inl hle
  have hsymm : Std.Symm fun a b : VmArea => a.endAddr ≤ b.start ∨ b.endAddr ≤ a.start := ⟨fun _ _ => Or.symm⟩
  by_contra hne
  have := hapart.forall ha hb hne
  omega

theorem findVmaForAddress_some {va : Nat} {a : VmArea} (h : findVmaForAddress va areas = some a) :
    a ∈ areas ∧ a.start ≤ va ∧ va < a.endAddr := by
  unfold findVmaForAddress at h
  exact ⟨List.mem_of_find?_eq_some h, by simpa using List.find?_some h⟩

theorem findVmaForAddress_none {va : Nat} (h : findVmaForAddress va areas = none) {a : VmArea}
    (ha : a ∈ areas) : ¬ (a.start ≤ va ∧ va < a.endAddr) := by
  unfold findVmaForAddress at h
  simpa using List.find?_eq_none.mp h a ha

end insertion

/-! ### Runs -/

theorem mapArea_fits {areas : List VmArea} {c : MmapCall} (hwl : WellLaid areas) (hapart : Apart areas)
    (h : c.Fits areas) :
    mapArea areas c = some ((c.area areas).start, insertSorted (c.area areas) areas) ∧
      WellLaid (insertSorted (c.area areas) areas) ∧ Apart (insertSorted (c.area areas) areas) ∧
      (c.area areas).endAddr = (c.area areas).start + c.rounded := by
  obtain ⟨hlength, hpos, -⟩ := rounded_spec h.1
  obtain ⟨hend, hlimit, hclear, hapart'⟩ := h.place hwl
  have hend' : (c.area areas).endAddr = (c.area areas).start + c.rounded := hend
  have hjoins : ∀ a ∈ areas, ¬ a.Joins (c.area areas) ∧ ¬ (c.area areas).Joins a := by
    intro a ha
    have hkind := hapart' a ha
    constructor
    · rintro ⟨htouch, hfile, hflags, hprot, hops⟩
      exact hkind (.inl htouch) ⟨hfile, hflags, hprot, hops⟩
    · rintro ⟨htouch, hfile, hflags, hprot, hops⟩
      exact hkind (.inr (hend.symm.trans htouch)) ⟨hfile.symm, hflags.symm, hprot.symm, hops.symm⟩
  obtain ⟨hinsert, hwl', happ⟩ := insertVma_free hwl hapart (by omega)
    (hend'.trans_le hlimit) (fun a ha => hend'.symm ▸ hclear a ha) hjoins
  refine ⟨?_, hwl', happ, hend'⟩
  rw [mapArea, hinsert]

/-- After every call of a run whose calls fit, the areas are laid out well and the range that the
call asked for is mapped as it asked. -/
theorem run_layout {calls : List MmapCall} {c : MmapCall}
    (hfits : Guarded layoutStep (fun areas c => c.Fits areas) [] (calls ++ [c])) :
    ∃ areas r areas', run layoutStep [] calls = some areas ∧ mapArea areas c = some (r, areas') ∧
      WellLaid areas' ∧ Covers areas' c r := by
  obtain ⟨hcalls, hlast⟩ := hfits.last
  obtain ⟨areas, hrun, hwl, hapart⟩ := run_invariant (fun areas => WellLaid areas ∧ Apart areas)
    (by
      rintro areas c ⟨hwl, hapart⟩ hc
      obtain ⟨hmap, hwl', hapart', -⟩ := mapArea_fits hwl hapart hc
      exact ⟨_, by rw [layoutStep, hmap]; rfl, hwl', hapart'⟩)
    ⟨⟨by simp, .nil⟩, .nil⟩ hcalls
  have hc := hlast areas hrun
  obtain ⟨hmap, hwl', -, hend⟩ := mapArea_fits hwl hapart hc
  obtain ⟨hlength, -⟩ := rounded_spec hc.1
  refine ⟨areas, _, _, hrun, hmap, hwl', c.area areas, mem_insertSorted.mpr (.inl rfl), rfl, rfl, rfl,
    Nat.le_refl _, ?_⟩
  omega

/-- An object of `vm_area_cache` that was never used. -/
def clearedObject : VmArea :=
  ⟨0, 0, 0, ⟨false, false, false, false, false, 0⟩, ⟨false, false, false, 0⟩, none, 0, 0, .null⟩

/-- An anonymous mapping. -/
def anonymousCall (addr length : Nat) (haddr : addr < 2 ^ 64) (hpos : 0 < length)
    (hlt : length < 2 ^ 64) : MmapCall where
  file := none
  addr := addr
  length := length
  prot := ⟨true, true, false, true, false, 0⟩
  flags := ⟨true, false, false, 0⟩
  type := 0
  pgoff := 0
  object := clearedObject
  addr_lt := haddr
  length_pos := hpos
  length_lt := hlt

/-- A stack at the top, then two mappings without a hint. -/
theorem run_layout_stack :
    ∃ areas r areas', run layoutStep []
        [anonymousCall 0x7fffff000000 0x10000 (by decide) (by decide) (by decide),
          anonymousCall 0 0x2001 (by decide) (by decide) (by decide)] = some areas ∧
      mapArea areas (anonymousCall 0 0x2001 (by decide) (by decide) (by decide)) = some (r, areas') ∧
      WellLaid areas' ∧
      Covers areas' (anonymousCall 0 0x2001 (by decide) (by decide) (by decide)) r :=
  run_layout (by decide +kernel)

/-- The first mapping of an address space, without a hint: no gap is found, and the area has the
addresses that the object held. -/
theorem first_mapping_unplaced :
    ∃ areas, mapArea [] (anonymousCall 0 0x1000 (by decide) (by decide) (by decide)) = some (0, areas) ∧
      ¬ WellLaid areas ∧ ¬ Covers areas (anonymousCall 0 0x1000 (by decide) (by decide) (by decide)) 0 := by
  refine ⟨_, rfl, ?_, ?_⟩
  · intro hwl
    exact absurd (hwl.bounds _ List.mem_cons_self).1 (by decide)
  · rintro ⟨a, ha, -, -, -, -, hend⟩
    obtain rfl := List.mem_singleton.mp ha
    exact absurd hend (by decide)

end Lucix.Mm
