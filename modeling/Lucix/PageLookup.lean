import Lucix.PageRuns
import Lucix.Word

/-! From a physical address back to its page struct. `get_page_from_paddr` looks for a
zone by the range of its usable pages counted from its base, while the pages of the
metadata zone start behind the reserve. -/
namespace Lucix.PageAlloc

/-- The test that the zone has a page at the address. -/
def ZoneLayout.spans (zone : ZoneLayout) (paddr : Nat) : Bool :=
  decide (zone.physBase ≤ paddr ∧ paddr < wrap64 (zone.physBase + wrap64 (zone.usableNumPages * pageSize)))

def getPageFromPaddr (st : AllocState) (paddr : Nat) : Option Nat :=
  ((List.range st.numZones).find? fun z => (st.zones z).spans paddr).map fun z =>
    let pgindex := sub64 (paddr / pageSize) (st.zones z).absPfnStart
    wrap64 ((st.zones z).memMap + memMapSize * pgindex)

/-- The page struct of page `i` and its frame lead to each other, for every byte of the frame, and
every address for which a page struct is found lies in the frame of that page. -/
structure PagesInvert (st : AllocState) : Prop where
  struct_to_frame : ∀ z < st.numZones, ∀ i < (st.zones z).usableNumPages,
    getZoneAndPfnFromPage st ((st.zones z).pageAddr i) = some (z, i) ∧
      ∃ f, getPhysAddrFromPage st ((st.zones z).pageAddr i) = some f ∧
        ∀ d < pageSize, getPageFromPaddr st (f + d) = some ((st.zones z).pageAddr i)
  frame_to_struct : ∀ a p, getPageFromPaddr st a = some p →
    ∃ z < st.numZones, ∃ i < (st.zones z).usableNumPages, p = (st.zones z).pageAddr i ∧
      getPhysAddrFromPage st p = some (a / pageSize * pageSize)

/-- The address lies in the usable pages of the zone, counted from its base. -/
def InPages (info : CpuMemoryInfo) (b z a : Nat) : Prop :=
  (info.zones z).physBase ≤ a ∧
    a < (info.zones z).physBase + wholeBlocks (zonePages info b z) * pageSize

/-- No address is in the usable pages of two zones, and the metadata zone has no usable page or a
base that is by chance the size of the reserve. -/
structure CountedFromBase (info : CpuMemoryInfo) (b : Nat) : Prop where
  apart : ∀ y < info.numMemZones, ∀ z < info.numMemZones, ∀ a, InPages info b y a → InPages info b z a → y = z
  metadata : wholeBlocks (zonePages info b b) = 0 ∨
    (info.zones b).physBase = maintenancePages (maintenanceMemory info) * pageSize

section booted
variable {phys : PhysMem} {info : CpuMemoryInfo} {b z i a p : Nat} {start : Nat → Nat} {st : AllocState}

theorem Booted.physBase_eq (h : Booted phys info b start st) (hz : z < info.numMemZones) :
    (st.zones z).physBase = (info.zones z).physBase :=
  (h.placed z hz).physBase

theorem pages_end_le (info : CpuMemoryInfo) (b z : Nat) :
    (info.zones z).physBase + wholeBlocks (zonePages info b z) * pageSize < 2 ^ 64 := by
  have hle := (wholeBlocks_le (zonePages info b z)).trans (zonePages_le info b z)
  have hlen := (info.zones z).length_eq
  have hfits := (info.zones z).fits
  have hmul := Nat.mul_le_mul_right pageSize hle
  omega

theorem InPages.usable_pos (h : InPages info b z a) : 0 < wholeBlocks (zonePages info b z) := by
  obtain ⟨hlow, hhigh⟩ := h
  by_contra hzero
  rw [Nat.eq_zero_of_not_pos hzero, Nat.zero_mul] at hhigh
  omega

theorem Booted.spans_iff (h : Booted phys info b start st) (hz : z < info.numMemZones) :
    (st.zones z).spans a = true ↔ InPages info b z a := by
  have hend := pages_end_le info b z
  have hpages : wholeBlocks (zonePages info b z) * pageSize < 2 ^ 64 := by omega
  rw [ZoneLayout.spans, decide_eq_true_iff, h.physBase_eq hz, h.usable_eq hz, InPages,
    wrap64_of_lt hpages, wrap64_of_lt hend]

theorem Booted.find_iff (h : Booted phys info b start st) :
    (List.range st.numZones).find? (fun z => (st.zones z).spans a) = some z ↔
      z < info.numMemZones ∧ InPages info b z a ∧ ∀ y < z, ¬ InPages info b y a := by
  rw [List.find?_range_eq_some, List.mem_range, h.numZones]
  constructor
  · rintro ⟨hspans, hz, hbefore⟩
    refine ⟨hz, (h.spans_iff hz).mp hspans, fun y hy hin => ?_⟩
    have hno := hbefore y hy
    rw [(h.spans_iff (hy.trans hz)).mpr hin] at hno
    simp at hno
  · rintro ⟨hz, hin, hbefore⟩
    refine ⟨(h.spans_iff hz).mpr hin, hz, fun y hy => ?_⟩
    have hno : ¬ (st.zones y).spans a = true := fun hs =>
      hbefore y hy ((h.spans_iff (hy.trans hz)).mp hs)
    simpa using hno

theorem Booted.absPfnStart_other (h : Booted phys info b start st) (hz : z < info.numMemZones)
    (hzb : z ≠ b) : (st.zones z).absPfnStart = (info.zones z).physBase / pageSize := by
  rw [(h.placed z hz).absPfnStart, originZone]
  exact if_neg hzb

theorem Booted.absPfnStart_biggest (h : Booted phys info b start st) :
    (st.zones b).absPfnStart = maintenancePages (maintenanceMemory info) := by
  rw [(h.placed b h.accepted.biggest.lt).absPfnStart, originZone]
  exact if_pos rfl

theorem Booted.pageAddr_lt (h : Booted phys info b start st) (hz : z < info.numMemZones)
    (hi : i < (st.zones z).usableNumPages) : (st.zones z).pageAddr i < 2 ^ 64 := by
  have hmapped : (info.zones b).physBase + (info.zones b).length < 0x100000000 :=
    h.accepted.biggest.mapped
  have hin := h.inside z hz
  have hused := h.used_le
  have hmap := memMap_le_metaBytes (st.zones z).toZoneLayout
  have hlt := Nat.mul_lt_mul_of_pos_left hi (by norm_num [memMapSize] : 0 < memMapSize)
  rw [ZoneLayout.pageAddr, (h.placed z hz).memMap, pa2va_eq_add (by omega), identityBase]
  omega

theorem Booted.pageAddr_inj (h : Booted phys info b start st) {y j : Nat} (hy : y < info.numMemZones)
    (hj : j < (st.zones y).usableNumPages) (hz : z < info.numMemZones)
    (hi : i < (st.zones z).usableNumPages) (heq : (st.zones y).pageAddr j = (st.zones z).pageAddr i) :
    y = z ∧ j = i := by
  have hleft := h.mapsApart.getZoneAndPfnFromPage_pageAddr (h.numZones ▸ hy) hj
  have hright := h.mapsApart.getZoneAndPfnFromPage_pageAddr (h.numZones ▸ hz) hi
  rw [heq, hright, Option.some.injEq, Prod.mk.injEq] at hleft
  exact ⟨hleft.1.symm, hleft.2.symm⟩

/-- In a zone whose pages are counted from its base the search is right. -/
theorem Booted.lookup_eq (h : Booted phys info b start st)
    (hfind : (List.range st.numZones).find? (fun z => (st.zones z).spans a) = some z)
    (hstart : (st.zones z).absPfnStart = (info.zones z).physBase / pageSize) :
    ∃ i < (st.zones z).usableNumPages, getPageFromPaddr st a = some ((st.zones z).pageAddr i) ∧
      getPhysAddrFromPage st ((st.zones z).pageAddr i) = some (a / pageSize * pageSize) := by
  obtain ⟨hz, ⟨hlow, hhigh⟩, -⟩ := h.find_iff.mp hfind
  have hend := pages_end_le info b z
  have hbase := (info.zones z).base_aligned
  have hi : a / pageSize - (info.zones z).physBase / pageSize < (st.zones z).usableNumPages := by
    rw [h.usable_eq hz]
    rw [pageSize] at *
    omega
  have hle : (info.zones z).physBase / pageSize ≤ a / pageSize := Nat.div_le_div_right hlow
  have hword : a / pageSize < 2 ^ 64 := (Nat.div_le_self _ _).trans_lt (hhigh.trans hend)
  refine ⟨a / pageSize - (info.zones z).physBase / pageSize, hi, ?_, ?_⟩
  · have haddr := h.pageAddr_lt hz hi
    rw [ZoneLayout.pageAddr] at haddr
    rw [getPageFromPaddr, hfind, Option.map_some, hstart, sub64_of_le hle hword, wrap64_of_lt haddr]
    rfl
  · rw [h.mapsApart.getPhysAddrFromPage_pageAddr (h.numZones ▸ hz) hi, hstart, Nat.add_sub_of_le hle]

/-! ### What the inverse needs -/

/-- A zone that has a usable page counts its pages from its base. -/
theorem Booted.start_of_invert (h : Booted phys info b start st) (hinv : PagesInvert st)
    (hz : z < info.numMemZones) (hpos : 0 < wholeBlocks (zonePages info b z)) :
    (st.zones z).absPfnStart = (info.zones z).physBase / pageSize := by
  by_cases hzb : z = b
  · subst hzb
    have husable := h.usable_eq hz
    -- every page of the zone is found in the zone itself
    have hown : ∀ i < (st.zones z).usableNumPages,
        InPages info z z (((st.zones z).absPfnStart + i) * pageSize) := by
      intro i hi
      obtain ⟨-, f, hf, hback⟩ := hinv.struct_to_frame z (h.numZones ▸ hz) i hi
      rw [h.mapsApart.getPhysAddrFromPage_pageAddr (h.numZones ▸ hz) hi, Option.some.injEq] at hf
      subst hf
      have hlook := hback 0 (by norm_num [pageSize])
      rw [Nat.add_zero] at hlook
      cases hfind : (List.range st.numZones).find?
          (fun y => (st.zones y).spans (((st.zones z).absPfnStart + i) * pageSize)) with
      | none => simp [getPageFromPaddr, hfind] at hlook
      | some y =>
          obtain ⟨hy, hin, -⟩ := h.find_iff.mp hfind
          by_cases hyz : y = z
          · rwa [hyz] at hin
          · obtain ⟨j, hj, hget, -⟩ := h.lookup_eq hfind (h.absPfnStart_other hy hyz)
            rw [hlook, Option.some.injEq] at hget
            exact absurd (h.pageAddr_inj hz hi hy hj hget).1.symm hyz
    obtain ⟨hlow, -⟩ := hown 0 (by omega)
    obtain ⟨-, hhigh⟩ := hown ((st.zones z).usableNumPages - 1) (by omega)
    have hbase := (info.zones z).base_aligned
    rw [← husable] at hhigh hpos
    rw [pageSize] at *
    omega
  · exact h.absPfnStart_other hz hzb

theorem Booted.found_of_invert (h : Booted phys info b start st) (hinv : PagesInvert st)
    (hz : z < info.numMemZones) (hin : InPages info b z a) {y : Nat}
    (hfind : (List.range st.numZones).find? (fun y => (st.zones y).spans a) = some y) : z = y := by
  obtain ⟨hy, hiny, -⟩ := h.find_iff.mp hfind
  have hstart := h.start_of_invert hinv hz hin.usable_pos
  obtain ⟨j, hj, hget, -⟩ := h.lookup_eq hfind (h.start_of_invert hinv hy hiny.usable_pos)
  have hbase := (info.zones z).base_aligned
  have hi : a / pageSize - (info.zones z).physBase / pageSize < (st.zones z).usableNumPages := by
    rw [h.usable_eq hz]
    obtain ⟨hlow, hhigh⟩ := hin
    rw [pageSize] at *
    omega
  obtain ⟨-, f, hf, hback⟩ := hinv.struct_to_frame z (h.numZones ▸ hz) _ hi
  rw [h.mapsApart.getPhysAddrFromPage_pageAddr (h.numZones ▸ hz) hi, hstart, Option.some.injEq] at hf
  have hlook := hback (a % pageSize) (Nat.mod_lt _ (by norm_num [pageSize]))
  have ha : f + a % pageSize = a := by
    obtain ⟨hlow, hhigh⟩ := hin
    rw [pageSize] at *
    omega
  rw [ha, hget, Option.some.injEq] at hlook
  exact (h.pageAddr_inj hy hj hz hi hlook).1.symm

theorem Booted.countedFromBase (h : Booted phys info b start st) (hinv : PagesInvert st) :
    CountedFromBase info b := by
  refine ⟨fun y hy z hz a hiny hinz => ?_, ?_⟩
  · cases hfind : (List.range st.numZones).find? (fun w => (st.zones w).spans a) with
    | none =>
        rw [List.find?_eq_none] at hfind
        exact absurd ((h.spans_iff hy).mpr hiny) (by simpa using hfind y (by simpa [h.numZones] using hy))
    | some w =>
        rw [h.found_of_invert hinv hy hiny hfind, h.found_of_invert hinv hz hinz hfind]
  · by_cases hzero : wholeBlocks (zonePages info b b) = 0
    · exact .inl hzero
    · right
      have hstart := h.start_of_invert hinv h.accepted.biggest.lt (Nat.pos_of_ne_zero hzero)
      have hbase := (info.zones b).base_aligned
      rw [h.absPfnStart_biggest] at hstart
      rw [hstart, Nat.div_mul_cancel (Nat.dvd_of_mod_eq_zero hbase)]

theorem Booted.start_of_counted (h : Booted phys info b start st) (hc : CountedFromBase info b)
    (hz : z < info.numMemZones) (hpos : 0 < wholeBlocks (zonePages info b z)) :
    (st.zones z).absPfnStart = (info.zones z).physBase / pageSize := by
  by_cases hzb : z = b
  · subst hzb
    rcases hc.metadata with hzero | hbase
    · omega
    · rw [h.absPfnStart_biggest, hbase, Nat.mul_div_cancel _ (by norm_num [pageSize])]
  · exact h.absPfnStart_other hz hzb

theorem Booted.pagesInvert (h : Booted phys info b start st) (hc : CountedFromBase info b) :
    PagesInvert st := by
  refine ⟨fun z hz i hi => ?_, fun a p hget => ?_⟩
  · refine ⟨h.mapsApart.getZoneAndPfnFromPage_pageAddr hz hi, _,
      h.mapsApart.getPhysAddrFromPage_pageAddr hz hi, fun d hd => ?_⟩
    have hz' : z < info.numMemZones := h.numZones ▸ hz
    have husable := h.usable_eq hz'
    have hstart := h.start_of_counted hc hz' (by omega)
    have hbase := (info.zones z).base_aligned
    have hin : InPages info b z (((st.zones z).absPfnStart + i) * pageSize + d) := by
      rw [InPages, hstart]
      rw [pageSize] at *
      omega
    have hfind : (List.range st.numZones).find? (fun y => (st.zones y).spans
        (((st.zones z).absPfnStart + i) * pageSize + d)) = some z :=
      h.find_iff.mpr ⟨hz', hin, fun y hy hiny =>
        Nat.ne_of_lt hy (hc.apart y (hy.trans hz') z hz' _ hiny hin)⟩
    obtain ⟨j, hj, hget, hframe⟩ := h.lookup_eq hfind hstart
    rw [h.mapsApart.getPhysAddrFromPage_pageAddr hz hj, Option.some.injEq] at hframe
    obtain rfl : j = i := by
      rw [pageSize] at *
      omega
    exact hget
  · cases hfind : (List.range st.numZones).find? (fun y => (st.zones y).spans a) with
    | none => simp [getPageFromPaddr, hfind] at hget
    | some z =>
        obtain ⟨hz, hin, -⟩ := h.find_iff.mp hfind
        obtain ⟨i, hi, hget', hframe⟩ := h.lookup_eq hfind (h.start_of_counted hc hz hin.usable_pos)
        rw [hget, Option.some.injEq] at hget'
        exact ⟨z, h.numZones ▸ hz, i, hi, hget', hget' ▸ hframe⟩

end booted

/-- For every memory map that `mem_init` accepts, page structs and physical addresses are inverse
exactly when every zone counts its pages from its base and no two zones overlap. -/
theorem pages_invert_iff (phys : PhysMem) (info : CpuMemoryInfo) (st : AllocState)
    (hst : memInit phys info = some st) :
    PagesInvert st ↔ CountedFromBase info st.biggestMappedIdx := by
  obtain ⟨b, start, h⟩ := booted_of_memInit hst
  rw [h.biggest]
  exact ⟨h.countedFromBase, h.pagesInvert⟩

/-- A zone of sixteen pages at the address that is the size of its reserve. -/
def zoneAtReserve : MemZoneInfo :=
  { zoneAtZero with
    physBase := 0x1000
    base_aligned := by decide
    fits := by decide }

theorem pages_invert_at_reserve : ∃ st, memInit zeroMem (singleZone zoneAtReserve) = some st ∧
    PagesInvert st := by
  have hacc : Accepted (singleZone zoneAtReserve) 0 :=
    accepted_singleZone (by decide) (by decide +kernel)
  obtain ⟨st, start, hst, h⟩ := memInit_of_accepted zeroMem hacc
  refine ⟨st, hst, (pages_invert_iff zeroMem _ st hst).mpr ⟨fun y hy z hz _ _ _ => ?_, .inr ?_⟩⟩
  · have hy' : y < 1 := hy
    have hz' : z < 1 := hz
    omega
  · rw [h.biggest]
    decide +kernel

/-- The last usable page of the metadata zone at address zero is not found by its address. -/
theorem page_at_zero_not_found : ¬ ∀ (phys : PhysMem) (info : CpuMemoryInfo) (st : AllocState),
    memInit phys info = some st → PagesInvert st := by
  intro hall
  obtain ⟨st, start, hst, h⟩ := memInit_of_accepted zeroMem accepted_zoneAtZero
  have hc := h.countedFromBase (hall zeroMem _ st hst)
  rcases hc.metadata with hzero | hbase
  · exact absurd hzero (by decide +kernel)
  · exact absurd hbase (by decide +kernel)

end Lucix.PageAlloc
