import Lucix.PageLayout

/-! From a page struct to its page frame. `mem_init` packs the page structs and
bitmaps of all zones one behind the other, so an address decides the zone and the
index of a page struct. The frame it stands for is counted from `abs_pfn_start`,
which `__init_maintenance_zone` sets without the base of the zone. -/
namespace Lucix.PageAlloc
open Ring Execution

/-- The page structs of different zones do not overlap, and the identity map is a shift
on them. -/
structure AllocState.MapsApart (st : AllocState) : Prop where
  shift : ∀ z < st.numZones, ∀ k ≤ memMapSize * (st.zones z).usableNumPages,
    va2pa ((st.zones z).memMap + k) = va2pa (st.zones z).memMap + k
  apart : ∀ y < st.numZones, ∀ z < st.numZones, y ≠ z →
    va2pa (st.zones y).memMap + memMapSize * (st.zones y).usableNumPages ≤
        va2pa (st.zones z).memMap ∨
      va2pa (st.zones z).memMap + memMapSize * (st.zones z).usableNumPages ≤
        va2pa (st.zones y).memMap

namespace AllocState.MapsApart

variable {st : AllocState} {z i : Nat}

theorem va2pa_pageAddr (h : st.MapsApart) (hz : z < st.numZones)
    (hi : i < (st.zones z).usableNumPages) :
    va2pa ((st.zones z).pageAddr i) = va2pa (st.zones z).memMap + memMapSize * i :=
  h.shift z hz _ (Nat.mul_le_mul_left _ (Nat.le_of_lt hi))

theorem getZoneAndPfnFromPage_pageAddr (h : st.MapsApart) (hz : z < st.numZones)
    (hi : i < (st.zones z).usableNumPages) :
    getZoneAndPfnFromPage st ((st.zones z).pageAddr i) = some (z, i) := by
  have haddr := h.va2pa_pageAddr hz hi
  have hlt : memMapSize * i < memMapSize * (st.zones z).usableNumPages :=
    Nat.mul_lt_mul_of_pos_left hi (by norm_num [memMapSize])
  have hfind : (List.range st.numZones).find?
      (fun y => (st.zones y).holds ((st.zones z).pageAddr i)) = some z := by
    refine List.find?_range_eq_some.mpr ⟨?_, List.mem_range.mpr hz, fun y hy => ?_⟩
    · simp only [ZoneLayout.holds, haddr, decide_eq_true_eq]
      omega
    · have := h.apart y (hy.trans hz) z hz (Nat.ne_of_lt hy)
      simp only [ZoneLayout.holds, haddr, Bool.not_eq_true', decide_eq_false_iff_not]
      omega
  rw [getZoneAndPfnFromPage, hfind, Option.map_some, haddr, Nat.add_sub_cancel_left,
    Nat.mul_div_cancel_left i (by norm_num [memMapSize])]

theorem getPhysAddrFromPage_pageAddr (h : st.MapsApart) (hz : z < st.numZones)
    (hi : i < (st.zones z).usableNumPages) :
    getPhysAddrFromPage st ((st.zones z).pageAddr i) =
      some (((st.zones z).absPfnStart + i) * pageSize) := by
  rw [getPhysAddrFromPage, h.getZoneAndPfnFromPage_pageAddr hz hi]
  rfl

end AllocState.MapsApart

section booted
variable {phys : PhysMem} {info : CpuMemoryInfo} {b : Nat} {start : Nat → Nat} {st : AllocState}

theorem Booted.used_le (h : Booted phys info b start st) :
    st.totalMaintenanceUsed ≤ (info.zones b).length :=
  h.used.le.trans ((metadataBytes_le info b).trans h.accepted.room)

/-- Metadata lives where the identity map is a shift. -/
theorem Booted.va2pa_add (h : Booted phys info b start st) {k : Nat}
    (hk : k ≤ st.totalMaintenanceUsed) :
    va2pa (pa2va (info.zones b).physBase + k) = (info.zones b).physBase + k := by
  have hused := h.used_le
  have hmapped : (info.zones b).physBase + (info.zones b).length < 0x100000000 :=
    h.accepted.biggest.mapped
  apply Lucix.va2pa_add
  omega

theorem Booted.va2pa_memMap (h : Booted phys info b start st) {z : Nat}
    (hz : z < info.numMemZones) {k : Nat} (hk : k ≤ (st.zones z).metaBytes) :
    va2pa ((st.zones z).memMap + k) = (info.zones b).physBase + start z + k := by
  have := h.inside z hz
  rw [(h.placed z hz).memMap, Nat.add_assoc, h.va2pa_add (by omega), Nat.add_assoc]

theorem memMap_le_metaBytes (zone : ZoneLayout) :
    memMapSize * zone.usableNumPages ≤ zone.metaBytes :=
  Nat.le_add_right _ _

theorem Booted.mapsApart (h : Booted phys info b start st) : st.MapsApart := by
  have hn := h.numZones
  have hbase : ∀ z < st.numZones, va2pa (st.zones z).memMap =
      (info.zones b).physBase + start z := fun z hz =>
    h.va2pa_memMap (hn ▸ hz) (Nat.zero_le _)
  refine ⟨fun z hz k hk => ?_, fun y hy z hz hne => ?_⟩
  · rw [hbase z hz, h.va2pa_memMap (hn ▸ hz) (hk.trans (memMap_le_metaBytes _))]
  · have hyz := h.apart y (hn ▸ hy) z (hn ▸ hz) hne
    have := memMap_le_metaBytes (st.zones y).toZoneLayout
    have := memMap_le_metaBytes (st.zones z).toZoneLayout
    rw [hbase y hy, hbase z hz]
    omega

end booted

/-! ### The bytes of the metadata -/

/-- Physical address `a` belongs to a page struct or to a bitmap of some zone. -/
def AllocState.Metadata (st : AllocState) (a : Nat) : Prop :=
  ∃ z < st.numZones,
    (∃ k < memMapSize * (st.zones z).usableNumPages, a = va2pa ((st.zones z).memMap + k)) ∨
    ∃ o < bitmapOrders (st.zones z).maxOrder, ∃ k < (st.zones z).bitmapSizes o,
      a = va2pa ((st.zones z).map o + k)

/-- Ranges laid end to end leave no gap. -/
theorem exists_range_of_lt_sum (f : Nat → Nat) {n a : Nat} (h : a < ∑ i ∈ Finset.range n, f i) :
    ∃ o < n, ∃ k < f o, a = ∑ i ∈ Finset.range o, f i + k := by
  induction n with
  | zero => simp at h
  | succ n ih =>
      by_cases hlt : a < ∑ i ∈ Finset.range n, f i
      · obtain ⟨o, ho, hk⟩ := ih hlt
        exact ⟨o, Nat.lt_succ_of_lt ho, hk⟩
      · rw [Finset.sum_range_succ] at h
        exact ⟨n, Nat.lt_succ_self n, a - ∑ i ∈ Finset.range n, f i, by omega, by omega⟩

theorem sum_range_add_le (f : Nat → Nat) {o n : Nat} (h : o < n) :
    ∑ i ∈ Finset.range o, f i + f o ≤ ∑ i ∈ Finset.range n, f i := by
  rw [← Finset.sum_range_succ]
  exact Finset.sum_le_sum_of_subset (Finset.range_subset_range.mpr h)

section booted
variable {phys : PhysMem} {info : CpuMemoryInfo} {b : Nat} {start : Nat → Nat} {st : AllocState}

theorem Booted.va2pa_map (h : Booted phys info b start st) {z o k : Nat}
    (hz : z < info.numMemZones) (ho : o < bitmapOrders (st.zones z).maxOrder)
    (hk : k ≤ (st.zones z).bitmapSizes o) :
    va2pa ((st.zones z).map o + k) = (info.zones b).physBase + start z +
      (memMapSize * (st.zones z).usableNumPages +
        (∑ i ∈ Finset.range o, (st.zones z).bitmapSizes i + k)) := by
  have hin := h.inside z hz
  have hsum := sum_range_add_le (st.zones z).bitmapSizes ho
  have ho' := ho
  rw [ZoneLayout.metaBytes] at hin
  rw [bitmapOrders] at ho'
  rw [(h.placed z hz).map o (by omega) (by omega), Nat.add_assoc, h.va2pa_add (by omega)]
  omega

/-- The page structs and bitmaps of all zones fill the start of the biggest mapped zone. -/
theorem Booted.metadata_iff (h : Booted phys info b start st) (a : Nat) :
    st.Metadata a ↔ (info.zones b).physBase ≤ a ∧
      a < (info.zones b).physBase + st.totalMaintenanceUsed := by
  constructor
  · rintro ⟨z, hz, ⟨k, hk, rfl⟩ | ⟨o, ho, k, hk, rfl⟩⟩
    · rw [h.numZones] at hz
      have hin := h.inside z hz
      have := memMap_le_metaBytes (st.zones z).toZoneLayout
      rw [h.va2pa_memMap hz (by omega)]
      omega
    · rw [h.numZones] at hz
      have hin := h.inside z hz
      have hsum := sum_range_add_le (st.zones z).bitmapSizes ho
      rw [ZoneLayout.metaBytes] at hin
      rw [h.va2pa_map hz ho (Nat.le_of_lt hk)]
      omega
  · rintro ⟨hle, hlt⟩
    obtain ⟨z, hz, hlo, hhi⟩ := h.tile (a - (info.zones b).physBase) (by omega)
    refine ⟨z, h.numZones ▸ hz, ?_⟩
    by_cases hmap : a - (info.zones b).physBase - start z <
        memMapSize * (st.zones z).usableNumPages
    · refine .inl ⟨a - (info.zones b).physBase - start z, hmap, ?_⟩
      rw [h.va2pa_memMap hz (by omega)]
      omega
    · rw [ZoneLayout.metaBytes] at hhi
      have hoff : a - (info.zones b).physBase - start z -
          memMapSize * (st.zones z).usableNumPages <
          ∑ i ∈ Finset.range (bitmapOrders (st.zones z).maxOrder), (st.zones z).bitmapSizes i := by
        omega
      obtain ⟨o, ho, k, hk, heq⟩ := exists_range_of_lt_sum (st.zones z).bitmapSizes hoff
      refine .inr ⟨o, ho, k, hk, ?_⟩
      rw [h.va2pa_map hz ho (Nat.le_of_lt hk)]
      omega

/-! ### The frames of the pages -/

/-- No address lies in two zones of the memory map. -/
def CpuMemoryInfo.Disjoint (info : CpuMemoryInfo) : Prop :=
  ∀ y < info.numMemZones, ∀ z < info.numMemZones, ∀ a,
    (info.zones y).physBase ≤ a → a < (info.zones y).physBase + (info.zones y).length →
    (info.zones z).physBase ≤ a → a < (info.zones z).physBase + (info.zones z).length → y = z

/-- Every page has a frame of its own, inside its zone and clear of the metadata. -/
structure FramesSound (info : CpuMemoryInfo) (st : AllocState) : Prop where
  inside : ∀ z < st.numZones, ∀ i < (st.zones z).usableNumPages,
    ∃ f, getPhysAddrFromPage st ((st.zones z).pageAddr i) = some f ∧
      (info.zones z).physBase ≤ f ∧
      f + pageSize ≤ (info.zones z).physBase + (info.zones z).length
  distinct : ∀ y < st.numZones, ∀ i < (st.zones y).usableNumPages,
    ∀ z < st.numZones, ∀ j < (st.zones z).usableNumPages,
      getPhysAddrFromPage st ((st.zones y).pageAddr i) =
        getPhysAddrFromPage st ((st.zones z).pageAddr j) → y = z ∧ i = j
  clear : ∀ z < st.numZones, ∀ i < (st.zones z).usableNumPages, ∀ f,
    getPhysAddrFromPage st ((st.zones z).pageAddr i) = some f →
      ∀ a, f ≤ a → a < f + pageSize → ¬ st.Metadata a

/-- The frame the allocator computes for page `i` of zone `z`. -/
def frameOf (info : CpuMemoryInfo) (b z i : Nat) : Nat :=
  ((if z = b then maintenancePages (maintenanceMemory info)
    else (info.zones z).physBase / pageSize) + i) * pageSize

theorem Booted.frame_eq (h : Booted phys info b start st) {z i : Nat} (hz : z < st.numZones)
    (hi : i < (st.zones z).usableNumPages) :
    getPhysAddrFromPage st ((st.zones z).pageAddr i) = some (frameOf info b z i) := by
  rw [h.mapsApart.getPhysAddrFromPage_pageAddr hz hi, (h.placed z (h.numZones ▸ hz)).absPfnStart]
  rfl

theorem Booted.usable_eq (h : Booted phys info b start st) {z : Nat} (hz : z < info.numMemZones) :
    (st.zones z).usableNumPages = wholeBlocks (zonePages info b z) := by
  have hp := h.placed z hz
  rw [hp.usable, hp.maxOrder]
  rfl

theorem frameOf_other {z i : Nat} (hzb : z ≠ b) (hi : i < wholeBlocks (zonePages info b z)) :
    (info.zones z).physBase ≤ frameOf info b z i ∧
      frameOf info b z i + pageSize ≤ (info.zones z).physBase + (info.zones z).length := by
  have hle := (wholeBlocks_le (zonePages info b z)).trans (zonePages_le info b z)
  have hbase := (info.zones z).base_aligned
  have hlen := (info.zones z).length_eq
  simp only [frameOf, if_neg hzb, pageSize] at *
  omega

theorem frameOf_biggest (hacc : Accepted info b) {i : Nat}
    (hi : i < wholeBlocks (zonePages info b b))
    (hlow : (info.zones b).physBase + metadataBytes info b ≤
      maintenancePages (maintenanceMemory info) * pageSize) :
    (info.zones b).physBase + metadataBytes info b ≤ frameOf info b b i ∧
      frameOf info b b i + pageSize ≤ (info.zones b).physBase + (info.zones b).length := by
  have hle := wholeBlocks_le (zonePages info b b)
  have hres := hacc.reserved_le
  have hlen := (info.zones b).length_eq
  simp only [frameOf, zonePages, if_true, pageSize] at *
  omega

theorem frameOf_inj {z i j : Nat} (h : frameOf info b z i = frameOf info b z j) : i = j := by
  simp only [frameOf, pageSize] at h
  omega

/-- The bases of the zones matter only through the zone that holds the metadata. -/
theorem Booted.framesSound_iff (h : Booted phys info b start st) (hd : info.Disjoint) :
    FramesSound info st ↔ wholeBlocks (zonePages info b b) = 0 ∨
      (info.zones b).physBase + metadataBytes info b ≤
        maintenancePages (maintenanceMemory info) * pageSize := by
  have hn := h.numZones
  have hb := h.accepted.biggest.lt
  constructor
  · intro hs
    by_cases h0 : wholeBlocks (zonePages info b b) = 0
    · exact .inl h0
    · right
      -- the first page of the zone must not start below the zone, nor inside the metadata
      have hpos : 0 < (st.zones b).usableNumPages := by rw [h.usable_eq hb]; omega
      have hframe := h.frame_eq (hn ▸ hb) hpos
      obtain ⟨f, hf, hlo, _⟩ := hs.inside b (hn ▸ hb) 0 hpos
      obtain rfl := Option.some.inj (hframe.symm.trans hf)
      have hclear := hs.clear b (hn ▸ hb) 0 hpos _ hframe (frameOf info b b 0) (Nat.le_refl _)
        (by simp [pageSize])
      rw [h.metadata_iff, h.used] at hclear
      have heq : frameOf info b b 0 = maintenancePages (maintenanceMemory info) * pageSize := by
        simp [frameOf]
      omega
  · intro hc
    have hrange : ∀ z < st.numZones, ∀ i < (st.zones z).usableNumPages,
        (info.zones z).physBase ≤ frameOf info b z i ∧
          frameOf info b z i + pageSize ≤ (info.zones z).physBase + (info.zones z).length ∧
          (z = b → (info.zones b).physBase + metadataBytes info b ≤ frameOf info b z i) := by
      intro z hz i hi
      rw [h.usable_eq (hn ▸ hz)] at hi
      by_cases hzb : z = b
      · subst hzb
        have hlow := hc.resolve_left (by omega)
        have := frameOf_biggest h.accepted hi hlow
        omega
      · have := frameOf_other hzb hi
        exact ⟨this.1, this.2, fun e => absurd e hzb⟩
    have hsize : 0 < pageSize := by norm_num [pageSize]
    refine ⟨fun z hz i hi => ?_, fun y hy i hi z hz j hj heq => ?_, fun z hz i hi f hf a hlo hhi => ?_⟩
    · have := hrange z hz i hi
      exact ⟨_, h.frame_eq hz hi, this.1, this.2.1⟩
    · rw [h.frame_eq hy hi, h.frame_eq hz hj] at heq
      have heq := Option.some.inj heq
      have hyr := hrange y hy i hi
      have hzr := hrange z hz j hj
      have hyz : y = z := hd y (hn ▸ hy) z (hn ▸ hz) (frameOf info b y i) hyr.1 (by omega)
        (by omega) (by omega)
      subst hyz
      exact ⟨rfl, frameOf_inj heq⟩
    · obtain rfl := Option.some.inj ((h.frame_eq hz hi).symm.trans hf)
      have hr := hrange z hz i hi
      rw [h.metadata_iff, h.used]
      rintro ⟨hmlo, hmhi⟩
      by_cases hzb : z = b
      · have := hr.2.2 hzb
        omega
      · have hused := h.used_le
        rw [h.used] at hused
        exact hzb (hd z (hn ▸ hz) b hb a (by omega) (by omega) hmlo (by omega))

end booted

/-- For every memory map that `mem_init` accepts, the frames are sound exactly when the
metadata zone has no usable page or lies so low that the reserved page count, taken as
a frame number, clears its base and its metadata. -/
theorem frames_sound_iff_low_metadata_zone (phys : PhysMem) (info : CpuMemoryInfo)
    (hd : info.Disjoint) (z : Nat) (hz : z < info.numMemZones) (hm : (info.zones z).Mapped)
    (hroom : maintenanceMemory info ≤ (info.zones z).length) :
    ∃ b st, Accepted info b ∧ memInit phys info = some st ∧
      (FramesSound info st ↔ wholeBlocks (zonePages info b b) = 0 ∨
        (info.zones b).physBase + metadataBytes info b ≤
          maintenancePages (maintenanceMemory info) * pageSize) := by
  obtain ⟨b, hacc⟩ := accepted_of_room hz hm hroom phys
  obtain ⟨st, start, hst, hboot⟩ := memInit_of_accepted phys hacc
  exact ⟨b, st, hacc, hst, hboot.framesSound_iff hd⟩

/-- A memory map with a single zone. -/
def singleZone (zone : MemZoneInfo) : CpuMemoryInfo where
  numMemZones := 1
  zones _ := zone
  bounded := by decide

/-- Sixteen pages from physical address zero on. -/
def zoneAtZero : MemZoneInfo := ⟨0, 0x10000, by decide, by decide, by decide⟩

/-- Sixteen pages from the first mebibyte on. -/
def zoneAtMebibyte : MemZoneInfo := ⟨0x100000, 0x10000, by decide, by decide, by decide⟩

theorem singleZone_disjoint (zone : MemZoneInfo) : (singleZone zone).Disjoint := by
  intro y hy z hz _ _ _ _ _
  have hy' : y < 1 := hy
  have hz' : z < 1 := hz
  omega

/-- Memory that holds zeros and whose list nodes are on no list. -/
def zeroMem : PhysMem := ⟨fun _ => 0, fun _ => ⟨id, id⟩, fun _ _ => 0, fun _ _ => 0⟩

theorem frames_sound_iff_low_metadata_zone_zero :
    ∃ b st, Accepted (singleZone zoneAtZero) b ∧ memInit zeroMem (singleZone zoneAtZero) = some st ∧
      (FramesSound (singleZone zoneAtZero) st ↔
        wholeBlocks (zonePages (singleZone zoneAtZero) b b) = 0 ∨
          ((singleZone zoneAtZero).zones b).physBase + metadataBytes (singleZone zoneAtZero) b ≤
            maintenancePages (maintenanceMemory (singleZone zoneAtZero)) * pageSize) :=
  frames_sound_iff_low_metadata_zone zeroMem (singleZone zoneAtZero)
    (singleZone_disjoint zoneAtZero) 0 (by decide) (by decide) (by decide +kernel)

/-- With the metadata zone at one mebibyte the first page frame is not even in the zone. -/
theorem frames_unsound_at_mebibyte :
    ¬ ∀ (phys : PhysMem) (info : CpuMemoryInfo), info.Disjoint → ∀ z < info.numMemZones,
      (info.zones z).Mapped → maintenanceMemory info ≤ (info.zones z).length →
        ∃ st, memInit phys info = some st ∧ FramesSound info st := by
  intro hall
  obtain ⟨st, hst, hs⟩ := hall zeroMem (singleZone zoneAtMebibyte)
    (singleZone_disjoint zoneAtMebibyte) 0 (by decide) (by decide) (by decide +kernel)
  obtain ⟨b, start, hboot⟩ := booted_of_memInit hst
  have hb : b < 1 := hboot.accepted.biggest.lt
  obtain rfl : b = 0 := by omega
  have hcond := (hboot.framesSound_iff (singleZone_disjoint zoneAtMebibyte)).mp hs
  revert hcond
  decide +kernel

end Lucix.PageAlloc
