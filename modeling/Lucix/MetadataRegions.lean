import Lucix.PageRuns

/-! The regions that `mem_init` sets aside: the page structs of each zone and the
bitmap of each order. They lie one behind the other in the reserve. The size of a
bitmap is a truncating division of the zone, so for some sizes it is a word short of
the pairs of the zone. -/
namespace Lucix.PageAlloc
open Execution

/-- A region of the metadata: the page structs of a zone, or the bitmap of one of its orders. -/
inductive Region where
  | pages (z : Nat)
  | bitmap (z o : Nat)
  deriving DecidableEq

namespace Region

def zone : Region → Nat
  | pages z => z
  | bitmap z _ => z

/-- The region exists: `mem_init` set its pointer. -/
def Assigned (st : AllocState) : Region → Prop
  | pages z => z < st.numZones
  | bitmap z o => z < st.numZones ∧ o ≤ min (st.zones z).maxOrder (maxPgOrder - 1)

def first (st : AllocState) : Region → Nat
  | pages z => (st.zones z).memMap
  | bitmap z o => (st.zones z).map o

def bytes (st : AllocState) : Region → Nat
  | pages z => memMapSize * (st.zones z).usableNumPages
  | bitmap z o => 4 * ((st.zones z).bitmapSizes o / 4)

/-- The bytes of the zone's metadata in front of the region. -/
def offset (st : AllocState) : Region → Nat
  | pages _ => 0
  | bitmap z o => memMapSize * (st.zones z).usableNumPages +
      ∑ i ∈ Finset.range o, (st.zones z).bitmapSizes i

end Region

/-- The regions are apart and fill the reserve from the base of the biggest mapped zone on, and
the pages that are left to that zone are counted without a borrow. -/
structure RegionsLaid (info : CpuMemoryInfo) (st : AllocState) : Prop where
  biggest : Biggest info info.numMemZones st.biggestMappedIdx
  apart : ∀ r r' : Region, r.Assigned st → r'.Assigned st → r ≠ r' →
    r.first st + r.bytes st ≤ r'.first st ∨ r'.first st + r'.bytes st ≤ r.first st
  starts : ∃ r : Region, r.Assigned st ∧ r.first st = pa2va (info.zones st.biggestMappedIdx).physBase
  inside : ∀ r : Region, r.Assigned st →
    pa2va (info.zones st.biggestMappedIdx).physBase ≤ r.first st ∧
      r.first st + r.bytes st ≤
        pa2va (info.zones st.biggestMappedIdx).physBase + st.allocatorMaintenanceMemory
  no_borrow : maintenancePages st.allocatorMaintenanceMemory ≤
    (info.zones st.biggestMappedIdx).length / pageSize
  usable_le : (st.zones st.biggestMappedIdx).usableNumPages ≤
    (info.zones st.biggestMappedIdx).length / pageSize -
      maintenancePages st.allocatorMaintenanceMemory

/-! ### The reserve -/

section reserve
variable {phys : PhysMem} {info : CpuMemoryInfo} {b : Nat} {start : Nat → Nat} {st : AllocState}

theorem memInit_reserve (h : memInit phys info = some st) :
    st.allocatorMaintenanceMemory = (measured phys info).1.allocatorMaintenanceMemory := by
  have hlayout : ∀ (n : Nat) (t : AllocState),
      (loop (layoutZone phys) n t).allocatorMaintenanceMemory = t.allocatorMaintenanceMemory := by
    intro n t
    refine loop_invariant (fun _ (s : AllocState) =>
      s.allocatorMaintenanceMemory = t.allocatorMaintenanceMemory) rfl fun k _ s hs => ?_
    rw [layoutZone]
    split_ifs
    · exact hs
    · exact hs
  rcases hmeas : measured phys info with ⟨t, big⟩
  rw [memInit, hmeas] at h
  cases big with
  | none => simp at h
  | some c =>
      dsimp only at h
      split_ifs at h
      obtain rfl := Option.some.inj h
      rw [loop_openZone]
      exact hlayout _ _

/-- A mapped zone at least as long as the reserve is enough for `mem_init` to go through. -/
theorem memInit_of_long {z : Nat} (phys : PhysMem) (hz : z < info.numMemZones)
    (hm : (info.zones z).Mapped)
    (hlong : (measured phys info).1.allocatorMaintenanceMemory ≤ (info.zones z).length) :
    ∃ b st start, memInit phys info = some st ∧ Booted phys info b start st := by
  cases hb : (measured phys info).2 with
  | none => exact absurd hm ((scanned phys info).unmapped hb z hz)
  | some b =>
      obtain ⟨hbig, -⟩ := measured_biggest hb
      obtain ⟨st, start, hst, hboot⟩ := memInit_eq hb (hlong.trans (hbig.longest z hz hm))
      exact ⟨b, st, start, hst, hboot⟩

theorem Booted.reserve_eq (h : Booted phys info b start st) (hst : memInit phys info = some st) :
    st.allocatorMaintenanceMemory = maintenanceMemory info := by
  rw [memInit_reserve hst, h.accepted.measured]

theorem Booted.bitmapSizes_eq (h : Booted phys info b start st) {z : Nat} (hz : z < info.numMemZones) :
    (st.zones z).bitmapSizes = bitmapSize (info.zones z).pages :=
  (h.placed z hz).bitmapSizes

/-! ### The regions of one zone -/

theorem Region.Assigned.zone_lt {r : Region} (hr : r.Assigned st) : r.zone < st.numZones := by
  cases r with
  | pages z => exact hr
  | bitmap z o => exact hr.1

theorem order_lt_bitmapOrders {o maxOrder : Nat} (h : o ≤ min maxOrder (maxPgOrder - 1)) :
    o < bitmapOrders maxOrder := by
  rw [bitmapOrders]
  rw [maxPgOrder] at *
  omega

theorem Booted.bitmap_bytes (h : Booted phys info b start st) {z : Nat} (hz : z < info.numMemZones)
    (o : Nat) : (Region.bitmap z o).bytes st = (st.zones z).bitmapSizes o := by
  rw [Region.bytes, h.bitmapSizes_eq hz]
  exact Nat.mul_div_cancel' (bitmapSize_dvd _ _)

theorem Booted.region_first (h : Booted phys info b start st) {r : Region} (hr : r.Assigned st) :
    r.first st = pa2va (info.zones b).physBase + (start r.zone + r.offset st) := by
  have hz : r.zone < info.numMemZones := h.numZones ▸ hr.zone_lt
  cases r with
  | pages z => exact (h.placed z hz).memMap
  | bitmap z o =>
      have ho := order_lt_bitmapOrders hr.2
      rw [bitmapOrders] at ho
      rw [Region.first, (h.placed z hz).map o (by omega) (by omega), Region.offset, Region.zone,
        Nat.add_assoc (start z)]

theorem Booted.region_end_le (h : Booted phys info b start st) {r : Region} (hr : r.Assigned st) :
    r.offset st + r.bytes st ≤ (st.zones r.zone).metaBytes := by
  have hz : r.zone < info.numMemZones := h.numZones ▸ hr.zone_lt
  cases r with
  | pages z =>
      rw [Region.offset, Nat.zero_add]
      exact memMap_le_metaBytes (st.zones z).toZoneLayout
  | bitmap z o =>
      have hsum := sum_range_add_le (st.zones z).bitmapSizes (order_lt_bitmapOrders hr.2)
      rw [h.bitmap_bytes (z := z) hz, Region.offset, ZoneLayout.metaBytes, Region.zone]
      omega

theorem Booted.bitmaps_apart (h : Booted phys info b start st) {z o o' : Nat}
    (hz : z < info.numMemZones) (hlt : o < o') :
    (Region.bitmap z o).offset st + (Region.bitmap z o).bytes st ≤ (Region.bitmap z o').offset st := by
  have hsum := sum_range_add_le (st.zones z).bitmapSizes hlt
  rw [h.bitmap_bytes hz]
  simp only [Region.offset]
  omega

theorem Booted.region_apart (h : Booted phys info b start st) {r r' : Region} (hr : r.Assigned st)
    (hr' : r'.Assigned st) (hne : r ≠ r') (hzone : r.zone = r'.zone) :
    r.offset st + r.bytes st ≤ r'.offset st ∨ r'.offset st + r'.bytes st ≤ r.offset st := by
  have hz : r.zone < info.numMemZones := h.numZones ▸ hr.zone_lt
  cases r with
  | pages z =>
      cases r' with
      | pages z' => exact absurd (congrArg Region.pages hzone) hne
      | bitmap z' o' =>
          obtain rfl : z = z' := hzone
          left
          simp only [Region.offset, Region.bytes]
          omega
  | bitmap z o =>
      cases r' with
      | pages z' =>
          obtain rfl : z = z' := hzone
          right
          simp only [Region.offset, Region.bytes]
          omega
      | bitmap z' o' =>
          obtain rfl : z = z' := hzone
          rcases Nat.lt_trichotomy o o' with hlt | rfl | hgt
          · exact .inl (h.bitmaps_apart hz hlt)
          · exact absurd rfl hne
          · exact .inr (h.bitmaps_apart hz hgt)

theorem bitmapSize_pos (n i : Nat) : 0 < bitmapSize n i := by
  simp only [bitmapSize]
  generalize n / (8 * (2 <<< i)) = q
  split_ifs <;> omega

theorem Booted.used_pos (h : Booted phys info b start st) : 0 < st.totalMaintenanceUsed := by
  have hb := h.accepted.biggest.lt
  have hin := h.inside b hb
  have horder : 0 < bitmapOrders (st.zones b).maxOrder := by
    rw [bitmapOrders, maxPgOrder]
    omega
  have hsum := sum_range_add_le (st.zones b).bitmapSizes horder
  have hsize := bitmapSize_pos (info.zones b).pages 0
  rw [ZoneLayout.metaBytes] at hin
  rw [h.bitmapSizes_eq hb] at hsum hin
  omega

end reserve

/-- For every memory map with a mapped zone as long as the reserve, `mem_init` goes through and
lays its regions out one behind the other. -/
theorem memInit_regions_laid (phys : PhysMem) (info : CpuMemoryInfo) (z : Nat)
    (hz : z < info.numMemZones) (hm : (info.zones z).Mapped)
    (hlong : (measured phys info).1.allocatorMaintenanceMemory ≤ (info.zones z).length) :
    ∃ st, memInit phys info = some st ∧ RegionsLaid info st := by
  obtain ⟨b, st, start, hst, h⟩ := memInit_of_long phys hz hm hlong
  obtain rfl := h.biggest
  have hres := h.reserve_eq hst
  have hused : st.totalMaintenanceUsed ≤ st.allocatorMaintenanceMemory := by
    rw [h.used, hres]
    exact metadataBytes_le _ _
  refine ⟨st, hst, h.accepted.biggest, ?_, ?_, ?_, ?_, ?_⟩
  · intro r r' hr hr' hne
    have hfirst := h.region_first hr
    have hfirst' := h.region_first hr'
    by_cases hzone : r.zone = r'.zone
    · have := h.region_apart hr hr' hne hzone
      rw [hfirst, hfirst', hzone]
      omega
    · have hapart := h.apart r.zone (h.numZones ▸ hr.zone_lt) r'.zone (h.numZones ▸ hr'.zone_lt) hzone
      have hend := h.region_end_le hr
      have hend' := h.region_end_le hr'
      omega
  · -- the byte at the base belongs to some zone, whose page structs then start there
    obtain ⟨y, hy, hle, -⟩ := h.tile 0 h.used_pos
    have hzero : start y = 0 := Nat.le_zero.mp hle
    refine ⟨.pages y, hy.trans_eq h.numZones.symm, ?_⟩
    rw [Region.first, (h.placed y hy).memMap, hzero, Nat.add_zero]
  · intro r hr
    have hfirst := h.region_first hr
    have hend := h.region_end_le hr
    have hin := h.inside r.zone (h.numZones ▸ hr.zone_lt)
    omega
  · rw [hres]
    exact h.accepted.reserved_le
  · rw [h.usable_eq h.accepted.biggest.lt, hres]
    refine (wholeBlocks_le _).trans ?_
    rw [zonePages, if_pos rfl]
    rfl

/-- The sixteen pages at address zero hold their own metadata. -/
theorem memInit_regions_laid_zero :
    ∃ st, memInit zeroMem (singleZone zoneAtZero) = some st ∧ RegionsLaid (singleZone zoneAtZero) st :=
  memInit_regions_laid zeroMem (singleZone zoneAtZero) 0 (by decide) (by decide) (by decide +kernel)

/-! ### Pairs and bits -/

/-- The bitmaps of a zone of `n` pages have a bit for each pair of the blocks that are cut from
`m` of its pages. A word of the bitmap of order `j - 6` stands for `2 ^ j` pages, and a remainder
of less than a quarter of them gets no word. -/
def PairsFit (n m : Nat) : Prop :=
  ∀ j ∈ [13, 14, 15], 2 ^ j ≤ n → n % 2 ^ j < 2 ^ (j - 2) → m < n / 2 ^ j * 2 ^ j + 1024

instance (n m : Nat) : Decidable (PairsFit n m) := inferInstanceAs (Decidable (∀ j ∈ _, _))

/-- Every word that a toggle at an order below the largest one touches lies in its bitmap. -/
def MemoryZone.TogglesInside (zone : MemoryZone) : Prop :=
  ∀ o < zone.maxOrder, ∀ pfn < zone.usableNumPages, 2 ^ o ∣ pfn →
    (toggleBitPfnZone pfn zone o).isSome = true

section pairs
variable {n m o : Nat}

theorem bitmapSize_eq (n o : Nat) : bitmapSize n o = 4 * max 1 ((n / 2 ^ (o + 4) + 3) / 4) := by
  have hshift : 8 * (2 <<< o) = 2 ^ (o + 4) := by
    rw [Nat.shiftLeft_eq, pow_add]
    ring
  simp only [bitmapSize, hshift]
  generalize n / 2 ^ (o + 4) = q
  split_ifs <;> omega

theorem getMaxOrderFrom_log {fuel i : Nat} (hi : i + fuel = numPgOrders) (hn : n < 2 ^ 10)
    (hbig : ∀ j < i, 2 ^ j ≤ n) (hpos : 0 < n) :
    2 ^ getMaxOrderFrom n fuel i ≤ n ∧ n < 2 ^ (getMaxOrderFrom n fuel i + 1) := by
  induction fuel generalizing i with
  | zero =>
      have hten := hbig 10 (by rw [numPgOrders, maxPgOrder] at hi; omega)
      omega
  | succ fuel ih =>
      rw [getMaxOrderFrom, Nat.shiftRight_eq_div_pow]
      by_cases hlt : n < 2 ^ i
      · have hdiv : n / 2 ^ i = 0 := Nat.div_eq_of_lt hlt
        have hmod : n % 2 ^ i ≠ 0 := by
          rw [Nat.mod_eq_of_lt hlt]
          omega
        rw [if_pos hdiv, if_pos hmod]
        cases i with
        | zero => simp at hlt; omega
        | succ i => exact ⟨hbig i (Nat.lt_succ_self i), hlt⟩
      · have hdiv : n / 2 ^ i ≠ 0 := (Nat.div_pos (Nat.le_of_not_lt hlt) (Nat.two_pow_pos i)).ne'
        rw [if_neg hdiv]
        refine ih (by omega) fun j hj => ?_
        rcases Nat.lt_succ_iff_lt_or_eq.mp hj with hji | rfl
        · exact hbig j hji
        · exact Nat.le_of_not_lt hlt

theorem getMaxOrderFrom_top {fuel i : Nat} (hi : i + fuel = numPgOrders) (hn : 2 ^ 10 ≤ n) :
    getMaxOrderFrom n fuel i = maxPgOrder := by
  induction fuel generalizing i with
  | zero => rfl
  | succ fuel ih =>
      have hle : 2 ^ i ≤ n := by
        rw [numPgOrders, maxPgOrder] at hi
        exact (Nat.pow_le_pow_right (by norm_num) (by omega)).trans hn
      have hdiv : n / 2 ^ i ≠ 0 := (Nat.div_pos hle (Nat.two_pow_pos i)).ne'
      rw [getMaxOrderFrom, Nat.shiftRight_eq_div_pow, if_neg hdiv]
      exact ih (by omega)

theorem toggle_isSome_iff {zone : MemoryZone} {pfn : Nat} (hmap : zone.map o ≠ 0)
    (hdvd : 4 ∣ zone.bitmapSizes o) :
    (toggleBitPfnZone pfn zone o).isSome = true ↔ pfn / 2 ^ (o + 1) < 8 * zone.bitmapSizes o := by
  obtain ⟨q, hq⟩ := hdvd
  simp only [toggleBitPfnZone, if_neg hmap, Nat.shiftRight_eq_div_pow, hq]
  generalize pfn / 2 ^ (o + 1) = k
  split_ifs with h
  · simp only [Option.isSome_some, true_iff]
    omega
  · simp only [Option.isSome_none, Bool.false_eq_true, false_iff]
    omega

theorem wholeBlocks_large (hn : 2 ^ 10 ≤ n) (hlt : n < 2 ^ 32) :
    getMaxOrder (n % 2 ^ 32) = 10 ∧ wholeBlocks n = n / 1024 * 1024 := by
  have horder : getMaxOrder (n % 2 ^ 32) = 10 := by
    rw [Nat.mod_eq_of_lt hlt]
    exact getMaxOrderFrom_top rfl hn
  refine ⟨horder, ?_⟩
  rw [wholeBlocks, horder, Nat.shiftRight_eq_div_pow, Nat.shiftLeft_eq]

/-- A zone of less than 1024 pages is cut down to one block. -/
theorem wholeBlocks_small (hpos : 0 < n) (hn : n < 2 ^ 10) :
    wholeBlocks n = 2 ^ getMaxOrder (n % 2 ^ 32) ∧ 2 ^ getMaxOrder (n % 2 ^ 32) ≤ n ∧
      getMaxOrder (n % 2 ^ 32) < 10 := by
  obtain ⟨hle, hlt⟩ := @getMaxOrderFrom_log n numPgOrders 0 (Nat.zero_add _) hn
    (fun j hj => absurd hj (Nat.not_lt_zero j)) hpos
  rw [wholeBlocks, Nat.mod_eq_of_lt (hn.trans (by norm_num)), getMaxOrder]
  generalize getMaxOrderFrom n numPgOrders 0 = k at hle hlt ⊢
  have hone : n / 2 ^ k = 1 := by
    rw [pow_succ] at hlt
    exact Nat.div_eq_of_lt_le (by omega) (by omega)
  refine ⟨?_, hle, (Nat.pow_lt_pow_iff_right (by norm_num)).mp (hle.trans_lt hn)⟩
  rw [Nat.shiftRight_eq_div_pow, hone, Nat.shiftLeft_eq, Nat.one_mul]

/-- One block of order `k` has at every lower order no more pairs than its bitmap has bits. -/
theorem pairs_of_one_block {k pfn : Nat} (hn : 2 ^ k ≤ n) (ho : o < k) (hpfn : pfn < 2 ^ k) :
    pfn / 2 ^ (o + 1) < 8 * bitmapSize n o := by
  have hpairs : pfn / 2 ^ (o + 1) < 2 ^ (k - (o + 1)) := by
    rw [Nat.div_lt_iff_lt_mul (Nat.two_pow_pos _), ← pow_add]
    rwa [Nat.sub_add_cancel ho]
  refine hpairs.trans_le ?_
  have hsize := bitmapSize_eq n o
  by_cases hfew : k < o + 4
  · have hpow : 2 ^ (k - (o + 1)) ≤ 2 ^ 2 := Nat.pow_le_pow_right (by norm_num) (by omega)
    omega
  · have hbytes : 2 ^ (k - (o + 4)) ≤ n / 2 ^ (o + 4) := by
      rw [Nat.le_div_iff_mul_le (Nat.two_pow_pos _), ← pow_add]
      rwa [Nat.sub_add_cancel (by omega)]
    have hpow : 2 ^ (k - (o + 1)) = 2 ^ (k - (o + 4)) * 8 := by
      rw [show k - (o + 1) = k - (o + 4) + 3 by omega, pow_add]
      norm_num
    omega

/-- The pairs of a zone of whole blocks of order 10, order by order. -/
theorem pairs_of_whole_blocks (hmn : m ≤ n) :
    (∀ o < 10, ∀ pfn < m / 1024 * 1024, 2 ^ o ∣ pfn → pfn / 2 ^ (o + 1) < 8 * bitmapSize n o) ↔
      PairsFit n m := by
  constructor
  · intro h j hj hn hrest
    by_contra hm
    simp only [List.mem_cons, List.not_mem_nil, or_false] at hj
    -- the first block behind the last whole word of the bitmap
    have hpair := h (j - 6) (by omega) (n / 2 ^ j * 2 ^ j) (by rcases hj with rfl | rfl | rfl <;> omega)
      (Dvd.dvd.mul_left (Nat.pow_dvd_pow 2 (by omega)) _)
    rw [bitmapSize_eq] at hpair
    rcases hj with rfl | rfl | rfl <;>
      simp only [Nat.reduceSub, Nat.reduceAdd, Nat.reducePow] at hn hrest hpair <;> omega
  · intro h o ho pfn hpfn _
    rw [bitmapSize_eq]
    by_contra hpair
    rcases Nat.lt_or_ge o 7 with hlow | hhigh
    · -- a block of order 10 has whole words of bits
      interval_cases o <;> simp only [Nat.reduceAdd, Nat.reducePow] at hpair <;> omega
    · have hj := h (o + 6) (by simp; omega)
      interval_cases o <;> simp only [Nat.reduceAdd, Nat.reducePow, Nat.reduceSub] at hj hpair <;> omega

end pairs

section booted
variable {phys : PhysMem} {info : CpuMemoryInfo} {b z : Nat} {start : Nat → Nat} {st : AllocState}

/-- Page structs for all pages have to fit below 4 GiB. -/
theorem Accepted.pages_lt (h : Accepted info b) (hz : z < info.numMemZones) :
    (info.zones z).pages < 2 ^ 32 := by
  have hlen := h.biggest.length_lt
  have hroom := h.room
  have hone : (info.zones z).pages ≤ ∑ z ∈ Finset.range info.numMemZones, (info.zones z).pages :=
    Finset.single_le_sum (f := fun z => (info.zones z).pages) (fun _ _ => Nat.zero_le _)
      (Finset.mem_range.mpr hz)
  rw [maintenanceMemory, memMapSize] at hroom
  omega

theorem Booted.togglesInside_iff (h : Booted phys info b start st) (hz : z < info.numMemZones) :
    (st.zones z).TogglesInside ↔ PairsFit (info.zones z).pages (zonePages info b z) := by
  have hp := h.placed z hz
  have hle := zonePages_le info b z
  have hlt := h.accepted.pages_lt hz
  have hsizes := h.bitmapSizes_eq hz
  have horder : (st.zones z).maxOrder = getMaxOrder (zonePages info b z % 2 ^ 32) := hp.maxOrder
  have hbase : 0 < pa2va (info.zones b).physBase := by
    have hmapped : (info.zones b).physBase + (info.zones b).length < 0x100000000 :=
      h.accepted.biggest.mapped
    exact pa2va_pos (by omega)
  have htoggle : (st.zones z).TogglesInside ↔ ∀ o < (st.zones z).maxOrder,
      ∀ pfn < wholeBlocks (zonePages info b z), 2 ^ o ∣ pfn →
        pfn / 2 ^ (o + 1) < 8 * bitmapSize (info.zones z).pages o := by
    rw [MemoryZone.TogglesInside, h.usable_eq hz]
    refine forall₂_congr fun o ho => forall₃_congr fun pfn _ _ => ?_
    have hmax := getMaxOrder_le (zonePages info b z % 2 ^ 32)
    have hmap : (st.zones z).map o ≠ 0 := by
      rw [hp.map o (Nat.le_of_lt ho) (by omega)]
      omega
    rw [toggle_isSome_iff hmap (by rw [hsizes]; exact bitmapSize_dvd _ _), hsizes]
  rw [htoggle, horder]
  by_cases hbig : 2 ^ 10 ≤ zonePages info b z
  · obtain ⟨hten, hwhole⟩ := wholeBlocks_large hbig (by omega)
    rw [hten, hwhole]
    exact pairs_of_whole_blocks hle
  · have hfit : PairsFit (info.zones z).pages (zonePages info b z) := by
      intro j _ _ _
      omega
    refine iff_of_true (fun o ho pfn hpfn _ => ?_) hfit
    rcases Nat.eq_zero_or_pos (zonePages info b z) with hzero | hpos
    · rw [hzero] at hpfn
      exact absurd (hpfn.trans_le (wholeBlocks_le 0)) (Nat.not_lt_zero _)
    · obtain ⟨hwhole, hpow, -⟩ := wholeBlocks_small hpos (by omega)
      exact pairs_of_one_block (hpow.trans hle) ho (hwhole ▸ hpfn)

end booted

/-- The toggles of a zone stay inside its bitmaps exactly when these have a bit for each pair. -/
theorem toggles_inside_iff (phys : PhysMem) (info : CpuMemoryInfo) (st : AllocState)
    (hst : memInit phys info = some st) (z : Nat) (hz : z < info.numMemZones) :
    (st.zones z).TogglesInside ↔
      PairsFit (info.zones z).pages (zonePages info st.biggestMappedIdx z) := by
  obtain ⟨b, start, h⟩ := booted_of_memInit hst
  rw [h.biggest]
  exact h.togglesInside_iff hz

theorem toggles_inside_zero : ∃ st, memInit zeroMem (singleZone zoneAtZero) = some st ∧
    (st.zones 0).TogglesInside := by
  obtain ⟨st, start, hst, h⟩ := memInit_of_accepted zeroMem accepted_zoneAtZero
  have hz : 0 < (singleZone zoneAtZero).numMemZones := by decide
  refine ⟨st, hst, (toggles_inside_iff zeroMem (singleZone zoneAtZero) st hst 0 hz).mpr ?_⟩
  rw [h.biggest]
  decide +kernel

/-- A zone of 144 MiB from physical address zero on. -/
def longZone : MemZoneInfo :=
  { zoneAtZero with
    length := 0x9000000
    length_aligned := by decide
    fits := by decide }

/-- The zone has 35 blocks of order 10 and a bitmap of 32 bits at order 9. -/
theorem long_zone_toggles_outside : ¬ ∀ (phys : PhysMem) (info : CpuMemoryInfo) (st : AllocState),
    memInit phys info = some st → ∀ z < info.numMemZones, (st.zones z).TogglesInside := by
  intro h
  have hacc : Accepted (singleZone longZone) 0 :=
    accepted_singleZone (by decide) (by decide +kernel)
  obtain ⟨st, start, hst, hboot⟩ := memInit_of_accepted zeroMem hacc
  have hz : 0 < (singleZone longZone).numMemZones := by decide
  have hfit := (hboot.togglesInside_iff hz).mp (h zeroMem _ st hst 0 hz)
  exact absurd hfit (by decide +kernel)

end Lucix.PageAlloc
