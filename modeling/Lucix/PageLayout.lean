import Lucix.PageAlloc
import Mathlib.Algebra.BigOperators.Group.Finset.Basic
import Mathlib.Algebra.BigOperators.Intervals
import Mathlib.Algebra.Order.BigOperators.Group.Finset

/-! Where `mem_init` puts the allocator's own data. The first loop measures the
zones, the second hands out consecutive ranges of the biggest mapped zone for
page structs and bitmaps. An accepted memory map is small enough that no sum in
this computation leaves 64 bits. -/
namespace Lucix.PageAlloc
open Ring Execution

namespace AllocState

@[simp] theorem setZone_zones (st : AllocState) (z y : Nat) (zone : MemoryZone) :
    (st.setZone z zone).zones y = if y = z then zone else st.zones y := by
  simp only [setZone, Function.update_apply]

@[simp] theorem setZone_numZones (st : AllocState) (z : Nat) (zone : MemoryZone) :
    (st.setZone z zone).numZones = st.numZones := rfl

@[simp] theorem setZone_biggestMappedIdx (st : AllocState) (z : Nat) (zone : MemoryZone) :
    (st.setZone z zone).biggestMappedIdx = st.biggestMappedIdx := rfl

@[simp] theorem setZone_totalMaintenanceUsed (st : AllocState) (z : Nat) (zone : MemoryZone) :
    (st.setZone z zone).totalMaintenanceUsed = st.totalMaintenanceUsed := rfl

@[simp] theorem setZone_setZone (st : AllocState) (z : Nat) (a b : MemoryZone) :
    (st.setZone z a).setZone z b = st.setZone z b := by
  simp only [setZone, Function.update_idem]

end AllocState

/-! ### Arithmetic of the bitmap sizes -/

theorem bitmapSize_dvd (n i : Nat) : 4 ∣ bitmapSize n i := by
  simp only [bitmapSize]
  generalize n / (8 * (2 <<< i)) = q
  split_ifs <;> omega

theorem bitmapSize_ge (n i : Nat) : n / (8 * (2 <<< i)) ≤ bitmapSize n i := by
  simp only [bitmapSize]
  generalize n / (8 * (2 <<< i)) = q
  split_ifs <;> omega

theorem bitmapSize_le (n i : Nat) : bitmapSize n i ≤ n / (8 * (2 <<< i)) + 4 := by
  simp only [bitmapSize]
  generalize n / (8 * (2 <<< i)) = q
  split_ifs <;> omega

theorem bitmapSize_le_pages (n i : Nat) : bitmapSize n i ≤ n / 16 + 4 := by
  have hshift : 2 ≤ 2 <<< i := by
    rw [Nat.shiftLeft_eq]
    have := Nat.two_pow_pos i
    omega
  have := bitmapSize_le n i
  have : n / (8 * (2 <<< i)) ≤ n / 16 := Nat.div_le_div_left (by omega) (by omega)
  omega

theorem lt_bitmapSize_zero (n : Nat) : n < 16 * (bitmapSize n 0 + 1) := by
  have := bitmapSize_ge n 0
  norm_num at this
  omega

theorem loop_add_mod (f : Nat → Nat) (n x m : Nat) :
    loop (fun i m => (m + f i) % x) n (m % x) = (m + ∑ i ∈ Finset.range n, f i) % x := by
  induction n with
  | zero => rfl
  | succ n ih => rw [loop, ih, Nat.mod_add_mod, Finset.sum_range_succ, Nat.add_assoc]

/-! ### The first loop -/

/-- The zone lies below 4 GiB, where the kernel can reach it through the identity map. -/
def MemZoneInfo.Mapped (zone : MemZoneInfo) : Prop := zone.physBase + zone.length < 0x100000000

instance (zone : MemZoneInfo) : Decidable zone.Mapped := inferInstanceAs (Decidable (_ < _))

def MemZoneInfo.pages (zone : MemZoneInfo) : Nat := zone.length / pageSize

theorem MemZoneInfo.length_eq (zone : MemZoneInfo) : zone.length = zone.pages * pageSize :=
  (Nat.div_mul_cancel (Nat.dvd_of_mod_eq_zero zone.length_aligned)).symm

/-- The fields of a zone after the first loop of `mem_init`. -/
def scannedZone (phys : PhysMem) (info : CpuMemoryInfo) (z : Nat) : MemoryZone :=
  { bootZone phys z with
    physBase := (info.zones z).physBase
    absNumPages := (info.zones z).pages
    bitmapSizes := bitmapSize (info.zones z).pages
    flags := if (info.zones z).Mapped then memzoneIdentityMapped else 0
    absPfnStart := (info.zones z).physBase / pageSize
    absPfnBase := (info.zones z).physBase / pageSize }

/-- The bytes reserved for the bitmaps of one zone, all orders counted. -/
def bitmapBytes (pages : Nat) : Nat := ∑ i ∈ Finset.range maxPgOrder, bitmapSize pages i

/-- `biggest_mapped` after looking at the first `k` zones. -/
structure Biggest (info : CpuMemoryInfo) (k : Nat) (b : Nat) : Prop where
  lt : b < k
  mapped : (info.zones b).Mapped
  longest : ∀ z < k, (info.zones z).Mapped → (info.zones z).length ≤ (info.zones b).length
  first : ∀ z < b, (info.zones z).Mapped → (info.zones z).length < (info.zones b).length

/-- What the first loop has established after `k` rounds. -/
structure Scanned (phys : PhysMem) (info : CpuMemoryInfo) (k : Nat)
    (p : AllocState × Option Nat) : Prop where
  numZones : p.1.numZones = info.numMemZones
  done : ∀ z < k, p.1.zones z = scannedZone phys info z
  rest : ∀ z, k ≤ z → p.1.zones z = bootZone phys z
  memory : p.1.totalSystemMemory = (∑ z ∈ Finset.range k, (info.zones z).length) % 2 ^ 64
  bitmaps : p.1.allocatorMaintenanceMemory =
    (∑ z ∈ Finset.range k, bitmapBytes (info.zones z).pages) % 2 ^ 64
  used : p.1.totalMaintenanceUsed = 0
  biggest : ∀ b, p.2 = some b → Biggest info k b ∧ p.1.biggestMappedIdx = b
  unmapped : p.2 = none → ∀ z < k, ¬ (info.zones z).Mapped

theorem Biggest.skip {info : CpuMemoryInfo} {k b : Nat} (h : Biggest info k b)
    (hk : (info.zones k).Mapped → (info.zones k).length ≤ (info.zones b).length) :
    Biggest info (k + 1) b := by
  refine ⟨Nat.lt_succ_of_lt h.lt, h.mapped, fun z hz hm => ?_, h.first⟩
  rcases Nat.lt_succ_iff_lt_or_eq.mp hz with hlt | rfl
  · exact h.longest z hlt hm
  · exact hk hm

/-- A zone that is strictly longer than every mapped zone before it takes over. -/
theorem Biggest.take {info : CpuMemoryInfo} {k : Nat} (hm : (info.zones k).Mapped)
    (hlong : ∀ z < k, (info.zones z).Mapped → (info.zones z).length < (info.zones k).length) :
    Biggest info (k + 1) k := by
  refine ⟨Nat.lt_succ_self k, hm, fun z hz hz' => ?_, hlong⟩
  rcases Nat.lt_succ_iff_lt_or_eq.mp hz with hlt | rfl
  · exact Nat.le_of_lt (hlong z hlt hz')
  · exact Nat.le_refl _

theorem scanned_step {phys : PhysMem} {info : CpuMemoryInfo} {k : Nat}
    {p : AllocState × Option Nat} (h : Scanned phys info k p) :
    Scanned phys info (k + 1) (scanZone info k p) := by
  obtain ⟨st, big⟩ := p
  have hzone : st.zones k = bootZone phys k := h.rest k (Nat.le_refl k)
  have hmem : st.totalSystemMemory = _ := h.memory
  have hmaps : st.allocatorMaintenanceMemory = _ := h.bitmaps
  refine ⟨h.numZones, fun z hz => ?_, fun z hz => ?_, ?_, ?_, h.used, fun b hb => ?_, fun hn => ?_⟩
  · rcases Nat.lt_succ_iff_lt_or_eq.mp hz with hlt | rfl
    · simpa [scanZone, Nat.ne_of_lt hlt] using h.done z hlt
    · simp only [scanZone, AllocState.setZone_zones, if_true, hzone, scannedZone, bootZone,
        MemZoneInfo.pages, MemZoneInfo.Mapped, decide_eq_true_eq]
      rfl
  · simpa [scanZone, Nat.ne_of_gt hz] using h.rest z (Nat.le_of_succ_le hz)
  · simp only [scanZone, hmem, Nat.mod_add_mod, Finset.sum_range_succ]
  · simp only [scanZone, hmaps, loop_add_mod, Finset.sum_range_succ]
    rfl
  · -- the new zone replaces the candidate only when it is mapped and strictly longer
    by_cases hm : (info.zones k).Mapped
    · have hm' : (info.zones k).physBase + (info.zones k).length < 0x100000000 := hm
      cases hbig : big with
      | none =>
          subst hbig
          simp only [scanZone, hm', decide_true, Bool.and_true, if_true, Option.some.injEq] at hb ⊢
          subst hb
          exact ⟨Biggest.take hm fun z hz hz' => absurd hz' (h.unmapped rfl z hz), rfl⟩
      | some c =>
          subst hbig
          obtain ⟨hc, hidx⟩ := h.biggest c rfl
          by_cases hlen : (info.zones c).length < (info.zones k).length
          · simp only [scanZone, hm', hlen, decide_true, Bool.and_true, if_true,
              Option.some.injEq] at hb ⊢
            subst hb
            exact ⟨Biggest.take hm fun z hz hz' => (hc.longest z hz hz').trans_lt hlen, rfl⟩
          · simp only [scanZone, hlen, decide_false, Bool.and_false, Bool.false_eq_true, if_false,
              Option.some.injEq] at hb ⊢
            subst hb
            exact ⟨hc.skip fun _ => Nat.le_of_not_lt hlen, hidx⟩
    · have hm' : ¬ (info.zones k).physBase + (info.zones k).length < 0x100000000 := hm
      simp only [scanZone, hm', decide_false, Bool.false_and, Bool.false_eq_true, if_false] at hb ⊢
      obtain ⟨hc, hidx⟩ := h.biggest b hb
      exact ⟨hc.skip fun e => absurd e hm, hidx⟩
  · intro z hz
    by_cases hm : (info.zones k).Mapped
    · have hm' : (info.zones k).physBase + (info.zones k).length < 0x100000000 := hm
      cases big with
      | none => simp [scanZone, hm'] at hn
      | some c =>
          simp only [scanZone] at hn
          split_ifs at hn
    · have hm' : ¬ (info.zones k).physBase + (info.zones k).length < 0x100000000 := hm
      simp only [scanZone, hm', decide_false, Bool.false_and, Bool.false_eq_true, if_false] at hn
      rcases Nat.lt_succ_iff_lt_or_eq.mp hz with hlt | rfl
      · exact h.unmapped hn z hlt
      · exact hm

theorem scanned (phys : PhysMem) (info : CpuMemoryInfo) :
    Scanned phys info info.numMemZones
      (loop (scanZone info) info.numMemZones (bootState phys info, none)) := by
  refine loop_invariant (Scanned phys info) ?_ fun k _ p h => scanned_step h
  exact ⟨rfl, fun z hz => absurd hz (Nat.not_lt_zero z), fun z _ => rfl, rfl, rfl, rfl,
    (fun b hb => by cases hb), fun _ z hz => absurd hz (Nat.not_lt_zero z)⟩

/-! ### Accepted memory maps -/

/-- The bytes that the page structs and bitmaps of all zones would need at full size. -/
def maintenanceMemory (info : CpuMemoryInfo) : Nat :=
  ∑ z ∈ Finset.range info.numMemZones, bitmapBytes (info.zones z).pages +
    (∑ z ∈ Finset.range info.numMemZones, (info.zones z).pages) * memMapSize

/-- A memory map that `mem_init` goes through with: zone `b` is the longest zone below
4 GiB and has room for the metadata. -/
structure Accepted (info : CpuMemoryInfo) (b : Nat) : Prop where
  biggest : Biggest info info.numMemZones b
  room : maintenanceMemory info ≤ (info.zones b).length

theorem bitmapBytes_le (n : Nat) : bitmapBytes n ≤ 10 * (n / 16 + 4) := by
  have h : bitmapBytes n ≤ ∑ _i ∈ Finset.range maxPgOrder, (n / 16 + 4) :=
    Finset.sum_le_sum fun i _ => bitmapSize_le_pages n i
  simpa [maxPgOrder] using h

theorem bitmapSize_le_bytes (n : Nat) {i : Nat} (hi : i < maxPgOrder) :
    bitmapSize n i ≤ bitmapBytes n :=
  Finset.single_le_sum (f := bitmapSize n) (fun _ _ => Nat.zero_le _) (Finset.mem_range.mpr hi)

section sums
variable (info : CpuMemoryInfo)

theorem sum_bitmapBytes_lt :
    ∑ z ∈ Finset.range info.numMemZones, bitmapBytes (info.zones z).pages < 2 ^ 59 := by
  have hone : ∀ z ∈ Finset.range info.numMemZones,
      bitmapBytes (info.zones z).pages ≤ 10 * (2 ^ 48 + 4) := by
    intro z _
    have hfits := (info.zones z).fits
    have := bitmapBytes_le (info.zones z).pages
    have : (info.zones z).pages < 2 ^ 52 := by
      apply Nat.div_lt_of_lt_mul
      norm_num [pageSize] at hfits ⊢
      omega
    omega
  have hsum := Finset.sum_le_card_nsmul _ _ _ hone
  have hb := info.bounded
  simp only [Finset.card_range, smul_eq_mul, maxMemZones] at hsum hb
  calc _ ≤ info.numMemZones * (10 * (2 ^ 48 + 4)) := hsum
    _ ≤ 64 * (10 * (2 ^ 48 + 4)) := Nat.mul_le_mul_right _ hb
    _ < 2 ^ 59 := by norm_num

theorem sum_length : ∑ z ∈ Finset.range info.numMemZones, (info.zones z).length =
    (∑ z ∈ Finset.range info.numMemZones, (info.zones z).pages) * pageSize := by
  rw [Finset.sum_mul]
  exact Finset.sum_congr rfl fun z _ => (info.zones z).length_eq

theorem sum_pages_lt : ∑ z ∈ Finset.range info.numMemZones, (info.zones z).pages <
    16 * (∑ z ∈ Finset.range info.numMemZones, bitmapBytes (info.zones z).pages + 64) + 1 := by
  have hone : ∀ z ∈ Finset.range info.numMemZones,
      (info.zones z).pages ≤ 16 * (bitmapBytes (info.zones z).pages + 1) := by
    intro z _
    have h0 := lt_bitmapSize_zero (info.zones z).pages
    have h1 := bitmapSize_le_bytes (info.zones z).pages (i := 0) (by norm_num [maxPgOrder])
    omega
  have hsum := Finset.sum_le_sum hone
  have hb := info.bounded
  rw [← Finset.mul_sum, Finset.sum_add_distrib] at hsum
  simp only [Finset.sum_const, Finset.card_range, smul_eq_mul, Nat.mul_one, maxMemZones] at hsum hb
  omega

end sums

theorem measured_biggest {phys : PhysMem} {info : CpuMemoryInfo} {b : Nat}
    (h : (measured phys info).2 = some b) :
    Biggest info info.numMemZones b ∧ (measured phys info).1.biggestMappedIdx = b :=
  (scanned phys info).biggest b h

/-- Only the sum of the lengths can wrap around. -/
theorem measured_maintenance (phys : PhysMem) (info : CpuMemoryInfo) :
    (measured phys info).1.allocatorMaintenanceMemory =
      ∑ z ∈ Finset.range info.numMemZones, bitmapBytes (info.zones z).pages +
        (∑ z ∈ Finset.range info.numMemZones, (info.zones z).length) % 2 ^ 64 / pageSize *
          memMapSize := by
  have hs := scanned phys info
  have hsum := sum_bitmapBytes_lt info
  have hpages : (∑ z ∈ Finset.range info.numMemZones, (info.zones z).length) % 2 ^ 64 / pageSize <
      2 ^ 52 := by
    rw [Nat.div_lt_iff_lt_mul (by norm_num [pageSize])]
    exact lt_of_lt_of_le (Nat.mod_lt _ (by norm_num)) (by norm_num [pageSize])
  simp only [measured, hs.memory, hs.bitmaps, Nat.mod_add_mod]
  apply Nat.mod_eq_of_lt
  simp only [memMapSize]
  omega

/-- Bitmaps that fit into 32 bits belong to a memory map whose length does not wrap. -/
theorem measured_exact (phys : PhysMem) {info : CpuMemoryInfo}
    (h : ∑ z ∈ Finset.range info.numMemZones, bitmapBytes (info.zones z).pages < 2 ^ 32) :
    (measured phys info).1.allocatorMaintenanceMemory = maintenanceMemory info := by
  have hpages := sum_pages_lt info
  rw [measured_maintenance, sum_length, maintenanceMemory, Nat.mod_eq_of_lt,
    Nat.mul_div_cancel _ (by norm_num [pageSize])]
  simp only [pageSize]
  omega

theorem Biggest.length_lt {info : CpuMemoryInfo} {k b : Nat} (h : Biggest info k b) :
    (info.zones b).length < 2 ^ 32 := by
  have : (info.zones b).physBase + (info.zones b).length < 0x100000000 := h.mapped
  omega

/-- The totals of `mem_init` are the true totals whenever the test on them succeeds. -/
theorem measured_room {phys : PhysMem} {info : CpuMemoryInfo} {b : Nat}
    (hb : Biggest info info.numMemZones b)
    (hroom : (measured phys info).1.allocatorMaintenanceMemory ≤ (info.zones b).length) :
    (measured phys info).1.allocatorMaintenanceMemory = maintenanceMemory info := by
  have hlen := hb.length_lt
  apply measured_exact
  rw [measured_maintenance] at hroom
  omega

theorem Accepted.measured {info : CpuMemoryInfo} {b : Nat} (h : Accepted info b) (phys : PhysMem) :
    (measured phys info).1.allocatorMaintenanceMemory = maintenanceMemory info := by
  have hlen := h.biggest.length_lt
  have hroom := h.room
  apply measured_exact
  rw [maintenanceMemory] at hroom
  omega

/-! ### Placing one zone -/

theorem getMaxOrderFrom_le (n fuel i : Nat) (h : i + fuel = numPgOrders) :
    getMaxOrderFrom n fuel i ≤ maxPgOrder := by
  induction fuel generalizing i with
  | zero => exact Nat.le_refl _
  | succ fuel ih =>
      simp only [numPgOrders] at h
      simp only [getMaxOrderFrom]
      split_ifs with h0 h1
      · omega
      · omega
      · exact ih (i + 1) (by simp only [numPgOrders]; omega)

theorem getMaxOrder_le (n : Nat) : getMaxOrder n ≤ maxPgOrder :=
  getMaxOrderFrom_le n numPgOrders 0 (Nat.zero_add _)

/-- The orders that have a bitmap. -/
def bitmapOrders (maxOrder : Nat) : Nat := min (maxOrder + 1) maxPgOrder

/-- The bytes of metadata a zone takes: its page structs and the bitmaps of its orders. -/
def ZoneLayout.metaBytes (zone : ZoneLayout) : Nat :=
  memMapSize * zone.usableNumPages +
    ∑ i ∈ Finset.range (bitmapOrders zone.maxOrder), zone.bitmapSizes i

/-- Sizes that the loop of `__initialize_offsets` adds up without loss. -/
def WholeWords (sizes : Nat → Nat) : Prop :=
  ∀ i < maxPgOrder, 4 ∣ sizes i ∧ sizes i / 4 < 2 ^ 32

/-- What the bitmap loop has established after `n` rounds. -/
structure BitmapsPlaced (phys : PhysMem) (zone : MemoryZone) (offset used n : Nat)
    (r : MemoryZone × Nat × Nat) : Prop where
  frame : r.1 = { zone with map := r.1.map, words := r.1.words }
  map : ∀ o < n, o < maxPgOrder → r.1.map o = offset + ∑ i ∈ Finset.range o, zone.bitmapSizes i
  words : ∀ o < n, o < maxPgOrder → ∀ w, r.1.words o w = phys.word (va2pa (r.1.map o) + 4 * w)
  offset : r.2.1 = offset + ∑ i ∈ Finset.range (min n maxPgOrder), zone.bitmapSizes i
  used : r.2.2 = used + ∑ i ∈ Finset.range (min n maxPgOrder), zone.bitmapSizes i

theorem bitmapsPlaced_step {phys : PhysMem} {zone : MemoryZone} {offset used n : Nat}
    {r : MemoryZone × Nat × Nat} (hw : WholeWords zone.bitmapSizes)
    (h : BitmapsPlaced phys zone offset used n r) :
    BitmapsPlaced phys zone offset used (n + 1) (placeBitmap phys n r) := by
  obtain ⟨zone', bo, us⟩ := r
  have hsizes : zone'.bitmapSizes = zone.bitmapSizes := by
    rw [show zone' = _ from h.frame]
  have hoff : bo = _ := h.offset
  have hus : us = _ := h.used
  by_cases hn : n < maxPgOrder
  · obtain ⟨hdvd, hlt⟩ := hw n hn
    have hbytes : zone.bitmapSizes n / 4 % 2 ^ 32 * 4 = zone.bitmapSizes n := by
      rw [Nat.mod_eq_of_lt hlt, Nat.div_mul_cancel hdvd]
    have hmin : min n maxPgOrder = n := Nat.min_eq_left (Nat.le_of_lt hn)
    have hmin' : min (n + 1) maxPgOrder = n + 1 := Nat.min_eq_left hn
    rw [hmin] at hoff hus
    simp only [placeBitmap, if_pos hn, hsizes]
    refine ⟨?_, fun o ho ho' => ?_, fun o ho ho' w => ?_, ?_, ?_⟩
    · rw [show zone' = _ from h.frame]
    · rcases Nat.lt_succ_iff_lt_or_eq.mp ho with hlt' | rfl
      · simpa [Nat.ne_of_lt hlt'] using h.map o hlt' ho'
      · simp [hoff]
    · rcases Nat.lt_succ_iff_lt_or_eq.mp ho with hlt' | rfl
      · simpa [Nat.ne_of_lt hlt'] using h.words o hlt' ho' w
      · simp
    · simp only [hmin', Finset.sum_range_succ, hoff, Nat.mul_comm 4, hbytes, Nat.add_assoc]
    · simp only [hmin', Finset.sum_range_succ, hus, hbytes, Nat.add_assoc]
  · -- order `MAX_PG_ORDER` gets no bitmap
    have hmin : min n maxPgOrder = maxPgOrder := Nat.min_eq_right (Nat.le_of_not_lt hn)
    have hmin' : min (n + 1) maxPgOrder = maxPgOrder :=
      Nat.min_eq_right (Nat.le_succ_of_le (Nat.le_of_not_lt hn))
    simp only [placeBitmap, if_neg hn]
    rw [hmin] at hoff hus
    refine ⟨h.frame, fun o ho ho' => h.map o (by omega) ho', fun o ho ho' => h.words o (by omega) ho',
      ?_, ?_⟩
    · rw [hmin']; exact hoff
    · rw [hmin']; exact hus

theorem bitmapsPlaced (phys : PhysMem) (zone : MemoryZone) (offset used n : Nat)
    (hw : WholeWords zone.bitmapSizes) :
    BitmapsPlaced phys zone offset used n (loop (placeBitmap phys) n (zone, offset, used)) := by
  refine loop_invariant (BitmapsPlaced phys zone offset used) ?_
    fun k _ r h => bitmapsPlaced_step hw h
  exact ⟨rfl, fun o ho => absurd ho (Nat.not_lt_zero o), fun o ho => absurd ho (Nat.not_lt_zero o),
    rfl, rfl⟩

/-- Every page struct of the zone is on no list. -/
def MemoryZone.Idle (zone : MemoryZone) : Prop :=
  ∀ i < zone.usableNumPages, zone.links.SelfLinked (.page i)

/-- `__init_memmap` leaves every page struct on no list and touches nothing else of the zone. -/
theorem initMemmap_spec (zone : MemoryZone) :
    initMemmap zone = { zone with
      links := (initMemmap zone).links, pageFlags := (initMemmap zone).pageFlags } ∧
    ∀ i < zone.usableNumPages, (initMemmap zone).links.SelfLinked (.page i) := by
  refine loop_invariant (n := zone.usableNumPages) (fun k (t : MemoryZone) =>
    t = { zone with links := t.links, pageFlags := t.pageFlags } ∧
      ∀ i < k, t.links.SelfLinked (.page i)) ⟨rfl, fun i hi => absurd hi (Nat.not_lt_zero i)⟩ ?_
  rintro k _ t ⟨hframe, hself⟩
  refine ⟨by rw [hframe], fun i hi => ?_⟩
  rcases Nat.lt_succ_iff_lt_or_eq.mp hi with hlt | rfl
  · have hne : ZoneNode.page i ≠ .page k := fun e => Nat.ne_of_lt hlt (ZoneNode.page.inj e)
    obtain ⟨hn, hp⟩ := initListHead_frame (L := t.links) hne
    exact ⟨hn.trans (hself i hlt).1, hp.trans (hself i hlt).2⟩
  · exact initListHead_selfLinked _ _

/-- A zone as `__initialize_offsets` leaves it, with its metadata from offset `start` on. -/
structure Placed (phys : PhysMem) (biggestBase start : Nat) (before zone : MemoryZone) : Prop where
  maxOrder : zone.maxOrder = getMaxOrder (before.usableNumPages % 2 ^ 32)
  usable : zone.usableNumPages = before.usableNumPages >>> zone.maxOrder <<< zone.maxOrder
  memMap : zone.memMap = biggestBase + start
  map : ∀ o ≤ zone.maxOrder, o < maxPgOrder → zone.map o = biggestBase + (start +
    memMapSize * zone.usableNumPages + ∑ i ∈ Finset.range o, zone.bitmapSizes i)
  words : ∀ o ≤ zone.maxOrder, o < maxPgOrder → ∀ w,
    zone.words o w = phys.word (va2pa (zone.map o) + 4 * w)
  bitmapSizes : zone.bitmapSizes = before.bitmapSizes
  physBase : zone.physBase = before.physBase
  absPfnStart : zone.absPfnStart = before.absPfnStart
  flags : zone.flags = before.flags

theorem placeZone_placed (phys : PhysMem) (biggestBase used : Nat) (zone : MemoryZone)
    (hw : WholeWords zone.bitmapSizes) :
    Placed phys biggestBase used zone (placeZone phys biggestBase used zone).1 ∧
      (placeZone phys biggestBase used zone).1.Idle ∧
      (placeZone phys biggestBase used zone).2 =
        used + (placeZone phys biggestBase used zone).1.metaBytes := by
  simp only [placeZone]
  generalize hmo : getMaxOrder (zone.usableNumPages % 2 ^ 32) = mo
  generalize hus : zone.usableNumPages >>> mo <<< mo = us
  let cut : MemoryZone :=
    { zone with maxOrder := mo, usableNumPages := us, memMap := biggestBase + used }
  have hb := bitmapsPlaced phys cut (biggestBase + (used + memMapSize * us))
    (used + memMapSize * us) (mo + 1) hw
  generalize loop (placeBitmap phys) (mo + 1) _ = r at hb ⊢
  obtain ⟨hframe, hself⟩ := initMemmap_spec r.1
  have hr := hb.frame
  generalize initMemmap r.1 = fin at hframe hself ⊢
  have hmaps : fin.map = r.1.map := by rw [hframe]
  have hwords : fin.words = r.1.words := by rw [hframe]
  have husable : fin.usableNumPages = us := by rw [hframe, hr]
  have hsizes : fin.bitmapSizes = zone.bitmapSizes := by rw [hframe, hr]
  have horder : fin.maxOrder = mo := by rw [hframe, hr]
  refine ⟨⟨?_, ?_, ?_, fun o ho ho' => ?_, fun o ho ho' w => ?_, hsizes, ?_, ?_, ?_⟩, ?_, ?_⟩
  · rw [horder, hmo]
  · rw [husable, horder, hus]
  · rw [hframe, hr]
  · rw [hmaps, hsizes, husable, hb.map o (by omega) ho', Nat.add_assoc]
  · rw [hmaps, hwords, hb.words o (by omega) ho' w]
  · rw [hframe, hr]
  · rw [hframe, hr]
  · rw [hframe, hr]
  · intro i hi
    exact hself i (by rw [hr]; rw [husable] at hi; exact hi)
  · rw [hb.used, ZoneLayout.metaBytes, husable, hsizes, horder, bitmapOrders, Nat.add_assoc]

/-- A change of the list links leaves the layout alone. -/
theorem Placed.of_layout {phys : PhysMem} {biggestBase start : Nat} {before zone zone' : MemoryZone}
    (h : Placed phys biggestBase start before zone) (hl : zone'.toZoneLayout = zone.toZoneLayout)
    (hw : zone'.words = zone.words) : Placed phys biggestBase start before zone' := by
  obtain ⟨h1, h2, h3, h4, h5, h6, h7, h8, h9⟩ := h
  constructor <;> rw [hl] <;> first | assumption | (rw [hw]; assumption)

/-! ### Placing all zones -/

/-- The pages of a zone that are left once the metadata has been set aside. -/
def zonePages (info : CpuMemoryInfo) (b z : Nat) : Nat :=
  if z = b then (info.zones z).pages - maintenancePages (maintenanceMemory info)
  else (info.zones z).pages

/-- A zone just before `__initialize_offsets` is called on it. -/
def originZone (phys : PhysMem) (info : CpuMemoryInfo) (b z : Nat) : MemoryZone :=
  { scannedZone phys info z with
    absPfnStart := if z = b then maintenancePages (maintenanceMemory info)
      else (info.zones z).physBase / pageSize
    usableNumPages := zonePages info b z }

/-- What holds once the zones of `done` have been placed, one behind the other. -/
structure LaidOut (phys : PhysMem) (info : CpuMemoryInfo) (b : Nat) (done : List Nat)
    (start : Nat → Nat) (st : AllocState) : Prop where
  numZones : st.numZones = info.numMemZones
  biggest : st.biggestMappedIdx = b
  maintenance : st.allocatorMaintenanceMemory = maintenanceMemory info
  base : (st.zones b).physBase = (info.zones b).physBase
  placed : ∀ z ∈ done, Placed phys (pa2va (info.zones b).physBase) (start z)
    (originZone phys info b z) (st.zones z)
  idle : ∀ z ∈ done, (st.zones z).Idle
  rest : ∀ z < info.numMemZones, z ∉ done → st.zones z = scannedZone phys info z
  apart : done.Pairwise fun y z => start y + (st.zones y).metaBytes ≤ start z
  inside : ∀ z ∈ done, start z + (st.zones z).metaBytes ≤ st.totalMaintenanceUsed
  tile : ∀ a < st.totalMaintenanceUsed,
    ∃ z ∈ done, start z ≤ a ∧ a < start z + (st.zones z).metaBytes
  used : st.totalMaintenanceUsed = (done.map fun z => (st.zones z).metaBytes).sum

theorem Accepted.wholeWords {info : CpuMemoryInfo} {b z : Nat} (h : Accepted info b)
    (hz : z < info.numMemZones) : WholeWords (bitmapSize (info.zones z).pages) := by
  intro i hi
  refine ⟨bitmapSize_dvd _ _, ?_⟩
  have hone := bitmapSize_le_bytes (info.zones z).pages hi
  have hall : bitmapBytes (info.zones z).pages ≤
      ∑ z ∈ Finset.range info.numMemZones, bitmapBytes (info.zones z).pages :=
    Finset.single_le_sum (f := fun z => bitmapBytes (info.zones z).pages)
      (fun _ _ => Nat.zero_le _) (Finset.mem_range.mpr hz)
  have hroom := h.room
  have hmapped : (info.zones b).physBase + (info.zones b).length < 0x100000000 := h.biggest.mapped
  simp only [maintenanceMemory] at hroom
  omega

theorem LaidOut.step {phys : PhysMem} {info : CpuMemoryInfo} {b z : Nat} {done : List Nat}
    {start : Nat → Nat} {st : AllocState} (h : LaidOut phys info b done start st)
    (hacc : Accepted info b) (hz : z < info.numMemZones) (hnew : z ∉ done) :
    LaidOut phys info b (done ++ [z]) (Function.update start z st.totalMaintenanceUsed)
      (initializeOffsets phys z (st.setZone z (originZone phys info b z))) := by
  have hbase : ((st.setZone z (originZone phys info b z)).zones b).physBase =
      (info.zones b).physBase := by
    rw [AllocState.setZone_zones]
    split_ifs with hzb
    · rw [hzb]; rfl
    · exact h.base
  have hzone : (st.setZone z (originZone phys info b z)).zones z = originZone phys info b z := by simp
  obtain ⟨hp, hidle, hused⟩ := placeZone_placed phys (pa2va (info.zones b).physBase)
    st.totalMaintenanceUsed (originZone phys info b z) (hacc.wholeWords hz)
  simp only [initializeOffsets, AllocState.setZone_biggestMappedIdx, h.biggest, hbase, hzone,
    AllocState.setZone_totalMaintenanceUsed, AllocState.setZone_setZone]
  generalize placeZone phys (pa2va (info.zones b).physBase) st.totalMaintenanceUsed
    (originZone phys info b z) = r at hp hidle hused ⊢
  have hne : ∀ y ∈ done, y ≠ z := fun y hy e => hnew (e ▸ hy)
  refine ⟨h.numZones, rfl, h.maintenance, ?_, fun y hy => ?_, fun y hy => ?_,
    fun y hy hy' => ?_, ?_, fun y hy => ?_, fun a ha => ?_, ?_⟩
  · simp only [AllocState.setZone_zones]
    split_ifs with hzb
    · rw [hp.physBase, hzb]; rfl
    · exact h.base
  · rcases List.mem_append.mp hy with hy | hy
    · simpa [hne y hy] using h.placed y hy
    · obtain rfl := List.mem_singleton.mp hy
      simpa using hp
  · rcases List.mem_append.mp hy with hy | hy
    · simpa [hne y hy] using h.idle y hy
    · obtain rfl := List.mem_singleton.mp hy
      simpa using hidle
  · simp only [List.mem_append, List.mem_singleton, not_or] at hy'
    simpa [hy'.2] using h.rest y hy hy'.1
  · -- the new range starts where the ranges handed out before end
    refine List.pairwise_append.mpr ⟨?_, List.pairwise_singleton _ _, fun x hx y hy => ?_⟩
    · refine h.apart.imp_of_mem fun hx hy hxy => ?_
      simpa [hne _ hx, hne _ hy] using hxy
    · obtain rfl := List.mem_singleton.mp hy
      simpa [hne x hx] using h.inside x hx
  · rcases List.mem_append.mp hy with hy | hy
    · have := h.inside y hy
      simp only [AllocState.setZone_zones, hne y hy, if_false, Function.update_of_ne (hne y hy), hused]
      omega
    · obtain rfl := List.mem_singleton.mp hy
      simp [hused]
  · by_cases hlt : a < st.totalMaintenanceUsed
    · obtain ⟨y, hy, hrange⟩ := h.tile a hlt
      exact ⟨y, List.mem_append_left _ hy, by simpa [hne y hy] using hrange⟩
    · have ha' : a < r.2 := ha
      refine ⟨z, List.mem_append_right _ (List.mem_singleton_self z), ?_⟩
      simp only [AllocState.setZone_zones, if_true, Function.update_self]
      omega
  · have hsame : done.map (fun y => ((st.setZone z r.1).zones y).metaBytes) =
        done.map fun y => (st.zones y).metaBytes :=
      List.map_congr_left fun y hy => by simp [hne y hy]
    simp only [List.map_append, List.sum_append, List.map_cons, List.map_nil, List.sum_cons,
      List.sum_nil, hsame, ← h.used]
    simp [hused]

/-- The zones in the order in which they get their metadata. -/
def layoutOrder (n b : Nat) : List Nat := (List.range n).filter (· ≠ b) ++ [b]

theorem mem_layoutOrder {n b z : Nat} (hb : b < n) : z ∈ layoutOrder n b ↔ z < n := by
  simp only [layoutOrder, List.mem_append, List.mem_filter, List.mem_range, List.mem_singleton,
    decide_eq_true_eq]
  omega

theorem layoutOrder_nodup (n b : Nat) : (layoutOrder n b).Nodup := by
  refine List.nodup_append.mpr ⟨List.nodup_range.filter _, List.nodup_singleton b, ?_⟩
  intro x hx y hy
  simp only [List.mem_filter, decide_eq_true_eq, List.mem_singleton] at hx hy
  exact hy ▸ hx.2

theorem laidOut_others {phys : PhysMem} {info : CpuMemoryInfo} {b : Nat} {st : AllocState}
    (hacc : Accepted info b) (h : LaidOut phys info b [] (fun _ => 0) st) :
    ∃ start, LaidOut phys info b ((List.range info.numMemZones).filter (· ≠ b)) start
      (loop (layoutZone phys) info.numMemZones st) := by
  refine loop_invariant (n := info.numMemZones) (fun k st =>
    ∃ start, LaidOut phys info b ((List.range k).filter (· ≠ b)) start st) ⟨fun _ => 0, h⟩ ?_
  rintro k hk t ⟨start, ht⟩
  rw [List.range_succ, List.filter_append]
  by_cases hkb : k = b
  · refine ⟨start, ?_⟩
    simpa [layoutZone, ht.biggest, hkb] using ht
  · have hnew : k ∉ (List.range k).filter (· ≠ b) := fun hmem =>
      absurd (List.mem_range.mp (List.mem_of_mem_filter hmem)) (Nat.lt_irrefl k)
    have horigin : originZone phys info b k =
        { t.zones k with usableNumPages := (t.zones k).absNumPages } := by
      rw [ht.rest k hk hnew]
      simp only [originZone, zonePages, if_neg hkb, scannedZone]
    have hstep := ht.step hacc hk hnew
    simp only [List.filter_cons, List.filter_nil, hkb, ne_eq, not_false_eq_true, decide_true, if_true,
      layoutZone, ht.biggest, if_false, ← horigin]
    exact ⟨_, hstep⟩

theorem maintenancePages_le {m n : Nat} (h : m ≤ n * pageSize) : maintenancePages m ≤ n := by
  rw [maintenancePages]
  split_ifs with hrem <;> rw [pageSize] at * <;> omega

theorem Accepted.reserved_le {info : CpuMemoryInfo} {b : Nat} (h : Accepted info b) :
    maintenancePages (maintenanceMemory info) ≤ (info.zones b).pages :=
  maintenancePages_le ((info.zones b).length_eq ▸ h.room)

theorem laidOut_all {phys : PhysMem} {info : CpuMemoryInfo} {b : Nat} {st : AllocState}
    (hacc : Accepted info b) (h : LaidOut phys info b [] (fun _ => 0) st) :
    ∃ start, LaidOut phys info b (layoutOrder info.numMemZones b) start
      (initMaintenanceZone phys b (loop (layoutZone phys) info.numMemZones st)) := by
  obtain ⟨start, hs⟩ := laidOut_others hacc h
  generalize loop (layoutZone phys) info.numMemZones st = t at hs ⊢
  have hnew : b ∉ (List.range info.numMemZones).filter (· ≠ b) := by simp
  have hb := hacc.biggest.lt
  have hle := hacc.reserved_le
  have hpages : (info.zones b).pages < 2 ^ 64 :=
    lt_of_le_of_lt (Nat.div_le_self _ _)
      (lt_of_le_of_lt (Nat.le_add_left _ _) (info.zones b).fits)
  have horigin : { t.zones b with
      absPfnStart := maintenancePages t.allocatorMaintenanceMemory
      usableNumPages := ((t.zones b).absNumPages + 2 ^ 64 -
        maintenancePages t.allocatorMaintenanceMemory) % 2 ^ 64 } = originZone phys info b b := by
    rw [hs.rest b hb hnew, hs.maintenance]
    have hleft : ((info.zones b).pages + 2 ^ 64 - maintenancePages (maintenanceMemory info)) % 2 ^ 64
        = (info.zones b).pages - maintenancePages (maintenanceMemory info) := by omega
    simp only [originZone, zonePages, if_true, scannedZone, hleft]
  have hstep := hs.step hacc hb hnew
  simp only [initMaintenanceZone, horigin]
  exact ⟨_, hstep⟩

/-- The last loop of `mem_init` on one zone. -/
def openedZone (zone : MemoryZone) : MemoryZone :=
  initFreeLists { zone with availablePages := zone.usableNumPages }

theorem loop_openZone (n : Nat) (st : AllocState) :
    loop openZone n st =
      { st with zones := fun z => if z < n then openedZone (st.zones z) else st.zones z } := by
  refine loop_invariant (n := n) (s := st) (fun k t => t =
    { st with zones := fun z => if z < k then openedZone (st.zones z) else st.zones z }) ?_ ?_
  · simp
  rintro k _ t rfl
  simp only [openZone, AllocState.setZone, Nat.lt_irrefl, if_false]
  congr 1
  funext z
  simp only [Function.update_apply, Nat.lt_succ_iff_lt_or_eq]
  by_cases hz : z = k
  · simp [hz, openedZone]
  · simp [hz]

/-- The usable pages of a zone are cut down to whole blocks of its largest order. -/
def wholeBlocks (pages : Nat) : Nat :=
  pages >>> getMaxOrder (pages % 2 ^ 32) <<< getMaxOrder (pages % 2 ^ 32)

/-- The bytes of page structs and bitmaps that `mem_init` lays out for a memory map. -/
def metadataBytes (info : CpuMemoryInfo) (b : Nat) : Nat :=
  ∑ z ∈ Finset.range info.numMemZones, (memMapSize * wholeBlocks (zonePages info b z) +
    ∑ i ∈ Finset.range (bitmapOrders (getMaxOrder (zonePages info b z % 2 ^ 32))),
      bitmapSize (info.zones z).pages i)

theorem wholeBlocks_le (n : Nat) : wholeBlocks n ≤ n := by
  rw [wholeBlocks, Nat.shiftRight_eq_div_pow, Nat.shiftLeft_eq]
  exact Nat.div_mul_le_self _ _

theorem zonePages_le (info : CpuMemoryInfo) (b z : Nat) :
    zonePages info b z ≤ (info.zones z).pages := by
  rw [zonePages]
  split_ifs <;> omega

theorem metadataBytes_le (info : CpuMemoryInfo) (b : Nat) :
    metadataBytes info b ≤ maintenanceMemory info := by
  rw [maintenanceMemory, Finset.sum_mul, ← Finset.sum_add_distrib]
  refine Finset.sum_le_sum fun z _ => ?_
  have hpages := (wholeBlocks_le (zonePages info b z)).trans (zonePages_le info b z)
  have hmaps : ∑ i ∈ Finset.range (bitmapOrders (getMaxOrder (zonePages info b z % 2 ^ 32))),
      bitmapSize (info.zones z).pages i ≤ bitmapBytes (info.zones z).pages :=
    Finset.sum_le_sum_of_subset (Finset.range_subset_range.mpr (Nat.min_le_right _ _))
  rw [memMapSize]
  omega

/-- The layout of the allocator after `mem_init`. -/
structure Booted (phys : PhysMem) (info : CpuMemoryInfo) (b : Nat) (start : Nat → Nat)
    (st : AllocState) : Prop where
  accepted : Accepted info b
  numZones : st.numZones = info.numMemZones
  biggest : st.biggestMappedIdx = b
  placed : ∀ z < info.numMemZones, Placed phys (pa2va (info.zones b).physBase) (start z)
    (originZone phys info b z) (st.zones z)
  opened : ∀ z < info.numMemZones, ∃ zone : MemoryZone, zone.Idle ∧ st.zones z = openedZone zone
  apart : ∀ y < info.numMemZones, ∀ z < info.numMemZones, y ≠ z →
    start y + (st.zones y).metaBytes ≤ start z ∨ start z + (st.zones z).metaBytes ≤ start y
  inside : ∀ z < info.numMemZones, start z + (st.zones z).metaBytes ≤ st.totalMaintenanceUsed
  tile : ∀ a < st.totalMaintenanceUsed,
    ∃ z < info.numMemZones, start z ≤ a ∧ a < start z + (st.zones z).metaBytes
  used : st.totalMaintenanceUsed = metadataBytes info b

theorem LaidOut.booted {phys : PhysMem} {info : CpuMemoryInfo} {b : Nat} {start : Nat → Nat}
    {st : AllocState} (hacc : Accepted info b)
    (h : LaidOut phys info b (layoutOrder info.numMemZones b) start st) :
    Booted phys info b start (loop openZone info.numMemZones st) := by
  have hmem := fun z => mem_layoutOrder (z := z) hacc.biggest.lt
  have hzone : ∀ z < info.numMemZones,
      (loop openZone info.numMemZones st).zones z = openedZone (st.zones z) := by
    intro z hz
    simp [loop_openZone, hz]
  have hmeta : ∀ z < info.numMemZones,
      ((loop openZone info.numMemZones st).zones z).metaBytes = (st.zones z).metaBytes := by
    intro z hz
    rw [hzone z hz]
    rfl
  have hused : (loop openZone info.numMemZones st).totalMaintenanceUsed =
      st.totalMaintenanceUsed := by rw [loop_openZone]
  refine ⟨hacc, ?_, ?_, fun z hz => ?_, fun z hz => ?_, fun y hy z hz hne => ?_, fun z hz => ?_,
    fun a ha => ?_, ?_⟩
  · rw [loop_openZone]; exact h.numZones
  · rw [loop_openZone]; exact h.biggest
  · rw [hzone z hz]
    exact (h.placed z ((hmem z).mpr hz)).of_layout rfl rfl
  · exact ⟨st.zones z, h.idle z ((hmem z).mpr hz), hzone z hz⟩
  · rw [hmeta y hy, hmeta z hz]
    let R (y z : Nat) : Prop := start y + (st.zones y).metaBytes ≤ start z ∨
      start z + (st.zones z).metaBytes ≤ start y
    have hsymm : Std.Symm R := ⟨fun _ _ => Or.symm⟩
    have hR : (layoutOrder info.numMemZones b).Pairwise R := h.apart.imp Or.inl
    exact hR.forall ((hmem y).mpr hy) ((hmem z).mpr hz) hne
  · rw [hmeta z hz, hused]
    exact h.inside z ((hmem z).mpr hz)
  · rw [hused] at ha
    obtain ⟨z, hz, hrange⟩ := h.tile a ha
    have hz' := (hmem z).mp hz
    exact ⟨z, hz', by rwa [hmeta z hz']⟩
  · have hset : (layoutOrder info.numMemZones b).toFinset = Finset.range info.numMemZones := by
      ext z
      rw [List.mem_toFinset, hmem, Finset.mem_range]
    rw [hused, h.used, ← List.sum_toFinset _ (layoutOrder_nodup _ _), hset, metadataBytes]
    refine Finset.sum_congr rfl fun z hz => ?_
    have hp := h.placed z ((hmem z).mpr (Finset.mem_range.mp hz))
    rw [ZoneLayout.metaBytes, hp.usable, hp.maxOrder, hp.bitmapSizes]
    rfl

theorem laidOut_measured {phys : PhysMem} {info : CpuMemoryInfo} {b : Nat}
    (hb : (measured phys info).2 = some b)
    (hm : (measured phys info).1.allocatorMaintenanceMemory = maintenanceMemory info) :
    LaidOut phys info b [] (fun _ => 0) (measured phys info).1 := by
  have hs := scanned phys info
  obtain ⟨hbig, hidx⟩ := measured_biggest hb
  refine ⟨hs.numZones, hidx, hm, ?_, nofun, nofun, fun z hz _ => hs.done z hz, List.Pairwise.nil,
    nofun, fun a ha => ?_, hs.used⟩
  · exact congrArg (fun zone : MemoryZone => zone.physBase) (hs.done b hbig.lt)
  · exact absurd (hs.used ▸ ha : a < 0) (Nat.not_lt_zero a)

theorem memInit_eq {phys : PhysMem} {info : CpuMemoryInfo} {b : Nat}
    (hb : (measured phys info).2 = some b)
    (hroom : (measured phys info).1.allocatorMaintenanceMemory ≤ (info.zones b).length) :
    ∃ st start, memInit phys info = some st ∧ Booted phys info b start st := by
  obtain ⟨hbig, hidx⟩ := measured_biggest hb
  have hm := measured_room hbig hroom
  have hacc : Accepted info b := ⟨hbig, hm ▸ hroom⟩
  have h0 := laidOut_measured hb hm
  have hcall : memInit phys info = some (loop openZone info.numMemZones
      (initMaintenanceZone phys b (loop (layoutZone phys) info.numMemZones
        (measured phys info).1))) := by
    rcases hmeas : measured phys info with ⟨st, big⟩
    rw [hmeas] at hb h0 hroom hidx
    obtain rfl : big = some b := hb
    obtain ⟨s1, h1⟩ := laidOut_others hacc h0
    obtain ⟨s2, h2⟩ := laidOut_all hacc h0
    have hn : st.numZones = info.numMemZones := h0.numZones
    simp only [memInit, hmeas, if_neg (Nat.not_lt.mpr hroom), hn, h1.biggest, h2.numZones]
  obtain ⟨start, hlaid⟩ := laidOut_all hacc h0
  exact ⟨_, start, hcall, hlaid.booted hacc⟩

theorem Biggest.unique {info : CpuMemoryInfo} {k b c : Nat} (hb : Biggest info k b)
    (hc : Biggest info k c) : b = c := by
  have h1 := hb.longest c hc.lt hc.mapped
  have h2 := hc.longest b hb.lt hb.mapped
  rcases Nat.lt_trichotomy b c with hlt | heq | hgt
  · have := hc.first b hlt hb.mapped
    omega
  · exact heq
  · have := hb.first c hgt hc.mapped
    omega

/-- `mem_init` goes through with every accepted map. -/
theorem memInit_of_accepted {info : CpuMemoryInfo} {b : Nat} (phys : PhysMem)
    (hacc : Accepted info b) :
    ∃ st start, memInit phys info = some st ∧ Booted phys info b start st := by
  cases hc : (measured phys info).2 with
  | none => exact absurd hacc.biggest.mapped ((scanned phys info).unmapped hc b hacc.biggest.lt)
  | some c =>
      obtain rfl := (measured_biggest hc).1.unique hacc.biggest
      exact memInit_eq hc (hacc.measured phys ▸ hacc.room)

/-- and with no other. -/
theorem booted_of_memInit {phys : PhysMem} {info : CpuMemoryInfo} {st : AllocState}
    (h : memInit phys info = some st) : ∃ b start, Booted phys info b start st := by
  cases hb : (measured phys info).2 with
  | none =>
      rcases hmeas : measured phys info with ⟨t, big⟩
      rw [hmeas] at hb
      obtain rfl : big = none := hb
      simp [memInit, hmeas] at h
  | some b =>
      by_cases hroom : (measured phys info).1.allocatorMaintenanceMemory ≤ (info.zones b).length
      · obtain ⟨t, start, ht, hboot⟩ := memInit_eq hb hroom
        obtain rfl := Option.some.inj (ht.symm.trans h)
        exact ⟨b, start, hboot⟩
      · rcases hmeas : measured phys info with ⟨t, big⟩
        rw [hmeas] at hb hroom
        obtain rfl : big = some b := hb
        simp [memInit, hmeas, Nat.lt_of_not_le hroom] at h

theorem accepted_of_room {info : CpuMemoryInfo} {z : Nat} (hz : z < info.numMemZones)
    (hm : (info.zones z).Mapped) (hroom : maintenanceMemory info ≤ (info.zones z).length)
    (phys : PhysMem) : ∃ b, Accepted info b := by
  cases hb : (measured phys info).2 with
  | none => exact absurd hm ((scanned phys info).unmapped hb z hz)
  | some b =>
      obtain ⟨hbig, _⟩ := measured_biggest hb
      exact ⟨b, hbig, hroom.trans (hbig.longest z hz hm)⟩

end Lucix.PageAlloc
