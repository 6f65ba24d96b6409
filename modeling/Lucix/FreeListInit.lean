import Lucix.MetadataRegions
import Lucix.Word

/-! The free lists that `__init_free_lists` builds in a zone after `__initialize_offsets` has
cut it down to whole blocks of its largest order. -/
namespace Lucix.PageAlloc
open Ring Execution
open Buddy (cover blocks)

/-- `__init_free_lists` in the types of its second loop: the counter and the shifted page number
are `int`, and the page number takes its sign along to 64 bits. -/
def initFreeLists32 (zone : MemoryZone) : MemoryZone :=
  let numBigPages := zone.usableNumPages >>> zone.maxOrder
  let links := loop (fun o links => initListHead links (.area o)) (zone.maxOrder + 1) zone.links
  let links := loop (fun p links =>
    let pfnOffset := (toInt32 (p <<< zone.maxOrder) % 2 ^ 64).toNat
    listAddTail links (.page pfnOffset) (.area zone.maxOrder)) numBigPages links
  { zone with links := links }

theorem loop_congr {σ : Type*} {f g : Nat → σ → σ} {n : Nat} (s : σ) (h : ∀ k < n, ∀ t, f k t = g k t) :
    loop f n s = loop g n s := by
  induction n with
  | zero => rfl
  | succ n ih =>
      have hlow : loop f n s = loop g n s := ih fun k hk => h k (Nat.lt_succ_of_lt hk)
      rw [loop, loop, hlow]
      exact h n (Nat.lt_succ_self n) _

theorem shiftLeft_lt_of_lt_shiftRight {p n k : Nat} (h : p < n >>> k) : p <<< k < n := by
  rw [Nat.shiftRight_eq_div_pow] at h
  rw [Nat.shiftLeft_eq]
  have hlt : p * 2 ^ k < n / 2 ^ k * 2 ^ k := Nat.mul_lt_mul_of_pos_right h (Nat.two_pow_pos k)
  exact hlt.trans_le (Nat.div_mul_le_self n _)

/-- The narrow types lose nothing in a zone of less than 2 ^ 31 pages. -/
theorem initFreeLists32_eq {zone : MemoryZone} (h : zone.usableNumPages < 2 ^ 31) :
    initFreeLists32 zone = initFreeLists zone := by
  have hloop : ∀ links : Links ZoneNode,
      loop (fun p links => listAddTail links (.page (toInt32 (p <<< zone.maxOrder) % 2 ^ 64).toNat)
        (.area zone.maxOrder)) (zone.usableNumPages >>> zone.maxOrder) links =
      loop (fun p links => listAddTail links (.page (p <<< zone.maxOrder)) (.area zone.maxOrder))
        (zone.usableNumPages >>> zone.maxOrder) links := by
    intro links
    refine loop_congr links fun p hp t => ?_
    have hlt := (shiftLeft_lt_of_lt_shiftRight hp).trans h
    generalize p <<< zone.maxOrder = pfn at hlt
    rw [toInt32_of_lt hlt, Int.emod_eq_of_lt (by omega) (by omega), Int.toNat_natCast]
  simp only [initFreeLists32, initFreeLists, hloop]

/-! ### What `__initialize_offsets` leaves -/

theorem loop_placeBitmap_frame (phys : PhysMem) (zone : MemoryZone) (offset used n : Nat) :
    let r := loop (placeBitmap phys) n (zone, offset, used)
    r.1 = { zone with map := r.1.map, words := r.1.words } := by
  refine loop_invariant (fun _ (r : MemoryZone × Nat × Nat) =>
    r.1 = { zone with map := r.1.map, words := r.1.words }) rfl ?_
  intro k _ r hframe
  obtain ⟨zone', offset', used'⟩ := r
  unfold placeBitmap
  split_ifs
  · dsimp only at hframe ⊢
    rw [hframe]
  · exact hframe

theorem placeZone_cut (phys : PhysMem) (biggestBase used : Nat) (zone : MemoryZone) {cut : MemoryZone}
    (hcut : cut = (placeZone phys biggestBase used zone).1) :
    cut.maxOrder = getMaxOrder (zone.usableNumPages % 2 ^ 32) ∧
      cut.usableNumPages = zone.usableNumPages >>> cut.maxOrder <<< cut.maxOrder ∧ cut.Idle := by
  simp only [placeZone] at hcut
  generalize hmo : getMaxOrder (zone.usableNumPages % 2 ^ 32) = mo at hcut ⊢
  generalize hus : zone.usableNumPages >>> mo <<< mo = us at hcut
  have hframe := loop_placeBitmap_frame phys { zone with
    maxOrder := mo, usableNumPages := us, memMap := biggestBase + used }
    (biggestBase + (used + memMapSize * us)) (used + memMapSize * us) (mo + 1)
  dsimp only at hframe
  generalize loop (placeBitmap phys) (mo + 1) _ = r at hframe hcut
  obtain ⟨hmemmap, hself⟩ := initMemmap_spec r.1
  rw [← hcut] at hmemmap hself
  have horder : cut.maxOrder = mo := by rw [hmemmap, hframe]
  have husable : cut.usableNumPages = us := by rw [hmemmap, hframe]
  refine ⟨horder, by rw [husable, horder, hus], ?_⟩
  intro i hi
  apply hself
  rwa [hframe, ← husable]

theorem getMaxOrder_greatest {n : Nat} (hpos : 0 < n) :
    IsGreatest {o | o ≤ maxPgOrder ∧ 2 ^ o ≤ n} (getMaxOrder n) := by
  by_cases hbig : 2 ^ 10 ≤ n
  · have horder : getMaxOrder n = maxPgOrder := getMaxOrderFrom_top rfl hbig
    rw [horder]
    exact ⟨⟨Nat.le_refl _, hbig⟩, fun o ho => ho.1⟩
  · obtain ⟨hle, hlt⟩ := @getMaxOrderFrom_log n numPgOrders 0 (Nat.zero_add _) (Nat.lt_of_not_le hbig)
      (fun j hj => absurd hj (Nat.not_lt_zero j)) hpos
    refine ⟨⟨getMaxOrder_le n, hle⟩, ?_⟩
    intro o ho
    apply Nat.le_of_lt_succ
    exact (Nat.pow_lt_pow_iff_right (by decide)).mp (ho.2.trans_lt hlt)

/-! ### The lists -/

theorem initFreeLists_rep {zone : MemoryZone} (hidle : zone.Idle) :
    Rep (initFreeLists zone) (initialStore zone) :=
  (openedZone_rep hidle).setAvailable zone.availablePages

/-- After `__initialize_offsets` and `__init_free_lists` a zone of `n` pages has the largest order
whose blocks fit, is cut down to whole blocks of it, and its lists hold these in ascending order,
with each page in one of them. -/
theorem initFreeLists_tile_zone (phys : PhysMem) (z : Nat) (st : AllocState) {n : Nat} {zone : MemoryZone}
    (hn : n = (st.zones z).usableNumPages) (hlt : n < 2 ^ 28)
    (hzone : zone = initFreeLists32 ((initializeOffsets phys z st).zones z)) :
    (n = 0 → zone.maxOrder = 0) ∧ (n ≠ 0 → IsGreatest {o | o ≤ maxPgOrder ∧ 2 ^ o ≤ n} zone.maxOrder) ∧
    zone.usableNumPages = n / 2 ^ zone.maxOrder * 2 ^ zone.maxOrder ∧
    zone.usableNumPages ≤ n ∧ n < zone.usableNumPages + 2 ^ zone.maxOrder ∧
    zone.freeList zone.maxOrder =
      (List.range (zone.usableNumPages / 2 ^ zone.maxOrder)).map (· * 2 ^ zone.maxOrder) ∧
    (∀ o, o ≠ zone.maxOrder → zone.freeList o = []) ∧
    ∀ i, cover (blocks zone.freeList (zone.maxOrder + 1)) i = if i < zone.usableNumPages then 1 else 0 := by
  have hplaced : (initializeOffsets phys z st).zones z = (placeZone phys
      (pa2va (st.zones st.biggestMappedIdx).physBase) st.totalMaintenanceUsed (st.zones z)).1 := by
    simp [initializeOffsets, AllocState.setZone]
  obtain ⟨horder, husable, hidle⟩ := placeZone_cut _ _ _ _ hplaced
  generalize (initializeOffsets phys z st).zones z = cut at hzone horder husable hidle
  rw [← hn, Nat.mod_eq_of_lt (by omega)] at horder
  rw [← hn, Nat.shiftRight_eq_div_pow, Nat.shiftLeft_eq] at husable
  have hle : cut.usableNumPages ≤ n := husable ▸ Nat.div_mul_le_self n _
  rw [initFreeLists32_eq (by omega)] at hzone
  have horder' : zone.maxOrder = cut.maxOrder := by rw [hzone]; rfl
  have husable' : zone.usableNumPages = cut.usableNumPages := by rw [hzone]; rfl
  have hdvd : 2 ^ cut.maxOrder ∣ cut.usableNumPages := husable ▸ Nat.dvd_mul_left _ _
  have htiled := initialStore_tiled hdvd
  have hrep := initFreeLists_rep hidle
  have hfree : zone.freeList = (initialStore cut).free := by
    have hbuddy : (initFreeLists cut).buddy = initialStore cut := hrep.buddy_eq htiled
    rw [hzone]
    exact congrArg Buddy.State.free hbuddy
  rw [horder', husable', hfree]
  refine ⟨?_, ?_, husable, hle, ?_, ?_, ?_, ?_⟩
  · intro hzero
    rw [horder, hzero]
    rfl
  · intro hne
    rw [horder]
    exact getMaxOrder_greatest (Nat.pos_of_ne_zero hne)
  · have hmod := Nat.mod_lt n (Nat.two_pow_pos cut.maxOrder)
    have hsplit := Nat.div_add_mod' n (2 ^ cut.maxOrder)
    omega
  · rw [initialStore_top, Nat.shiftRight_eq_div_pow]
    rfl
  · intro o ho
    exact initialStore_other cut ho
  · intro i
    have hcover := htiled.cover i
    rwa [Buddy.cover_nil, Nat.add_zero] at hcover

/-- A zone of `n` pages before its layout. -/
def unplaced (n : Nat) : AllocState :=
  { bootState zeroMem (singleZone zoneAtZero) with
    zones := fun z => { bootZone zeroMem z with usableNumPages := n } }

/-- Seven pages are one block of four. -/
theorem initFreeLists_tile_seven :
    (initFreeLists32 ((initializeOffsets zeroMem 0 (unplaced 7)).zones 0)).maxOrder = 2 ∧
      (initFreeLists32 ((initializeOffsets zeroMem 0 (unplaced 7)).zones 0)).usableNumPages = 7 / 2 ^ 2 * 2 ^ 2 := by
  have h := initFreeLists_tile_zone zeroMem 0 (unplaced 7) rfl (by decide) rfl
  have horder : (initFreeLists32 ((initializeOffsets zeroMem 0 (unplaced 7)).zones 0)).maxOrder = 2 := by
    decide +kernel
  rw [horder] at h
  exact ⟨horder, h.2.2.1⟩

end Lucix.PageAlloc
