import Lucix.PageFrames

/-! A zone's memory as a buddy system. `Rep` relates the list links and bitmap
words of a zone to the abstract state of `Buddy`; `__alloc_from_zone` then
refines `Buddy.Take`, and `free_pages` refines `Buddy.Put` as long as it stays
clear of its own defects. -/
namespace Lucix.PageAlloc
open Ring Execution
open Buddy (Block Take Put Tiled Synced pairOf lower sibling)

/-- The zone's lists hold the blocks of `S` in order, its bitmaps hold the bits of `S`,
and a page struct that starts no free block is on no list. -/
structure Rep (zone : MemoryZone) (S : Buddy.State) : Prop where
  ring : ∀ o ≤ zone.maxOrder, zone.links.IsRing (.area o) ((S.free o).map .page)
  idle : ∀ i < zone.usableNumPages, (∀ o ≤ zone.maxOrder, i ∉ S.free o) →
    zone.links.SelfLinked (.page i)
  above : ∀ o, zone.maxOrder < o → S.free o = []
  bit : S.bit = zone.bit

theorem mem_map_page {i : Nat} {xs : List Nat} : ZoneNode.page i ∈ xs.map .page ↔ i ∈ xs := by
  simp

theorem page_mem_ring {i o : Nat} {xs : List Nat} :
    ZoneNode.page i ∈ ZoneNode.area o :: xs.map .page ↔ i ∈ xs := by
  simp

theorem area_mem_ring {o o' : Nat} {xs : List Nat} :
    ZoneNode.area o ∈ ZoneNode.area o' :: xs.map .page ↔ o = o' := by
  simp

section lists
variable {zone : MemoryZone} {S : Buddy.State} {live : List Block}

theorem lists_apart (ht : Tiled zone.maxOrder zone.usableNumPages S live) {o o' i : Nat}
    (ho : o ≤ zone.maxOrder) (ho' : o' ≤ zone.maxOrder) (hi : i ∈ S.free o) (hi' : i ∈ S.free o') :
    o = o' := by
  by_contra hne
  have hb : (⟨i, o⟩ : Block) ∈ _ := Buddy.mem_blocks.mpr ⟨Nat.lt_succ_of_le ho, hi⟩
  have hb' : (⟨i, o'⟩ : Block) ∈ _ := Buddy.mem_blocks.mpr ⟨Nat.lt_succ_of_le ho', hi'⟩
  have hbne : (⟨i, o⟩ : Block) ≠ ⟨i, o'⟩ := fun e => hne (Block.mk.inj e).2
  exact ht.free_disjoint hb hb' hbne i ⟨Block.mem_start _, Block.mem_start _⟩

/-- A change of the links that stays inside the ring of order `o` and rebuilds that ring
leaves a representation of the changed list. -/
theorem Rep.update_ring (h : Rep zone S) (ht : Tiled zone.maxOrder zone.usableNumPages S live)
    {o : Nat} (ho : o ≤ zone.maxOrder) {links : Links ZoneNode} {xs : List Nat}
    (hring : links.IsRing (.area o) (xs.map .page))
    (hframe : ∀ n, n ∉ ZoneNode.area o :: (S.free o).map .page →
      n ∉ ZoneNode.area o :: xs.map .page →
        links.next n = zone.links.next n ∧ links.prev n = zone.links.prev n)
    (hnew : ∀ i ∈ xs, ∀ o' ≤ zone.maxOrder, i ∈ S.free o' → o' = o)
    (hgone : ∀ i ∈ S.free o, i ∉ xs → links.SelfLinked (.page i)) :
    Rep (zone.setLinks links) (S.setFree o xs) := by
  refine ⟨fun o' ho' => ?_, fun i hi hout => ?_, fun o' ho' => ?_, h.bit⟩
  · by_cases hoo : o' = o
    · subst hoo
      simpa [MemoryZone.setLinks] using hring
    · rw [Buddy.State.setFree_free, if_neg hoo]
      have hclear : ∀ n ∈ ZoneNode.area o' :: (S.free o').map .page,
          links.next n = zone.links.next n ∧ links.prev n = zone.links.prev n := by
        intro n hn
        cases n with
        | area a =>
            obtain rfl := area_mem_ring.mp hn
            exact hframe _ (fun hm => hoo (area_mem_ring.mp hm)) (fun hm => hoo (area_mem_ring.mp hm))
        | page i =>
            have hi := page_mem_ring.mp hn
            refine hframe _ (fun hm => hoo ?_) (fun hm => hoo ?_)
            · exact lists_apart ht ho' ho hi (page_mem_ring.mp hm)
            · exact hnew i (page_mem_ring.mp hm) o' ho' hi
      exact (h.ring o' ho').congr (fun n hn => (hclear n hn).1) (fun n hn => (hclear n hn).2)
  · have hxs : i ∉ xs := by simpa using hout o ho
    by_cases hold : i ∈ S.free o
    · exact hgone i hold hxs
    · have hidle : zone.links.SelfLinked (.page i) := by
        refine h.idle i hi fun o' ho' hm => ?_
        by_cases hoo : o' = o
        · exact hold (hoo ▸ hm)
        · exact hout o' ho' (by simpa [hoo] using hm)
      obtain ⟨hn, hp⟩ := hframe (.page i) (fun hm => hold (page_mem_ring.mp hm))
        (fun hm => hxs (page_mem_ring.mp hm))
      exact ⟨hn.trans hidle.1, hp.trans hidle.2⟩
  · have hne : o' ≠ o := by
      rintro rfl
      exact absurd ho (Nat.not_le.mpr ho')
    rw [Buddy.State.setFree_free, if_neg hne]
    exact h.above o' ho'

theorem Rep.del (h : Rep zone S) (ht : Tiled zone.maxOrder zone.usableNumPages S live)
    {o i : Nat} (ho : o ≤ zone.maxOrder) (hi : i ∈ S.free o) :
    Rep (zone.setLinks (listDelInit zone.links (.page i))) (S.setFree o ((S.free o).erase i)) := by
  have hr := h.ring o ho
  obtain ⟨ys, zs, _, hsplit, herase⟩ := List.exists_erase_eq hi
  refine h.update_ring ht ho ?_ (fun n hold _ => ?_) (fun j hj o' ho' hm => ?_) (fun j hj hout => ?_)
  · rw [herase, List.map_append]
    rw [hsplit, List.map_append, List.map_cons] at hr
    exact listDelInit_ring hr
  · exact listDelInit_frame hr (mem_map_page.mpr hi) hold
  · exact lists_apart ht ho' ho hm (List.mem_of_mem_erase hj)
  · -- only the erased block has left the list
    have hji : j = i := by
      by_contra hne
      exact hout ((List.mem_erase_of_ne hne).mpr hj)
    rw [hji]
    exact listDelInit_self _ _

/-- Putting a page on an empty list, in the way both callers of the list macros do it:
with the head in the place of the entry. -/
theorem Rep.add_only (h : Rep zone S) (ht : Tiled zone.maxOrder zone.usableNumPages S live)
    {o i : Nat} (ho : o ≤ zone.maxOrder) (hi : i < zone.usableNumPages) (hempty : S.free o = [])
    (hout : ∀ o' ≤ zone.maxOrder, i ∉ S.free o') :
    Rep (zone.setLinks (listAddTail zone.links (.area o) (.page i))) (S.setFree o [i]) ∧
      Rep (zone.setLinks (listAdd zone.links (.area o) (.page i))) (S.setFree o [i]) := by
  have hself := h.idle i hi hout
  have hne : ZoneNode.area o ≠ .page i := by simp
  have hnew : ∀ j ∈ [i], ∀ o' ≤ zone.maxOrder, j ∈ S.free o' → o' = o := by
    intro j hj o' ho' hm
    rw [List.mem_singleton.mp hj] at hm
    exact absurd hm (hout o' ho')
  have hgone : ∀ (links : Links ZoneNode), ∀ j ∈ S.free o, j ∉ [i] →
      links.SelfLinked (.page j) := by
    intro links j hj
    rw [hempty] at hj
    exact absurd hj List.not_mem_nil
  constructor
  · refine h.update_ring ht ho (listAddTail_swapped hself hne) (fun n hold hn => ?_) hnew (hgone _)
    exact listAddTail_swapped_frame hself (fun e => hold (by simp [e])) (fun e => hn (by simp [e]))
  · refine h.update_ring ht ho (listAdd_swapped hself hne) (fun n hold hn => ?_) hnew (hgone _)
    exact listAdd_swapped_frame hself (fun e => hold (by simp [e])) (fun e => hn (by simp [e]))

/-- The represented state can be read off the links and words. -/
theorem Rep.buddy_eq (h : Rep zone S) (ht : Tiled zone.maxOrder zone.usableNumPages S live) :
    zone.buddy = S := by
  have hfree : zone.freeList = S.free := by
    funext o
    by_cases ho : o ≤ zone.maxOrder
    · have hr := h.ring o ho
      have hlen : (S.free o).length ≤ zone.usableNumPages := by
        have hsub : S.free o ⊆ List.range zone.usableNumPages := by
          intro i hi
          have hend := ht.free_end_le ho hi
          have hpos := Nat.two_pow_pos o
          exact List.mem_range.mpr (by omega)
        simpa using (ht.nodup ho).length_le_of_subset hsub
      have hfuel : ((S.free o).map ZoneNode.page).length < zone.usableNumPages + 1 := by
        simpa using Nat.lt_succ_of_le hlen
      have hwalk := hr.walk hfuel
      rw [MemoryZone.freeList, if_pos ho, hwalk]
      simp [List.filterMap_map, Function.comp_def, ZoneNode.pfn?]
    · rw [MemoryZone.freeList, if_neg ho, h.above o (Nat.lt_of_not_le ho)]
  rw [MemoryZone.buddy, hfree, ← h.bit]

end lists

/-! ### The bitmaps -/

/-- Every order that has a bitmap has a word for each of its pairs. -/
def ZoneLayout.BitmapsFit (zone : ZoneLayout) : Prop :=
  ∀ o ≤ zone.maxOrder, o < maxPgOrder → zone.map o ≠ 0 ∧ 4 ∣ zone.bitmapSizes o ∧
    zone.usableNumPages ≤ 8 * zone.bitmapSizes o * 2 ^ (o + 1)

theorem getLsbD_xor_bit (w : BitVec 32) {i : Nat} (hi : i < 32) (j : Nat) :
    (w ^^^ (1#32 <<< i)).getLsbD j = if j = i then !w.getLsbD i else w.getLsbD j := by
  rw [BitVec.getLsbD_xor, BitVec.getLsbD_shiftLeft, BitVec.getLsbD_one]
  by_cases hji : j = i
  · subst hji
    simp [hi]
  · have hbit : ¬ (j < 32 ∧ i ≤ j ∧ j - i = 0) := by omega
    rw [if_neg hji]
    by_cases hj : j < i
    · simp [hj]
    · simp [show ¬ (j - i = 0) by omega]

theorem and_bit_ne_zero (w : BitVec 32) {i : Nat} (hi : i < 32) :
    decide (w &&& (1#32 <<< i) ≠ 0#32) = w.getLsbD i := by
  cases hb : w.getLsbD i with
  | true =>
      refine decide_eq_true fun hz => ?_
      have hbit : (w &&& (1#32 <<< i)).getLsbD i = true := by
        rw [BitVec.getLsbD_and, hb, BitVec.getLsbD_shiftLeft]
        simp [hi]
      rw [hz] at hbit
      simp at hbit
  | false =>
      refine decide_eq_false (not_not_intro ?_)
      apply BitVec.eq_of_getLsbD_eq
      intro j hj
      rw [BitVec.getLsbD_and, BitVec.getLsbD_shiftLeft, BitVec.getLsbD_one, BitVec.getLsbD_zero]
      by_cases hji : j = i
      · subst hji
        simp [hb]
      · by_cases hlt : j < i
        · simp [hlt]
        · simp [show ¬ (j - i = 0) by omega]

/-- The bitmap words with the bit of pair `k` flipped. -/
def toggledWords (words : Nat → Nat → BitVec 32) (o k : Nat) : Nat → Nat → BitVec 32 :=
  Function.update words o
    (Function.update (words o) (k / 32) (words o (k / 32) ^^^ (1#32 <<< (k % 32))))

/-- The word of the pair of page `pfn` lies in the bitmap of the order. -/
def ZoneLayout.ToggleFits (zone : ZoneLayout) (pfn o : Nat) : Prop :=
  zone.map o ≠ 0 ∧ 4 * (pairOf pfn o / 32) + 4 ≤ zone.bitmapSizes o

/-- The bit of the pair is flipped, its new value returned, and nothing else changed. -/
theorem toggleBitPfnZone_fits {zone : MemoryZone} {pfn o : Nat} (h : zone.ToggleFits pfn o) :
    toggleBitPfnZone pfn zone o = some (!zone.bit o (pairOf pfn o),
      { zone with words := toggledWords zone.words o (pairOf pfn o) }) := by
  obtain ⟨hmap, hword⟩ := h
  have hpair : pfn >>> (o + 1) = pairOf pfn o := Nat.shiftRight_eq_div_pow _ _
  have hi : pairOf pfn o % 32 < 32 := Nat.mod_lt _ (by norm_num)
  simp only [toggleBitPfnZone, hpair, if_neg hmap, if_pos hword, and_bit_ne_zero _ hi,
    getLsbD_xor_bit _ hi, if_true]
  rfl

theorem toggleBitPfnZone_not_fits {zone : MemoryZone} {pfn o : Nat} (h : ¬ zone.ToggleFits pfn o) :
    toggleBitPfnZone pfn zone o = none := by
  have hpair : pfn >>> (o + 1) = pairOf pfn o := Nat.shiftRight_eq_div_pow _ _
  by_cases hmap : zone.map o = 0
  · rw [toggleBitPfnZone, if_pos hmap]
  · have hword : ¬ 4 * (pairOf pfn o / 32) + 4 ≤ zone.bitmapSizes o := fun hword => h ⟨hmap, hword⟩
    simp only [toggleBitPfnZone, hpair, if_neg hmap, if_neg hword]

theorem ZoneLayout.BitmapsFit.toggleFits {zone : ZoneLayout} (h : zone.BitmapsFit) {pfn o : Nat}
    (ho : o ≤ zone.maxOrder) (hmax : o < maxPgOrder) (hp : pfn < zone.usableNumPages) :
    zone.ToggleFits pfn o := by
  obtain ⟨hmap, ⟨q, hq⟩, hfits⟩ := h o ho hmax
  have hlt : pairOf pfn o < 8 * zone.bitmapSizes o := by
    rw [pairOf, Nat.div_lt_iff_lt_mul (Nat.two_pow_pos _)]
    exact hp.trans_le hfits
  exact ⟨hmap, by omega⟩

theorem toggleBitPfnZone_spec {zone : MemoryZone} {pfn o : Nat} (hfit : zone.BitmapsFit)
    (ho : o ≤ zone.maxOrder) (hmax : o < maxPgOrder) (hp : pfn < zone.usableNumPages) :
    toggleBitPfnZone pfn zone o = some (!zone.bit o (pairOf pfn o),
      { zone with words := toggledWords zone.words o (pairOf pfn o) }) :=
  toggleBitPfnZone_fits (hfit.toggleFits ho hmax hp)

theorem Rep.toggle {zone : MemoryZone} {S : Buddy.State} (h : Rep zone S) (o k : Nat) :
    Rep { zone with words := toggledWords zone.words o k } (S.toggle o k) := by
  refine ⟨h.ring, h.idle, h.above, ?_⟩
  have hi : k % 32 < 32 := Nat.mod_lt _ (by norm_num)
  funext j l
  rw [Buddy.State.toggle_bit, h.bit]
  simp only [MemoryZone.bit, toggledWords, Function.update_apply]
  by_cases hj : j = o
  · subst hj
    by_cases hl : l = k
    · subst hl
      simp only [and_self, if_true, Function.update_self, getLsbD_xor_bit _ hi]
    · by_cases hw : l / 32 = k / 32
      · have hb : l % 32 ≠ k % 32 := by omega
        simp only [hl, and_false, if_false, if_true, hw, Function.update_self,
          getLsbD_xor_bit _ hi, if_neg hb]
      · simp only [hl, and_false, if_false, if_true, Function.update_of_ne hw]
  · simp only [hj, false_and, if_false]

/-! ### The free lists after `mem_init` -/

/-- What the first loop of `__init_free_lists` leaves: empty areas and idle pages. -/
theorem initAreas_spec {zone : MemoryZone} (hidle : zone.Idle) :
    let links := loop (fun o links => initListHead links (.area o)) (zone.maxOrder + 1) zone.links
    (∀ o ≤ zone.maxOrder, links.SelfLinked (.area o)) ∧
      ∀ i < zone.usableNumPages, links.SelfLinked (.page i) := by
  have h := loop_invariant (n := zone.maxOrder + 1) (s := zone.links)
    (f := fun o (links : Links ZoneNode) => initListHead links (.area o))
    (fun k links => (∀ o < k, links.SelfLinked (.area o)) ∧
      ∀ i < zone.usableNumPages, links.SelfLinked (.page i))
    ⟨fun o ho => absurd ho (Nat.not_lt_zero o), hidle⟩ ?_
  · exact ⟨fun o ho => h.1 o (Nat.lt_succ_of_le ho), h.2⟩
  · rintro k _ links ⟨hareas, hpages⟩
    refine ⟨fun o ho => ?_, fun i hi => ?_⟩
    · by_cases hok : o = k
      · rw [hok]; exact initListHead_selfLinked _ _
      · have hne : ZoneNode.area o ≠ .area k := fun e => hok (ZoneNode.area.inj e)
        obtain ⟨hn, hp⟩ := initListHead_frame (L := links) hne
        have hold := hareas o (by omega)
        exact ⟨hn.trans hold.1, hp.trans hold.2⟩
    · obtain ⟨hn, hp⟩ := initListHead_frame (L := links)
        (show ZoneNode.page i ≠ .area k by simp)
      exact ⟨hn.trans (hpages i hi).1, hp.trans (hpages i hi).2⟩

/-- The second loop has threaded the first `k` top blocks. -/
structure Threaded (zone : MemoryZone) (k : Nat) (links : Links ZoneNode) : Prop where
  top : links.IsRing (.area zone.maxOrder) ((Buddy.topBlocks zone.maxOrder k).map .page)
  areas : ∀ o < zone.maxOrder, links.SelfLinked (.area o)
  idle : ∀ i < zone.usableNumPages, i ∉ Buddy.topBlocks zone.maxOrder k →
    links.SelfLinked (.page i)

theorem Threaded.step {zone : MemoryZone} {k : Nat} {links : Links ZoneNode}
    (h : Threaded zone k links) : Threaded zone (k + 1)
      (listAddTail links (.page (k <<< zone.maxOrder)) (.area zone.maxOrder)) := by
  have hsucc : Buddy.topBlocks zone.maxOrder (k + 1) =
      Buddy.topBlocks zone.maxOrder k ++ [k <<< zone.maxOrder] := by
    rw [Buddy.topBlocks, List.range_succ, List.map_append, Nat.shiftLeft_eq]
    rfl
  have hnew : k <<< zone.maxOrder ∉ Buddy.topBlocks zone.maxOrder k := by
    intro hm
    obtain ⟨q, hq, heq⟩ := List.mem_map.mp hm
    rw [Nat.shiftLeft_eq] at heq
    have := Nat.eq_of_mul_eq_mul_right (Nat.two_pow_pos _) heq
    exact absurd (List.mem_range.mp hq) (by omega)
  refine ⟨?_, fun o ho => ?_, fun i hi hout => ?_⟩
  · rw [hsucc, List.map_append]
    exact listAddTail_ring h.top fun hm => hnew (page_mem_ring.mp hm)
  · have hold := h.areas o ho
    obtain ⟨hn, hp⟩ := listAddTail_frame (x := .page (k <<< zone.maxOrder)) h.top
      (n := .area o) (fun hm => Nat.ne_of_lt ho (area_mem_ring.mp hm)) (by simp)
    exact ⟨hn.trans hold.1, hp.trans hold.2⟩
  · rw [hsucc, List.mem_append, List.mem_singleton, not_or] at hout
    have hold := h.idle i hi hout.1
    obtain ⟨hn, hp⟩ := listAddTail_frame (x := .page (k <<< zone.maxOrder)) h.top
      (n := .page i) (fun hm => hout.1 (page_mem_ring.mp hm))
      (fun e => hout.2 (ZoneNode.page.inj e))
    exact ⟨hn.trans hold.1, hp.trans hold.2⟩

/-- The store `mem_init` opens a zone with. -/
def initialStore (zone : MemoryZone) : Buddy.State where
  free o := if o = zone.maxOrder then
    Buddy.topBlocks zone.maxOrder (zone.usableNumPages >>> zone.maxOrder) else []
  bit := zone.bit

theorem initialStore_top (zone : MemoryZone) : (initialStore zone).free zone.maxOrder =
    Buddy.topBlocks zone.maxOrder (zone.usableNumPages >>> zone.maxOrder) := if_pos rfl

theorem initialStore_other (zone : MemoryZone) {o : Nat} (ho : o ≠ zone.maxOrder) :
    (initialStore zone).free o = [] := if_neg ho

theorem openedZone_rep {zone : MemoryZone} (hidle : zone.Idle) :
    Rep (openedZone zone) (initialStore zone) := by
  obtain ⟨hareas, hpages⟩ := initAreas_spec hidle
  have h := loop_invariant (n := zone.usableNumPages >>> zone.maxOrder)
    (f := fun p (links : Links ZoneNode) =>
      listAddTail links (.page (p <<< zone.maxOrder)) (.area zone.maxOrder))
    (Threaded zone)
    ⟨Links.isRing_nil.mpr (hareas _ (Nat.le_refl _)), fun o ho => hareas o (Nat.le_of_lt ho),
      fun i hi _ => hpages i hi⟩ fun k _ links hk => hk.step
  refine ⟨fun o ho => ?_, fun i hi hout => ?_, fun o ho => ?_, rfl⟩
  · rcases Nat.lt_or_eq_of_le ho with hlt | rfl
    · rw [initialStore_other zone (Nat.ne_of_lt hlt)]
      exact Links.isRing_nil.mpr (h.areas o hlt)
    · exact (initialStore_top zone).symm ▸ h.top
  · refine h.idle i hi fun hm => hout zone.maxOrder (Nat.le_refl _) ?_
    rwa [initialStore_top]
  · exact initialStore_other zone (Nat.ne_of_gt ho)

theorem initialStore_tiled {zone : MemoryZone} (hdvd : 2 ^ zone.maxOrder ∣ zone.usableNumPages) :
    Tiled zone.maxOrder zone.usableNumPages (initialStore zone) [] := by
  have h := Buddy.tiled_topBlocks (S := initialStore zone) (n := zone.usableNumPages >>> zone.maxOrder)
    (initialStore_top zone) fun o ho => initialStore_other zone (Nat.ne_of_lt ho)
  rwa [Nat.shiftRight_eq_div_pow, Nat.div_mul_cancel hdvd] at h

/-! ### States with the same layout -/

/-- Everything that `mem_init` fixed once and for all agrees. -/
structure SameLayout (st st' : AllocState) : Prop where
  numZones : st'.numZones = st.numZones
  biggest : st'.biggestMappedIdx = st.biggestMappedIdx
  used : st'.totalMaintenanceUsed = st.totalMaintenanceUsed
  layout : ∀ z, (st'.zones z).toZoneLayout = (st.zones z).toZoneLayout

namespace SameLayout
variable {st st' st'' : AllocState}

theorem refl (st : AllocState) : SameLayout st st := ⟨rfl, rfl, rfl, fun _ => rfl⟩

theorem trans (h : SameLayout st st') (h' : SameLayout st' st'') : SameLayout st st'' :=
  ⟨h'.numZones.trans h.numZones, h'.biggest.trans h.biggest, h'.used.trans h.used,
    fun z => (h'.layout z).trans (h.layout z)⟩

theorem setZone {z : Nat} {zone : MemoryZone}
    (h : zone.toZoneLayout = (st.zones z).toZoneLayout) : SameLayout st (st.setZone z zone) := by
  refine ⟨rfl, rfl, rfl, fun y => ?_⟩
  rw [AllocState.setZone_zones]
  split_ifs with hy
  · rw [h, hy]
  · rfl

theorem mapsApart (h : SameLayout st st') (hm : st.MapsApart) : st'.MapsApart := by
  constructor
  · simpa only [h.numZones, h.layout] using hm.shift
  · simpa only [h.numZones, h.layout] using hm.apart

theorem getZoneAndPfnFromPage (h : SameLayout st st') (p : Nat) :
    getZoneAndPfnFromPage st' p = PageAlloc.getZoneAndPfnFromPage st p := by
  simp only [PageAlloc.getZoneAndPfnFromPage, h.numZones, h.layout]

end SameLayout

theorem toggleBitPage_pageAddr {st : AllocState} {z i o : Nat} (hm : st.MapsApart)
    (hz : z < st.numZones) (hi : i < (st.zones z).usableNumPages) :
    toggleBitPage st ((st.zones z).pageAddr i) o =
      (toggleBitPfnZone i (st.zones z) o).map fun r => (r.1, st.setZone z r.2) := by
  simp only [toggleBitPage, hm.getZoneAndPfnFromPage_pageAddr hz hi, Option.bind_eq_bind,
    Option.bind_some]
  cases toggleBitPfnZone i (st.zones z) o <;> rfl

/-! ### Allocation -/

/-- Only the links and the bitmap words of the zone may differ. -/
def MemoryZone.OnlyLists (zone zone' : MemoryZone) : Prop :=
  zone' = { zone with links := zone'.links, words := zone'.words }

theorem MemoryZone.OnlyLists.layout {zone zone' : MemoryZone} (h : zone.OnlyLists zone') :
    zone'.toZoneLayout = zone.toZoneLayout := by rw [h]

/-- Only the links, the bitmap words and the counter of the zone may differ. -/
def MemoryZone.OnlyStore (zone zone' : MemoryZone) : Prop :=
  zone' = { zone with
    links := zone'.links, words := zone'.words, availablePages := zone'.availablePages }

theorem MemoryZone.OnlyStore.layout {zone zone' : MemoryZone} (h : zone.OnlyStore zone') :
    zone'.toZoneLayout = zone.toZoneLayout := by rw [h]

theorem not_mem_of_live {top size : Nat} {S : Buddy.State} {live : List Block} {b : Block} {i : Nat}
    (ht : Tiled top size S live) (hb : b ∈ live) (hi : b.Mem i) {o : Nat} (ho : o ≤ top) :
    i ∉ S.free o := fun hm =>
  ht.free_live_disjoint (Buddy.mem_blocks.mpr ⟨Nat.lt_succ_of_le ho, hm⟩ : (⟨i, o⟩ : Block) ∈ _)
    hb i ⟨Block.mem_start _, hi⟩

section alloc
variable {st : AllocState} {z : Nat} {S : Buddy.State} {live : List Block}

/-- What one zone must satisfy for the allocator's recursions to stay inside it. -/
structure ZoneReady (st : AllocState) (z : Nat) : Prop where
  mapsApart : st.MapsApart
  zone_lt : z < st.numZones
  bitmapsFit : (st.zones z).BitmapsFit
  maxOrder_le : (st.zones z).maxOrder ≤ maxPgOrder

theorem ZoneReady.setZone (h : ZoneReady st z) {zone : MemoryZone}
    (hl : zone.toZoneLayout = (st.zones z).toZoneLayout) : ZoneReady (st.setZone z zone) z := by
  have hsame := SameLayout.setZone hl
  refine ⟨hsame.mapsApart h.mapsApart, h.zone_lt, ?_, ?_⟩
  · rw [hsame.layout z]; exact h.bitmapsFit
  · rw [hsame.layout z]; exact h.maxOrder_le

theorem AllocState.MapsApart.toggle_eq (h : st.MapsApart) (hz : z < st.numZones) (zone : MemoryZone)
    (hl : zone.toZoneLayout = (st.zones z).toZoneLayout) {i o : Nat}
    (hi : i < (st.zones z).usableNumPages) :
    toggleBitPage (st.setZone z zone) ((st.zones z).pageAddr i) o =
      (toggleBitPfnZone i zone o).map fun r => (r.1, st.setZone z r.2) := by
  have hzone : (st.setZone z zone).zones z = zone := by simp
  have hi' : i < ((st.setZone z zone).zones z).usableNumPages := by
    rw [hzone, hl]
    exact hi
  have htog := toggleBitPage_pageAddr (o := o) ((SameLayout.setZone hl).mapsApart h) hz hi'
  rw [hzone, hl] at htog
  rw [htog]
  simp only [AllocState.setZone_setZone]

/-- The toggle at the end of both branches of `__alloc_from_zone`. -/
theorem AllocState.MapsApart.toggle (h : st.MapsApart) (hz : z < st.numZones) (zone : MemoryZone)
    (hl : zone.toZoneLayout = (st.zones z).toZoneLayout) {i o : Nat}
    (hi : i < (st.zones z).usableNumPages) (hfit : (st.zones z).ToggleFits i o) :
    ∃ bit, toggleBitPage (st.setZone z zone) ((st.zones z).pageAddr i) o =
      some (bit, st.setZone z { zone with words := toggledWords zone.words o (pairOf i o) }) := by
  have hfit' : zone.ToggleFits i o := by
    rw [hl]
    exact hfit
  exact ⟨_, by rw [h.toggle_eq hz zone hl hi, toggleBitPfnZone_fits hfit', Option.map_some]⟩

theorem AllocState.MapsApart.toggle_none (h : st.MapsApart) (hz : z < st.numZones) (zone : MemoryZone)
    (hl : zone.toZoneLayout = (st.zones z).toZoneLayout) {i o : Nat}
    (hi : i < (st.zones z).usableNumPages) (hfit : ¬ (st.zones z).ToggleFits i o) :
    toggleBitPage (st.setZone z zone) ((st.zones z).pageAddr i) o = none := by
  have hfit' : ¬ zone.ToggleFits i o := by
    rw [hl]
    exact hfit
  rw [h.toggle_eq hz zone hl hi, toggleBitPfnZone_not_fits hfit', Option.map_none]

/-- The upper half of a block in use goes to an empty list. -/
theorem Rep.add_upper {zone : MemoryZone} (h : Rep zone S) {b order : Nat}
    (ht : Tiled zone.maxOrder zone.usableNumPages S (⟨b, order + 1⟩ :: live)) (ho : order ≤ zone.maxOrder)
    (hempty : S.free order = []) :
    Rep (zone.setLinks (listAddTail zone.links (.area order) (.page (b + 2 ^ order))))
      (S.setFree order [b + 2 ^ order]) := by
  have hbmem : (⟨b, order + 1⟩ : Block) ∈ (⟨b, order + 1⟩ : Block) :: live := by simp
  have hend := ht.live_end_le hbmem
  have hpow : 2 ^ (order + 1) = 2 ^ order + 2 ^ order := by rw [pow_succ]; omega
  have hpos := Nat.two_pow_pos order
  simp only at hend
  refine (h.add_only ht ho (by omega) hempty fun o' ho' => ?_).1
  refine not_mem_of_live ht hbmem ⟨by simp, ?_⟩ ho'
  simp only
  omega

/-- The toggles that are made when page `pfn` is taken from the list of order `o`. -/
def ZoneLayout.TogglesFit (zone : ZoneLayout) (pfn order o : Nat) : Prop :=
  ∀ k, order ≤ k → k ≤ o → k < zone.maxOrder → zone.ToggleFits pfn k

theorem allocFromZone_first (hm : st.MapsApart) (hz : z < st.numZones) (hr : Rep (st.zones z) S)
    (ht : Tiled (st.zones z).maxOrder (st.zones z).usableNumPages S live) {order b : Nat} {t : List Nat}
    (ho : order ≤ (st.zones z).maxOrder) (hfree : S.free order = b :: t) (fuel : Nat) :
    ((st.zones z).TogglesFit b order order ∧ ∃ zone S',
        allocFromZone (fuel + 1) st z order = some (some b, st.setZone z zone) ∧
        Take (st.zones z).maxOrder order S b S' ∧ Rep zone S' ∧ (st.zones z).OnlyLists zone) ∨
      (¬ (st.zones z).TogglesFit b order order ∧ allocFromZone (fuel + 1) st z order = none) := by
  have hring := hr.ring order ho
  rw [hfree] at hring
  have hnonempty : listEmpty (st.zones z).links (.area order) = false := by
    rw [← Bool.not_eq_true, listEmpty_iff hring]
    simp
  have hnext : (st.zones z).links.next (.area order) = .page b := hring.next_head
  have hmem : b ∈ S.free order := by simp [hfree]
  have hdel := hr.del ht ho hmem
  have herase : (S.free order).erase b = t := by rw [hfree, List.erase_cons_head]
  rw [herase] at hdel
  have hlt : b < (st.zones z).usableNumPages := by
    have := ht.free_end_le ho hmem
    have := Nat.two_pow_pos order
    omega
  by_cases htop : order = (st.zones z).maxOrder
  · left
    refine ⟨fun k hk hle hk' => by omega, _, _, ?_, htop ▸ Take.top (htop ▸ hfree), hdel, rfl⟩
    simp only [allocFromZone, if_pos htop, hnonempty, Bool.false_eq_true, if_false, hnext, ZoneNode.pfn?]
    rfl
  · have hlt' : order < (st.zones z).maxOrder := by omega
    by_cases hfit : (st.zones z).ToggleFits b order
    · left
      obtain ⟨bit, htog⟩ := hm.toggle hz ((st.zones z).setLinks
        (listDelInit (st.zones z).links (.page b))) rfl hlt hfit
      refine ⟨fun k hk hle _ => ?_, _, _, ?_, Take.here hlt' hfree, hdel.toggle order (pairOf b order), rfl⟩
      · obtain rfl : k = order := by omega
        exact hfit
      · simp only [allocFromZone, if_neg htop, hnonempty, Bool.not_false, if_true, hnext,
          ZoneNode.pfn?, Option.bind_eq_bind, Option.bind_some, htog]
    · right
      have htog := hm.toggle_none hz ((st.zones z).setLinks
        (listDelInit (st.zones z).links (.page b))) rfl hlt hfit
      refine ⟨fun hall => hfit (hall order (Nat.le_refl _) (Nat.le_refl _) hlt'), ?_⟩
      simp only [allocFromZone, if_neg htop, hnonempty, Bool.not_false, if_true, hnext,
        ZoneNode.pfn?, Option.bind_eq_bind, Option.bind_some, htog, Option.bind_none]

/-- A block from a larger order is split: its upper half goes to the empty list of this order. -/
theorem allocFromZone_split (hm : st.MapsApart) (hz : z < st.numZones)
    (ht : Tiled (st.zones z).maxOrder (st.zones z).usableNumPages S live) {fuel order o b : Nat}
    (hlt : order < (st.zones z).maxOrder) (hle : order < o)
    (hempty : listEmpty (st.zones z).links (.area order) = true) (hfree : S.free order = [])
    (hfits : (st.zones z).TogglesFit b (order + 1) o) {zone : MemoryZone} {S' : Buddy.State}
    (hcall : allocFromZone fuel st z (order + 1) = some (some b, st.setZone z zone))
    (htake : Take (st.zones z).maxOrder (order + 1) S b S') (hrep : Rep zone S')
    (honly : (st.zones z).OnlyLists zone) :
    ((st.zones z).TogglesFit b order o ∧ ∃ zone S',
        allocFromZone (fuel + 1) st z order = some (some b, st.setZone z zone) ∧
        Take (st.zones z).maxOrder order S b S' ∧ Rep zone S' ∧ (st.zones z).OnlyLists zone) ∨
      (¬ (st.zones z).TogglesFit b order o ∧ allocFromZone (fuel + 1) st z order = none) := by
  have htop : order ≠ (st.zones z).maxOrder := Nat.ne_of_lt hlt
  have ht' := htake.tiled ht
  have hl := honly.layout
  have hempty' : S'.free order = [] := by
    rw [htake.free_below (Nat.lt_succ_self order), hfree]
  have hblt : b < (st.zones z).usableNumPages :=
    ht'.mem_lt (List.mem_append_right _ List.mem_cons_self) (Block.mem_start _)
  have hadd := hrep.add_upper (by rw [hl]; exact ht') (by rw [hl]; exact Nat.le_of_lt hlt) hempty'
  by_cases hfit : (st.zones z).ToggleFits b order
  · left
    obtain ⟨bit, htog⟩ := hm.toggle hz (zone.setLinks
      (listAddTail zone.links (.area order) (.page (b + 2 ^ order)))) hl hblt hfit
    simp only [ZoneLayout.pageAddr] at htog
    refine ⟨fun k hk hko hkm => ?_, _, _, ?_, Take.split hlt hfree htake,
      hadd.toggle order (pairOf b order), ?_⟩
    · rcases Nat.lt_or_eq_of_le hk with hlt' | rfl
      · exact hfits k hlt' hko hkm
      · exact hfit
    · simp only [allocFromZone, if_neg htop, hempty, Bool.not_true, Bool.false_eq_true,
        if_false, hcall, Option.bind_eq_bind, Option.bind_some, if_true,
        AllocState.setZone_zones, AllocState.setZone_setZone, ZoneLayout.pageAddr, hl, htog]
    · rw [honly]
      rfl
  · right
    have htog := hm.toggle_none hz (zone.setLinks
      (listAddTail zone.links (.area order) (.page (b + 2 ^ order)))) hl hblt hfit
    simp only [ZoneLayout.pageAddr] at htog
    refine ⟨fun hall => hfit (hall order (Nat.le_refl _) (Nat.le_of_lt hle) hlt), ?_⟩
    simp only [allocFromZone, if_neg htop, hempty, Bool.not_true, Bool.false_eq_true,
      if_false, hcall, Option.bind_eq_bind, Option.bind_some, if_true,
      AllocState.setZone_zones, AllocState.setZone_setZone, ZoneLayout.pageAddr, hl,
      htog, Option.bind_none]

/-- `__alloc_from_zone` finds nothing only where every list from the requested order on is empty,
and then it changes nothing; else it refines `Buddy.Take`, as long as the bitmaps have the words
for its toggles. -/
theorem allocFromZone_runs (hm : st.MapsApart) (hz : z < st.numZones) (hr : Rep (st.zones z) S)
    (ht : Tiled (st.zones z).maxOrder (st.zones z).usableNumPages S live) {fuel order : Nat}
    (ho : order ≤ (st.zones z).maxOrder) (hfuel : (st.zones z).maxOrder - order < fuel) :
    (allocFromZone fuel st z order = some (none, st) ∧
        ∀ o, order ≤ o → o ≤ (st.zones z).maxOrder → S.free o = []) ∨
      ∃ o b t, order ≤ o ∧ o ≤ (st.zones z).maxOrder ∧ (∀ k, order ≤ k → k < o → S.free k = []) ∧
        S.free o = b :: t ∧
        (((st.zones z).TogglesFit b order o ∧ ∃ zone S',
            allocFromZone fuel st z order = some (some b, st.setZone z zone) ∧
            Take (st.zones z).maxOrder order S b S' ∧ Rep zone S' ∧ (st.zones z).OnlyLists zone) ∨
          (¬ (st.zones z).TogglesFit b order o ∧ allocFromZone fuel st z order = none)) := by
  induction fuel generalizing order with
  | zero => omega
  | succ fuel ih =>
      have hring := hr.ring order ho
      cases hfree : S.free order with
      | cons b t =>
          right
          exact ⟨order, b, t, Nat.le_refl _, ho, fun k hk hlt => by omega, hfree,
            allocFromZone_first hm hz hr ht ho hfree fuel⟩
      | nil =>
          rw [hfree] at hring
          have hempty : listEmpty (st.zones z).links (.area order) = true :=
            (listEmpty_iff hring).mpr rfl
          by_cases htop : order = (st.zones z).maxOrder
          · left
            refine ⟨by simp [allocFromZone, if_pos htop, hempty], fun o hle hge => ?_⟩
            obtain rfl : o = order := by omega
            exact hfree
          · have hlt : order < (st.zones z).maxOrder := by omega
            rcases @ih (order + 1) hlt (by omega) with ⟨hnone, hall⟩ | ⟨o, b, t, hle, hmax, hbelow, hfirst, hcase⟩
            · left
              refine ⟨?_, fun o hle hge => ?_⟩
              · simp only [allocFromZone, if_neg htop, hempty, Bool.not_true, Bool.false_eq_true,
                  if_false, hnone, Option.bind_eq_bind, Option.bind_some]
              rcases Nat.lt_or_eq_of_le hle with hlt' | rfl
              · exact hall o hlt' hge
              · exact hfree
            · right
              refine ⟨o, b, t, by omega, hmax, fun k hk hko => ?_, hfirst, ?_⟩
              · rcases Nat.lt_or_eq_of_le hk with hlt' | rfl
                · exact hbelow k hlt' hko
                · exact hfree
              rcases hcase with ⟨hfits, zone, S', hcall, htake, hrep, honly⟩ | ⟨hnot, hcall⟩
              · exact allocFromZone_split hm hz ht hlt hle hempty hfree hfits hcall htake hrep honly
              · right
                refine ⟨fun hall => hnot fun k hk hko hkm => hall k (by omega) hko hkm, ?_⟩
                simp only [allocFromZone, if_neg htop, hempty, Bool.not_true, Bool.false_eq_true,
                  if_false, hcall, Option.bind_eq_bind, Option.bind_none]

/-- With a bit for every pair `__alloc_from_zone` refines `Buddy.Take`. -/
theorem allocFromZone_spec (hready : ZoneReady st z) (hr : Rep (st.zones z) S)
    (ht : Tiled (st.zones z).maxOrder (st.zones z).usableNumPages S live) {fuel order : Nat}
    (ho : order ≤ (st.zones z).maxOrder) (hfuel : (st.zones z).maxOrder - order < fuel) :
    (allocFromZone fuel st z order = some (none, st) ∧
        ∀ o, order ≤ o → o ≤ (st.zones z).maxOrder → S.free o = []) ∨
      ∃ b zone S', allocFromZone fuel st z order = some (some b, st.setZone z zone) ∧
        Take (st.zones z).maxOrder order S b S' ∧ Rep zone S' ∧ (st.zones z).OnlyLists zone := by
  rcases allocFromZone_runs hready.mapsApart hready.zone_lt hr ht ho hfuel with
    hnone | ⟨o, b, t, hle, hmax, -, hfirst, hcase⟩
  · exact .inl hnone
  · right
    have hblt : b < (st.zones z).usableNumPages := by
      have hend := ht.free_end_le hmax (by rw [hfirst]; exact List.mem_cons_self)
      have hpos := Nat.two_pow_pos o
      omega
    have hfits : (st.zones z).TogglesFit b order o := by
      intro k _ _ hk
      have hten := hready.maxOrder_le
      exact hready.bitmapsFit.toggleFits (Nat.le_of_lt hk) (by omega) hblt
    obtain ⟨-, zone, S', hcall⟩ := hcase.resolve_right fun hnot => hnot.1 hfits
    exact ⟨b, zone, S', hcall⟩

end alloc

/-! ### Release -/

/-- When `free_pages` does what it should. Its bitmap must exist; a block that does not
merge must meet an empty list, since `list_add` is called with its arguments swapped;
and a block that merges must belong to the first pair of its order, since the index of
the lower sibling is computed as the index of the pair. -/
def FreeSafe (maxOrder : Nat) (S : Buddy.State) : Nat → Nat → Nat → Prop
  | 0, _, _ => False
  | fuel + 1, pfn, order => order < maxPgOrder ∧
      if S.bit order (pairOf pfn order) then
        order < maxOrder ∧ pfn < 2 ^ (order + 1) ∧ sibling pfn order ∈ S.free order ∧
          FreeSafe maxOrder S fuel 0 (order + 1)
      else S.free order = []

instance FreeSafe.decidable (maxOrder : Nat) (S : Buddy.State) :
    ∀ fuel pfn order, Decidable (FreeSafe maxOrder S fuel pfn order)
  | 0, _, _ => inferInstanceAs (Decidable False)
  | fuel + 1, _, order =>
      have := FreeSafe.decidable maxOrder S fuel 0 (order + 1)
      inferInstanceAs (Decidable (_ ∧ ite _ _ _))

theorem FreeSafe.congr {maxOrder : Nat} {S S' : Buddy.State} {fuel pfn order : Nat}
    (h : FreeSafe maxOrder S fuel pfn order)
    (hsame : ∀ o, order ≤ o → S'.free o = S.free o ∧ S'.bit o = S.bit o) :
    FreeSafe maxOrder S' fuel pfn order := by
  induction fuel generalizing pfn order with
  | zero => exact h
  | succ fuel ih =>
      obtain ⟨hfree, hbit⟩ := hsame order (Nat.le_refl order)
      obtain ⟨hmax, hcase⟩ := h
      refine ⟨hmax, ?_⟩
      rw [hfree, hbit]
      split_ifs at hcase ⊢
      · obtain ⟨h1, h2, h3, h4⟩ := hcase
        exact ⟨h1, h2, h3, ih h4 fun o ho => hsame o (Nat.le_of_succ_le ho)⟩
      · exact hcase

section free
variable {zone : MemoryZone} {S : Buddy.State} {live : List Block}

/-- The two deletions before a merge remove the sibling and pass over the freed page,
which is on no list. -/
theorem Rep.del_pair (h : Rep zone S) {pfn o : Nat}
    (ht : Tiled zone.maxOrder zone.usableNumPages S (⟨pfn, o⟩ :: live)) (ho : o ≤ zone.maxOrder)
    (hsib : sibling pfn o ∈ S.free o) :
    Rep (zone.setLinks (listDelInit (listDelInit zone.links (.page (lower pfn o)))
      (.page (lower pfn o + 2 ^ o)))) (S.setFree o ((S.free o).erase (sibling pfn o))) := by
  have hal : 2 ^ o ∣ pfn := ht.live_aligned ⟨pfn, o⟩ (by simp)
  have hmem : (⟨pfn, o⟩ : Block) ∈ (⟨pfn, o⟩ : Block) :: live := by simp
  have hlt : pfn < zone.usableNumPages := ht.mem_lt (List.mem_append_right _ hmem) (Block.mem_start _)
  have hout : ∀ o' ≤ zone.maxOrder, pfn ∉ S.free o' := fun o' ho' => ht.not_mem_free hmem ho'
  have hdel := h.del ht ho hsib
  by_cases hlow : pfn = lower pfn o
  · have hs : sibling pfn o = lower pfn o + 2 ^ o := by rw [sibling, if_pos hlow, ← hlow]
    have hskip : listDelInit zone.links (.page (lower pfn o)) = zone.links :=
      listDelInit_selfLinked (hlow ▸ h.idle pfn hlt hout)
    rw [hskip, ← hs]
    exact hdel
  · have hs : sibling pfn o = lower pfn o := by rw [sibling, if_neg hlow]
    have hup := (Buddy.eq_lower_or_upper hal).resolve_left hlow
    have hidle := hdel.idle pfn hlt fun o' ho' hm => by
      rw [Buddy.State.setFree_free] at hm
      split_ifs at hm
      · exact hout o ho (List.mem_of_mem_erase hm)
      · exact hout o' ho' hm
    rw [← hup, ← hs]
    rw [show listDelInit (listDelInit zone.links (.page (sibling pfn o))) (.page pfn) =
      listDelInit zone.links (.page (sibling pfn o)) from listDelInit_selfLinked hidle]
    exact hdel

theorem Rep.setAvailable (h : Rep zone S) (n : Nat) : Rep { zone with availablePages := n } S :=
  ⟨h.ring, h.idle, h.above, h.bit⟩

end free

/-- The upper half of a pair whose other half is free lies in the zone. -/
theorem upper_lt_of_sibling {zone : MemoryZone} {S : Buddy.State} {live : List Block} {pfn order : Nat}
    (ht : Tiled zone.maxOrder zone.usableNumPages S (⟨pfn, order⟩ :: live)) (ho : order ≤ zone.maxOrder)
    (hsib : sibling pfn order ∈ S.free order) : lower pfn order + 2 ^ order < zone.usableNumPages := by
  have hmem : (⟨pfn, order⟩ : Block) ∈ (⟨pfn, order⟩ : Block) :: live := by simp
  have hal : 2 ^ order ∣ pfn := ht.live_aligned ⟨pfn, order⟩ hmem
  rcases Buddy.eq_lower_or_upper hal with hl | hu
  · have hend := ht.free_end_le ho hsib
    rw [sibling, if_pos hl] at hend
    have := Nat.two_pow_pos order
    omega
  · rw [← hu]
    exact ht.mem_lt (List.mem_append_right _ hmem) (Block.mem_start _)

/-- The zone once its pages are counted and the bit of the pair is toggled. -/
def MemoryZone.freed (zone : MemoryZone) (pfn order : Nat) : MemoryZone :=
  { zone with
    availablePages := (zone.availablePages + 2 ^ order) % 2 ^ 64
    words := toggledWords zone.words order (pairOf pfn order) }

section freeStep
variable {st : AllocState} {z fuel pfn order : Nat} {S : Buddy.State} {live : List Block}

theorem toggle_counted (hready : ZoneReady st z) (hr : Rep (st.zones z) S)
    (hlt : pfn < (st.zones z).usableNumPages) (ho : order ≤ (st.zones z).maxOrder) (hmax : order < maxPgOrder) :
    toggleBitPfnZone pfn { st.zones z with
      availablePages := ((st.zones z).availablePages + 2 ^ order) % 2 ^ 64 } order =
        some (!S.bit order (pairOf pfn order), (st.zones z).freed pfn order) := by
  rw [hr.bit]
  exact toggleBitPfnZone_spec hready.bitmapsFit ho hmax hlt

theorem freePages_rest (hready : ZoneReady st z) (hr : Rep (st.zones z) S)
    (ht : Tiled (st.zones z).maxOrder (st.zones z).usableNumPages S (⟨pfn, order⟩ :: live))
    (ho : order ≤ (st.zones z).maxOrder) (hmax : order < maxPgOrder)
    (hb : S.bit order (pairOf pfn order) = false) (hempty : S.free order = []) :
    ∃ zone, freePages (fuel + 1) st ((st.zones z).pageAddr pfn) order = some (st.setZone z zone) ∧
      Rep zone ((S.setFree order (pfn :: S.free order)).toggle order (pairOf pfn order)) ∧
      (st.zones z).OnlyStore zone ∧
      zone.availablePages = ((st.zones z).availablePages + 2 ^ order) % 2 ^ 64 := by
  have hmem : (⟨pfn, order⟩ : Block) ∈ (⟨pfn, order⟩ : Block) :: live := by simp
  have hlt : pfn < (st.zones z).usableNumPages := ht.mem_lt (List.mem_append_right _ hmem) (Block.mem_start _)
  have hal : 2 ^ order ∣ pfn := ht.live_aligned ⟨pfn, order⟩ hmem
  have hlook := hready.mapsApart.getZoneAndPfnFromPage_pageAddr hready.zone_lt hlt
  have hcounted := hr.setAvailable (((st.zones z).availablePages + 2 ^ order) % 2 ^ 64)
  have hadd := (hcounted.add_only ht ho hlt hempty fun o' ho' => ht.not_mem_free hmem ho').2
  refine ⟨((st.zones z).freed pfn order).setLinks
    (listAdd (st.zones z).links (.area order) (.page pfn)), ?_, ?_, rfl, rfl⟩
  · simp only [freePages, hlook, if_neg (Nat.not_lt.mpr ho), Nat.mod_eq_zero_of_dvd hal, ne_eq,
      not_true_eq_false, if_false]
    rw [toggle_counted hready hr hlt ho hmax, hb]
    rfl
  · rw [hempty]
    exact hadd.toggle order (pairOf pfn order)

/-- A merge frees the pair instead of the block. In the first pair of its order the index of the pair
is that of the lower sibling. -/
theorem freePages_merge (hready : ZoneReady st z) (hr : Rep (st.zones z) S)
    (ht : Tiled (st.zones z).maxOrder (st.zones z).usableNumPages S (⟨pfn, order⟩ :: live))
    (ho : order ≤ (st.zones z).maxOrder) (hmax : order < maxPgOrder)
    (hb : S.bit order (pairOf pfn order) = true) (hfirst : pfn < 2 ^ (order + 1))
    (hsib : sibling pfn order ∈ S.free order) :
    ∃ zone, freePages (fuel + 1) st ((st.zones z).pageAddr pfn) order =
        freePages fuel (st.setZone z zone) (zone.pageAddr (lower pfn order)) (order + 1) ∧
      Rep zone ((S.setFree order ((S.free order).erase (sibling pfn order))).toggle order
        (pairOf pfn order)) ∧
      (st.zones z).OnlyStore zone := by
  have hmem : (⟨pfn, order⟩ : Block) ∈ (⟨pfn, order⟩ : Block) :: live := by simp
  have hlt : pfn < (st.zones z).usableNumPages := ht.mem_lt (List.mem_append_right _ hmem) (Block.mem_start _)
  have hal : 2 ^ order ∣ pfn := ht.live_aligned ⟨pfn, order⟩ hmem
  have hlook := hready.mapsApart.getZoneAndPfnFromPage_pageAddr hready.zone_lt hlt
  have hpair : pairOf pfn order = 0 := Nat.div_eq_of_lt hfirst
  have hshift : pfn >>> (order + 1) = lower pfn order := by
    rw [lower, hpair, Nat.zero_mul, Nat.shiftRight_eq_div_pow]
    exact hpair
  have hupper : lower pfn order + 2 ^ order < ((st.zones z).freed pfn order).usableNumPages :=
    upper_lt_of_sibling ht ho hsib
  have hcounted := hr.setAvailable (((st.zones z).availablePages + 2 ^ order) % 2 ^ 64)
  refine ⟨((st.zones z).freed pfn order).setLinks (listDelInit
    (listDelInit (st.zones z).links (.page (lower pfn order))) (.page (lower pfn order + 2 ^ order))),
    ?_, (hcounted.del_pair ht ho hsib).toggle order (pairOf pfn order), rfl⟩
  simp only [freePages, hlook, if_neg (Nat.not_lt.mpr ho), Nat.mod_eq_zero_of_dvd hal, ne_eq,
    not_true_eq_false, if_false]
  rw [toggle_counted hready hr hlt ho hmax, hb]
  simp only [Option.bind_eq_bind, Option.bind_some, Bool.not_true, Bool.false_eq_true, if_false, hshift]
  rw [if_pos hupper]
  rfl

end freeStep

/-- `free_pages` refines `Buddy.Put` from every state that is safe for it. -/
theorem freePages_spec {st : AllocState} {z : Nat} {S : Buddy.State} {live : List Block}
    (hready : ZoneReady st z) (hr : Rep (st.zones z) S) {fuel pfn order : Nat}
    (ht : Tiled (st.zones z).maxOrder (st.zones z).usableNumPages S (⟨pfn, order⟩ :: live))
    (ho : order ≤ (st.zones z).maxOrder)
    (hsafe : FreeSafe (st.zones z).maxOrder S fuel pfn order) :
    ∃ zone S', freePages fuel st ((st.zones z).pageAddr pfn) order = some (st.setZone z zone) ∧
      Put (st.zones z).maxOrder order pfn S S' ∧ Rep zone S' ∧
      (st.zones z).OnlyStore zone ∧
      (S.bit order (pairOf pfn order) = false →
        zone.availablePages = ((st.zones z).availablePages + 2 ^ order) % 2 ^ 64) := by
  induction fuel generalizing st S pfn order with
  | zero => exact hsafe.elim
  | succ fuel ih =>
      obtain ⟨hmax, hcase⟩ := hsafe
      cases hb : S.bit order (pairOf pfn order) with
      | false =>
          rw [hb, if_neg Bool.false_ne_true] at hcase
          obtain ⟨zone, hcall, hrep, honly, hcount⟩ := freePages_rest hready hr ht ho hmax hb hcase
          exact ⟨zone, _, hcall, Put.rest ho hb, hrep, honly, fun _ => hcount⟩
      | true =>
          rw [hb, if_pos rfl] at hcase
          obtain ⟨htop, hfirst, hsib, hrest⟩ := hcase
          obtain ⟨zone₁, hcall₁, hrep₁, honly₁⟩ := freePages_merge hready hr ht ho hmax hb hfirst hsib
          have hzone : (st.setZone z zone₁).zones z = zone₁ := by simp
          have hlayout : ((st.setZone z zone₁).zones z).toZoneLayout = (st.zones z).toZoneLayout := by
            rw [hzone, honly₁.layout]
          have hlow : lower pfn order = 0 := by
            rw [lower, show pairOf pfn order = 0 from Nat.div_eq_of_lt hfirst, Nat.zero_mul]
          have ht₁ := ht.merge ho hsib (pairOf pfn order)
          have hsafe₁ : FreeSafe (st.zones z).maxOrder
              ((S.setFree order ((S.free order).erase (sibling pfn order))).toggle order
                (pairOf pfn order)) fuel (lower pfn order) (order + 1) := by
            rw [hlow]
            refine hrest.congr fun o hle => ?_
            have hne : o ≠ order := by omega
            exact ⟨by simp [hne], by funext k; simp [hne]⟩
          rw [← hlayout] at ht₁ hsafe₁
          obtain ⟨zone, S', hcall, hput, hrep, honly, -⟩ := ih (hready.setZone honly₁.layout)
            (by rwa [hzone]) ht₁ (by rw [hlayout]; exact htop) hsafe₁
          rw [hlayout] at hput
          refine ⟨zone, S', ?_, Put.merge htop hb hsib hput, hrep, ?_, by simp⟩
          · rw [hcall₁]
            simpa using hcall
          · rw [hzone] at honly
            rw [honly, honly₁]
            rfl

end Lucix.PageAlloc
