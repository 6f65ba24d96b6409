import Lucix.PageLists

/-! Whole histories of the page allocator: any sequence of allocations and
releases after `mem_init`. A release is sound when `free_pages` stays clear of
its defects; along runs of sound releases the free lists and the live blocks
tile every zone. -/
namespace Lucix.PageAlloc
open Ring Execution
open Buddy (Block Take Put Tiled Synced pairOf lower sibling)

inductive Call where
  | alloc (order : Nat)
  | free (p order : Nat)
  deriving DecidableEq, Repr

/-- The allocator together with the blocks its callers hold: the address of the first
page struct of each, and its order. -/
structure Sys where
  state : AllocState
  live : List (Nat × Nat)

/-- A recursion of `free_pages` visits at most the orders up to `MAX_PG_ORDER + 1`. -/
def freeFuel : Nat := numPgOrders + 1

def Sys.step (getPageVaddr : Nat → Nat) (s : Sys) : Call → Option Sys
  | .alloc order => (allocPages getPageVaddr s.state pgallocKernel order).map fun (p, st) =>
      ⟨st, (p, order) :: s.live⟩
  | .free p order => (freePages freeFuel s.state p order).map fun st =>
      ⟨st, s.live.erase (p, order)⟩

/-- The block of zone `z` that a live entry stands for. -/
def blockIn (st : AllocState) (z : Nat) (e : Nat × Nat) : Option Block :=
  match getZoneAndPfnFromPage st e.1 with
  | some (y, pfn) => if y = z then some ⟨pfn, e.2⟩ else none
  | none => none

def Sys.liveBlocks (s : Sys) (z : Nat) : List Block := s.live.filterMap (blockIn s.state z)

/-- Some zone that `alloc_pages` tries has a free block of the order or above. -/
def Room (st : AllocState) (order : Nat) : Prop :=
  ∃ z < st.numZones, eligible (st.zones z) pgallocKernel order = true ∧
    ∃ o ≤ (st.zones z).maxOrder, order ≤ o ∧ (st.zones z).freeList o ≠ []

/-- An allocation that can be served, or the release of a block with its own order. -/
def Legal (s : Sys) : Call → Prop
  | .alloc order => Room s.state order
  | .free p order => (p, order) ∈ s.live

/-- The release of a live block stays clear of the defects of `free_pages`. -/
def Sound (s : Sys) : Call → Prop
  | .alloc _ => True
  | .free p order => ∀ e ∈ getZoneAndPfnFromPage s.state p,
      FreeSafe (s.state.zones e.1).maxOrder (s.state.zones e.1).buddy freeFuel e.2 order

instance (st : AllocState) (order : Nat) : Decidable (Room st order) :=
  inferInstanceAs (Decidable (∃ z < st.numZones, _ ∧ ∃ o ≤ _, _))

instance (s : Sys) : (c : Call) → Decidable (Legal s c)
  | .alloc order => inferInstanceAs (Decidable (Room s.state order))
  | .free p order => inferInstanceAs (Decidable ((p, order) ∈ s.live))

instance (s : Sys) : (c : Call) → Decidable (Sound s c)
  | .alloc _ => isTrue trivial
  | .free p _ => inferInstanceAs (Decidable (∀ e ∈ getZoneAndPfnFromPage s.state p, _))

/-! ### What a run relies on -/

/-- The facts about the layout that make every step defined. They only mention fields
that no step changes. -/
structure Prepared (getPageVaddr : Nat → Nat) (st : AllocState) : Prop where
  mapsApart : st.MapsApart
  bitmapsFit : ∀ z < st.numZones, (st.zones z).BitmapsFit
  maxOrder_le : ∀ z < st.numZones, (st.zones z).maxOrder ≤ maxPgOrder
  clear : ∀ z < st.numZones, ∀ i o, i + 2 ^ o ≤ (st.zones z).usableNumPages →
    st.inMetadata (va2pa (getPageVaddr ((st.zones z).pageAddr i))) (pageSize * 2 ^ o) = false

theorem Prepared.same {v : Nat → Nat} {st st' : AllocState} (h : Prepared v st)
    (hs : SameLayout st st') : Prepared v st' := by
  refine ⟨hs.mapsApart h.mapsApart, fun z hz => ?_, fun z hz => ?_, fun z hz i o hio => ?_⟩
  · rw [hs.layout]; exact h.bitmapsFit z (hs.numZones ▸ hz)
  · rw [hs.layout]; exact h.maxOrder_le z (hs.numZones ▸ hz)
  · rw [hs.layout] at hio ⊢
    have := h.clear z (hs.numZones ▸ hz) i o hio
    simpa only [AllocState.inMetadata, hs.biggest, hs.used, hs.layout] using this

theorem Prepared.ready {v : Nat → Nat} {st : AllocState} (h : Prepared v st) {z : Nat}
    (hz : z < st.numZones) : ZoneReady st z :=
  ⟨h.mapsApart, hz, h.bitmapsFit z hz, h.maxOrder_le z hz⟩

/-- The free lists and the live blocks tile every zone. -/
structure Good (s : Sys) : Prop where
  rep : ∀ z < s.state.numZones, Rep (s.state.zones z) (s.state.zones z).buddy
  tiled : ∀ z < s.state.numZones, Tiled (s.state.zones z).maxOrder (s.state.zones z).usableNumPages
    (s.state.zones z).buddy (s.liveBlocks z)
  live : ∀ e ∈ s.live, ∃ z < s.state.numZones, ∃ i < (s.state.zones z).usableNumPages,
    e.1 = (s.state.zones z).pageAddr i ∧ e.2 ≤ (s.state.zones z).maxOrder

theorem blockIn_same {st st' : AllocState} (h : SameLayout st st') (z : Nat) :
    blockIn st' z = blockIn st z := by
  funext e
  simp only [blockIn, h.getZoneAndPfnFromPage]

theorem blockIn_pageAddr {st : AllocState} (hm : st.MapsApart) {y i : Nat} (hy : y < st.numZones)
    (hi : i < (st.zones y).usableNumPages) (z o : Nat) :
    blockIn st z ((st.zones y).pageAddr i, o) = if y = z then some ⟨i, o⟩ else none := by
  simp only [blockIn, hm.getZoneAndPfnFromPage_pageAddr hy hi]

/-- What a call does to the allocator: one zone gives up a block, or takes one back. -/
inductive Moves (s : Sys) : Call → AllocState → Prop
  | take {z b order : Nat} {zone : MemoryZone} : z < s.state.numZones →
      zone.toZoneLayout = (s.state.zones z).toZoneLayout →
      Take (s.state.zones z).maxOrder order (s.state.zones z).buddy b zone.buddy →
      2 ^ order ≤ (s.state.zones z).availablePages →
      zone.availablePages = (s.state.zones z).availablePages - 2 ^ order →
      Moves s (.alloc order) (s.state.setZone z zone)
  | put {z i p order : Nat} {zone : MemoryZone} {rest : List Block} : z < s.state.numZones →
      getZoneAndPfnFromPage s.state p = some (z, i) →
      zone.toZoneLayout = (s.state.zones z).toZoneLayout →
      Tiled (s.state.zones z).maxOrder (s.state.zones z).usableNumPages (s.state.zones z).buddy
        (⟨i, order⟩ :: rest) →
      Put (s.state.zones z).maxOrder order i (s.state.zones z).buddy zone.buddy →
      ((s.state.zones z).bit order (pairOf i order) = false →
        zone.availablePages = ((s.state.zones z).availablePages + 2 ^ order) % 2 ^ 64) →
      Moves s (.free p order) (s.state.setZone z zone)

theorem Moves.sameLayout {s : Sys} {c : Call} {st : AllocState} (h : Moves s c st) :
    SameLayout s.state st := by
  cases h with
  | take _ hl => exact SameLayout.setZone hl
  | put _ _ hl => exact SameLayout.setZone hl

section steps
variable {v : Nat → Nat} {s : Sys}

theorem Good.setZone (hg : Good s) {z : Nat} {S : Buddy.State} (zone : MemoryZone)
    (live : List (Nat × Nat)) (hl : zone.toZoneLayout = (s.state.zones z).toZoneLayout) (hrep : Rep zone S)
    (ht : Tiled (s.state.zones z).maxOrder (s.state.zones z).usableNumPages S
      (live.filterMap (blockIn s.state z)))
    (hother : ∀ y < s.state.numZones, y ≠ z →
      (s.liveBlocks y).Perm (live.filterMap (blockIn s.state y)))
    (hlive : ∀ e ∈ live, ∃ z < s.state.numZones, ∃ i < (s.state.zones z).usableNumPages,
      e.1 = (s.state.zones z).pageAddr i ∧ e.2 ≤ (s.state.zones z).maxOrder) :
    Good ⟨s.state.setZone z zone, live⟩ ∧ zone.buddy = S := by
  have hsame := SameLayout.setZone hl
  have htz : Tiled zone.maxOrder zone.usableNumPages S (live.filterMap (blockIn s.state z)) := by
    rw [hl]; exact ht
  have hbuddy := hrep.buddy_eq htz
  refine ⟨⟨fun y hy => ?_, fun y hy => ?_, fun e he => ?_⟩, hbuddy⟩
  · simp only [AllocState.setZone_zones]
    split_ifs with hyz
    · rw [hbuddy]; exact hrep
    · exact hg.rep y hy
  · simp only [Sys.liveBlocks, blockIn_same hsame, AllocState.setZone_zones]
    split_ifs with hyz
    · rw [hbuddy, hyz]; exact htz
    · exact (hg.tiled y hy).perm (hother y hy hyz)
  · obtain ⟨y, hy, i, hi, heq, ho⟩ := hlive e he
    exact ⟨y, hy, i, by simp only [hsame.layout]; exact hi, by simp only [hsame.layout]; exact heq,
      by simp only [hsame.layout]; exact ho⟩

/-- The zone loop of `alloc_pages` serves the request from the first zone that can; it finds
nothing only where no zone it tries has a block, and then it changes nothing. -/
theorem allocFromZones_spec (hp : Prepared v s.state) (hg : Good s) (order : Nat) {n k : Nat}
    (hnk : k + n = s.state.numZones) :
    (allocFromZones pgallocKernel order n k s.state = some (none, s.state) ∧
      ∀ z < s.state.numZones, k ≤ z → eligible (s.state.zones z) pgallocKernel order = true →
        ∀ o, order ≤ o → o ≤ (s.state.zones z).maxOrder → (s.state.zones z).freeList o = []) ∨
    ∃ z b zone S', z < s.state.numZones ∧
      eligible (s.state.zones z) pgallocKernel order = true ∧
      allocFromZones pgallocKernel order n k s.state = some (some (z, b), s.state.setZone z
        { zone with availablePages := (s.state.zones z).availablePages - 2 ^ order }) ∧
      Take (s.state.zones z).maxOrder order (s.state.zones z).buddy b S' ∧ Rep zone S' ∧
      (s.state.zones z).OnlyLists zone := by
  induction n generalizing k with
  | zero => exact .inl ⟨rfl, fun z hz hkz => by omega⟩
  | succ n ih =>
      have hk : k < s.state.numZones := by omega
      by_cases helig : eligible (s.state.zones k) pgallocKernel order = true
      · have ho : order ≤ (s.state.zones k).maxOrder := by
          simp only [eligible, Bool.and_eq_true, Bool.not_eq_true', decide_eq_false_iff_not,
            not_or, Nat.not_lt] at helig
          exact helig.2.1
        have hfuel : (s.state.zones k).maxOrder - order < numPgOrders := by
          have := hp.maxOrder_le k hk
          simp only [numPgOrders]
          omega
        rcases allocFromZone_spec (hp.ready hk) (hg.rep k hk) (hg.tiled k hk) ho hfuel with
          ⟨hnone, hempty⟩ | ⟨b, zone, S', hcall, htake, hrep, honly⟩
        · -- this zone has nothing to offer, so the loop goes on
          have hloop : allocFromZones pgallocKernel order (n + 1) k s.state =
              allocFromZones pgallocKernel order n (k + 1) s.state := by
            simp only [allocFromZones, if_pos helig, hnone, Option.bind_eq_bind, Option.bind_some]
          rw [hloop]
          refine (@ih (k + 1) (by omega)).imp_left fun h => ⟨h.1, ?_⟩
          intro z hz hkz hel
          rcases Nat.lt_or_eq_of_le hkz with hlt | rfl
          · exact h.2 z hz hlt hel
          · exact hempty
        · refine .inr ⟨k, b, zone, S', hk, helig, ?_, htake, hrep, honly⟩
          have havail : zone.availablePages = (s.state.zones k).availablePages := by rw [honly]
          simp only [allocFromZones, if_pos helig, hcall, Option.bind_eq_bind, Option.bind_some,
            AllocState.setZone_zones, if_true, AllocState.setZone_setZone, havail]
      · rw [allocFromZones, if_neg helig]
        refine (@ih (k + 1) (by omega)).imp_left fun h => ⟨h.1, ?_⟩
        intro z hz hkz hel
        rcases Nat.lt_or_eq_of_le hkz with hlt | rfl
        · exact h.2 z hz hlt hel
        · exact absurd hel helig

theorem alloc_fails (hp : Prepared v s.state) (hg : Good s) {order : Nat}
    (hroom : ¬ Room s.state order) : s.step v (.alloc order) = none := by
  rcases allocFromZones_spec hp hg order (Nat.zero_add s.state.numZones) with
    ⟨hcall, _⟩ | ⟨z, b, zone, S', hz, helig, _, htake, _⟩
  · simp only [Sys.step, allocPages, hcall, Option.bind_eq_bind, Option.bind_some, Option.map_none]
  · obtain ⟨o, ho, hle, hne⟩ := htake.exists_free
    exact absurd ⟨z, hz, helig, o, ho, hle, hne⟩ hroom

theorem alloc_step (hp : Prepared v s.state) (hg : Good s) {order : Nat}
    (hroom : Room s.state order) :
    ∃ t, s.step v (.alloc order) = some t ∧ Good t ∧ Moves s (.alloc order) t.state := by
  obtain ⟨z', hz', helig', o', ho', hle', hne'⟩ := hroom
  obtain ⟨z, b, zone, S', hz, helig, hcall, htake, hrep, honly⟩ :=
    (allocFromZones_spec hp hg order (Nat.zero_add s.state.numZones)).resolve_left fun h =>
      hne' (h.2 z' hz' (Nat.zero_le _) helig' o' hle' ho')
  have hl := honly.layout
  have ht := htake.tiled (hg.tiled z hz)
  have hend := ht.live_end_le (b := ⟨b, order⟩) (by simp)
  have hpos := Nat.two_pow_pos order
  have hb : b < (s.state.zones z).usableNumPages := by simp only at hend; omega
  have hclear := hp.clear z hz b order hend
  simp only [eligible, Bool.and_eq_true, Bool.not_eq_true', decide_eq_false_iff_not, not_or,
    Nat.not_lt] at helig
  let final : MemoryZone := { zone with
    availablePages := (s.state.zones z).availablePages - 2 ^ order
    pageRefcnt := Function.update zone.pageRefcnt b 0 }
  have hblock : ∀ y, blockIn s.state y ((s.state.zones z).pageAddr b, order) =
      if z = y then some ⟨b, order⟩ else none :=
    fun y => blockIn_pageAddr hp.mapsApart hz hb y order
  have hgood := hg.setZone final (((s.state.zones z).pageAddr b, order) :: s.live)
    hl (S := S') ⟨hrep.ring, hrep.idle, hrep.above, hrep.bit⟩
    (by simpa [hblock, Sys.liveBlocks] using ht)
    (fun y _ hyz => by simp [hblock, Ne.symm hyz, Sys.liveBlocks])
    (by
      intro e he
      rcases List.mem_cons.mp he with rfl | he
      · exact ⟨z, hz, b, hb, rfl, helig.2.1⟩
      · exact hg.live e he)
  refine ⟨_, ?_, hgood.1, .take hz hl (hgood.2 ▸ htake) helig.2.2 rfl⟩
  have haddr : zone.pageAddr b = (s.state.zones z).pageAddr b := by
    simp only [ZoneLayout.pageAddr, hl]
  have hmeta : (s.state.setZone z { zone with
      availablePages := (s.state.zones z).availablePages - 2 ^ order }).inMetadata
      (va2pa (v ((s.state.zones z).pageAddr b))) (pageSize * 2 ^ order) = false := by
    have hsame : SameLayout s.state (s.state.setZone z { zone with
      availablePages := (s.state.zones z).availablePages - 2 ^ order }) := SameLayout.setZone hl
    have := (hp.same hsame).clear z hz b order (by rw [hsame.layout]; exact hend)
    rwa [hsame.layout] at this
  simp only [Sys.step, allocPages, hcall, Option.bind_eq_bind, Option.bind_some,
    AllocState.setZone_zones, if_true, haddr, hmeta, Bool.false_eq_true, if_false,
    AllocState.setZone_setZone, Option.map_some]
  rfl

theorem free_step (hp : Prepared v s.state) (hg : Good s) {p order : Nat}
    (hmem : (p, order) ∈ s.live) (hsound : Sound s (.free p order)) :
    ∃ t, s.step v (.free p order) = some t ∧ Good t ∧ Moves s (.free p order) t.state := by
  obtain ⟨z, hz, i, hi, rfl, ho⟩ := hg.live _ hmem
  have hlook := hp.mapsApart.getZoneAndPfnFromPage_pageAddr hz hi
  have hsafe := hsound (z, i) hlook
  have hperm := List.perm_cons_erase hmem
  have hblock : ∀ y, blockIn s.state y ((s.state.zones z).pageAddr i, order) =
      if z = y then some ⟨i, order⟩ else none :=
    fun y => blockIn_pageAddr hp.mapsApart hz hi y order
  let rest := (s.live.erase ((s.state.zones z).pageAddr i, order)).filterMap (blockIn s.state z)
  have hpz : (s.liveBlocks z).Perm (⟨i, order⟩ :: rest) := by
    have := hperm.filterMap (blockIn s.state z)
    simpa [hblock, Sys.liveBlocks, rest] using this
  have ht := (hg.tiled z hz).perm hpz
  obtain ⟨zone, S', hcall, hput, hrep, honly, havail⟩ :=
    freePages_spec (hp.ready hz) (hg.rep z hz) ht ho hsafe
  have hgood := hg.setZone zone (s.live.erase ((s.state.zones z).pageAddr i, order))
    honly.layout hrep (hput.tiled ht)
    (fun y _ hyz => by
      have := hperm.filterMap (blockIn s.state y)
      simpa [hblock, Ne.symm hyz, Sys.liveBlocks] using this)
    (fun e he => hg.live e (List.mem_of_mem_erase he))
  refine ⟨_, ?_, hgood.1, .put hz hlook honly.layout ht (hgood.2 ▸ hput) havail⟩
  simp only [Sys.step, hcall, Option.map_some]

/-- The allocations that succeed are exactly the legal ones. -/
theorem alloc_isSome_iff (hp : Prepared v s.state) (hg : Good s) (order : Nat) :
    (s.step v (.alloc order)).isSome ↔ Legal s (.alloc order) := by
  constructor
  · intro h
    by_contra hroom
    rw [alloc_fails hp hg hroom] at h
    simp at h
  · intro hroom
    obtain ⟨t, ht, _⟩ := alloc_step hp hg hroom
    rw [ht]
    rfl

theorem step_moves (hp : Prepared v s.state) (hg : Good s) {c : Call} (hl : Legal s c)
    (hs : Sound s c) : ∃ t, s.step v c = some t ∧ Good t ∧ Moves s c t.state := by
  cases c with
  | alloc order => exact alloc_step hp hg hl
  | free p order => exact free_step hp hg hl hs

end steps

/-! ### Runs from `mem_init` -/

/-- A memory map whose bitmaps have a bit for every pair and whose page frames do not
overlap the metadata. -/
structure Suited (info : CpuMemoryInfo) (b : Nat) : Prop where
  bitmapsFit : ∀ z < info.numMemZones, ∀ o ≤ getMaxOrder (zonePages info b z % 2 ^ 32),
    o < maxPgOrder →
      wholeBlocks (zonePages info b z) ≤ 8 * bitmapSize (info.zones z).pages o * 2 ^ (o + 1)
  framesClear : ∀ z < info.numMemZones, ∀ i < wholeBlocks (zonePages info b z),
    frameOf info b z i + pageSize ≤ (info.zones b).physBase ∨
      (info.zones b).physBase + metadataBytes info b ≤ frameOf info b z i

/-- `get_page_vaddr` returns the address of the page's frame in the identity map. -/
def TranslatesFrames (getPageVaddr : Nat → Nat) (st : AllocState) : Prop :=
  ∀ z < st.numZones, ∀ i < (st.zones z).usableNumPages,
    getPhysAddrFromPage st ((st.zones z).pageAddr i) =
      some (va2pa (getPageVaddr ((st.zones z).pageAddr i)))

instance (v : Nat → Nat) (st : AllocState) : Decidable (TranslatesFrames v st) :=
  inferInstanceAs (Decidable (∀ z < st.numZones, ∀ i < _, _))

section init
variable {phys : PhysMem} {info : CpuMemoryInfo} {b : Nat} {start : Nat → Nat} {st : AllocState}

theorem Booted.physBase_biggest (h : Booted phys info b start st) :
    (st.zones st.biggestMappedIdx).physBase = (info.zones b).physBase := by
  rw [h.biggest, (h.placed b h.accepted.biggest.lt).physBase]
  rfl

/-- A block of pages with clear frames is clear: the metadata starts at a page boundary,
so an overlap would begin in one of the frames. -/
theorem Booted.block_clear (h : Booted phys info b start st) (hs : Suited info b) {z i o : Nat}
    (hz : z < info.numMemZones) (hio : i + 2 ^ o ≤ wholeBlocks (zonePages info b z)) :
    st.inMetadata (frameOf info b z i) (pageSize * 2 ^ o) = false := by
  have hpos := Nat.two_pow_pos o
  have hbase := (info.zones b).base_aligned
  have hused : memMapSize * wholeBlocks (zonePages info b z) ≤ metadataBytes info b := by
    have hin := h.inside z hz
    have := memMap_le_metaBytes (st.zones z).toZoneLayout
    rw [h.usable_eq hz] at this
    rw [h.used] at hin
    omega
  have hframe : ∀ k, frameOf info b z (i + k) = frameOf info b z i + k * pageSize := by
    intro k
    simp only [frameOf, pageSize]
    omega
  have hmod : frameOf info b z i % pageSize = 0 := by simp [frameOf]
  simp only [AllocState.inMetadata, h.physBase_biggest, h.used, decide_eq_false_iff_not]
  rintro ⟨hlt, hgt⟩
  rcases hs.framesClear z hz i (by omega) with hbelow | habove
  · obtain ⟨k, hk⟩ : ∃ k, (info.zones b).physBase = frameOf info b z i + k * pageSize := by
      refine ⟨((info.zones b).physBase - frameOf info b z i) / pageSize, ?_⟩
      simp only [pageSize] at *
      omega
    have hk' : k < 2 ^ o := by
      have : k * pageSize < 2 ^ o * pageSize := by rw [Nat.mul_comm (2 ^ o)]; omega
      exact Nat.lt_of_mul_lt_mul_right this
    have := hs.framesClear z hz (i + k) (by omega)
    rw [hframe, ← hk] at this
    simp only [pageSize, memMapSize] at this hused
    omega
  · omega

theorem Booted.prepared (h : Booted phys info b start st) (hs : Suited info b) {v : Nat → Nat}
    (hv : TranslatesFrames v st) : Prepared v st := by
  have hn := h.numZones
  have horder : ∀ z < st.numZones, (st.zones z).maxOrder = getMaxOrder (zonePages info b z % 2 ^ 32) :=
    fun z hz => (h.placed z (hn ▸ hz)).maxOrder
  refine ⟨h.mapsApart, fun z hz o ho hmax => ?_, fun z hz => ?_, fun z hz i o hio => ?_⟩
  · have hp := h.placed z (hn ▸ hz)
    have hsizes : (st.zones z).bitmapSizes = bitmapSize (info.zones z).pages := hp.bitmapSizes
    refine ⟨?_, ?_, ?_⟩
    · have hlow : (info.zones b).physBase < 2 ^ 47 := by
        have : (info.zones b).physBase + (info.zones b).length < 0x100000000 :=
          h.accepted.biggest.mapped
        omega
      have := pa2va_pos hlow
      rw [hp.map o ho hmax]
      omega
    · rw [hsizes]; exact bitmapSize_dvd _ _
    · rw [hsizes, h.usable_eq (hn ▸ hz)]
      exact hs.bitmapsFit z (hn ▸ hz) o (horder z hz ▸ ho) hmax
  · rw [horder z hz]; exact getMaxOrder_le _
  · have hpos := Nat.two_pow_pos o
    have hi : i < (st.zones z).usableNumPages := by omega
    have heq := (hv z hz i hi).symm.trans (h.frame_eq hz hi)
    rw [Option.some.inj heq]
    exact h.block_clear hs (hn ▸ hz) (h.usable_eq (hn ▸ hz) ▸ hio)

theorem Booted.dvd_usable (h : Booted phys info b start st) {z : Nat} (hz : z < st.numZones) :
    2 ^ (st.zones z).maxOrder ∣ (st.zones z).usableNumPages := by
  rw [(h.placed z (h.numZones ▸ hz)).usable, Nat.shiftLeft_eq]
  exact Dvd.intro_left _ rfl

/-- Every zone starts out with all of its pages on the list of its largest order. -/
theorem Booted.zone_rep (h : Booted phys info b start st) {z : Nat} (hz : z < st.numZones) :
    Rep (st.zones z) (initialStore (st.zones z)) ∧
      (st.zones z).buddy = initialStore (st.zones z) ∧
      (st.zones z).availablePages = (st.zones z).usableNumPages := by
  obtain ⟨zone, hidle, heq⟩ := h.opened z (h.numZones ▸ hz)
  have hrep : Rep (st.zones z) (initialStore (st.zones z)) := by
    rw [heq]
    exact openedZone_rep hidle
  refine ⟨hrep, hrep.buddy_eq (initialStore_tiled (h.dvd_usable hz)), ?_⟩
  rw [heq]
  rfl

theorem Booted.good (h : Booted phys info b start st) : Good ⟨st, []⟩ := by
  refine ⟨fun z hz => ?_, fun z hz => ?_, nofun⟩
  · obtain ⟨hrep, hbuddy, _⟩ := h.zone_rep hz
    rw [hbuddy]
    exact hrep
  · rw [(h.zone_rep hz).2.1]
    exact initialStore_tiled (h.dvd_usable hz)

end init

/-- A call that `free_pages` or `alloc_pages` handles as intended. -/
def Safe (s : Sys) (c : Call) : Prop := Legal s c ∧ Sound s c

instance (s : Sys) (c : Call) : Decidable (Safe s c) := inferInstanceAs (Decidable (_ ∧ _))

/-- Every run of safe calls is defined, and keeps what each single move keeps. -/
theorem run_keeps {v : Nat → Nat} {guard : Sys → Call → Prop} (Q : Sys → Prop)
    (hguard : ∀ s c, guard s c → Safe s c)
    (hmove : ∀ s c t, Good s → Q s → guard s c → Moves s c t.state → Q t)
    {s : Sys} {calls : List Call} (hp : Prepared v s.state) (hg : Good s) (hq : Q s)
    (hrun : Guarded (Sys.step v) guard s calls) :
    ∃ t, run (Sys.step v) s calls = some t ∧ SameLayout s.state t.state ∧ Good t ∧ Q t := by
  refine run_invariant (fun t => SameLayout s.state t.state ∧ Good t ∧ Q t) ?_
    ⟨SameLayout.refl _, hg, hq⟩ hrun
  rintro t c ⟨hsame, hgt, hqt⟩ hc
  obtain ⟨hlegal, hsound⟩ := hguard t c hc
  obtain ⟨u, hu, hgu, hmoves⟩ := step_moves (hp.same hsame) hgt hlegal hsound
  exact ⟨u, hu, hsame.trans hmoves.sameLayout, hgu, hmove t c u hgt hqt hc hmoves⟩

/-- The blocks in use and the free blocks partition the pages of each zone. -/
def Partitioned (s : Sys) : Prop :=
  ∀ z < s.state.numZones, Buddy.Partition (s.state.zones z).maxOrder
    (s.state.zones z).usableNumPages (s.state.zones z).freeList (s.liveBlocks z)

/-- Every run of safe calls keeps the pages of each zone partitioned. -/
theorem safe_run_partition (phys : PhysMem) (info : CpuMemoryInfo) (b : Nat)
    (hacc : Accepted info b) (hsuited : Suited info b) :
    ∃ st, memInit phys info = some st ∧ ∀ getPageVaddr, TranslatesFrames getPageVaddr st →
      ∀ calls, Guarded (Sys.step getPageVaddr) Safe ⟨st, []⟩ calls →
        ∃ s, run (Sys.step getPageVaddr) ⟨st, []⟩ calls = some s ∧ Partitioned s := by
  obtain ⟨st, start, hst, hboot⟩ := memInit_of_accepted phys hacc
  refine ⟨st, hst, fun v hv calls hrun => ?_⟩
  obtain ⟨s, hs, _, hgood, _⟩ := run_keeps (fun _ => True) (fun _ _ h => h)
    (fun _ _ _ _ _ _ _ => trivial) (hboot.prepared hsuited hv) hboot.good trivial hrun
  exact ⟨s, hs, fun z hz => (hgood.tiled z hz).partition⟩

/-! The sixteen pages from address zero on make a zone of eight usable pages behind one
page of metadata; its page structs start at the bottom of the identity map. -/

/-- The page struct of page `i` of that zone. -/
def pageAtZero (i : Nat) : Nat := identityBase + memMapSize * i

/-- `get_page_vaddr` for that zone. -/
def vaddrAtZero (p : Nat) : Nat := pa2va (((p - identityBase) / memMapSize + 1) * pageSize)

theorem accepted_singleZone {zone : MemZoneInfo} (hm : zone.Mapped)
    (hroom : maintenanceMemory (singleZone zone) ≤ zone.length) : Accepted (singleZone zone) 0 := by
  obtain ⟨b, hb⟩ := accepted_of_room (z := 0) (Nat.zero_lt_one : 0 < (singleZone zone).numMemZones) hm hroom zeroMem
  have hlt : b < 1 := hb.biggest.lt
  obtain rfl : b = 0 := by omega
  exact hb

theorem accepted_zoneAtZero : Accepted (singleZone zoneAtZero) 0 :=
  accepted_singleZone (by decide) (by decide +kernel)

theorem suited_zoneAtZero : Suited (singleZone zoneAtZero) 0 :=
  ⟨by decide +kernel, by decide +kernel⟩

/-- Two pages are taken and given back in the order in which every merge succeeds. -/
def merging : List Call :=
  [.alloc 0, .alloc 0, .free (pageAtZero 1) 0, .free (pageAtZero 0) 0]

theorem merging_safe {st : AllocState} (hst : memInit zeroMem (singleZone zoneAtZero) = some st) :
    TranslatesFrames vaddrAtZero st ∧
      Guarded (Sys.step vaddrAtZero) Safe ⟨st, []⟩ merging := by
  have h : (memInit zeroMem (singleZone zoneAtZero)).all (fun st =>
      decide (TranslatesFrames vaddrAtZero st ∧
        Guarded (Sys.step vaddrAtZero) Safe ⟨st, []⟩ merging)) = true := by decide +kernel
  rw [hst] at h
  exact of_decide_eq_true h

theorem safe_run_partition_merging :
    ∃ st s, memInit zeroMem (singleZone zoneAtZero) = some st ∧
      run (Sys.step vaddrAtZero) ⟨st, []⟩ merging = some s ∧ Partitioned s := by
  obtain ⟨st, hst, hall⟩ := safe_run_partition zeroMem (singleZone zoneAtZero) 0
    accepted_zoneAtZero suited_zoneAtZero
  obtain ⟨hv, hrun⟩ := merging_safe hst
  obtain ⟨s, hs, hp⟩ := hall vaddrAtZero hv merging hrun
  exact ⟨st, s, hst, hs, hp⟩

/-- Evaluating a legal run of the zone at address zero. -/
theorem exists_legal_run (phys : PhysMem) (calls : List Call) (bad : AllocState → Sys → Bool)
    (h : (memInit phys (singleZone zoneAtZero)).any (fun st =>
      decide (TranslatesFrames vaddrAtZero st ∧
        Guarded (Sys.step vaddrAtZero) Legal ⟨st, []⟩ calls) &&
      (run (Sys.step vaddrAtZero) ⟨st, []⟩ calls).all (bad st)) = true) :
    ∃ st, memInit phys (singleZone zoneAtZero) = some st ∧ TranslatesFrames vaddrAtZero st ∧
      Guarded (Sys.step vaddrAtZero) Legal ⟨st, []⟩ calls ∧
      ∀ s, run (Sys.step vaddrAtZero) ⟨st, []⟩ calls = some s → bad st s = true := by
  obtain ⟨st, hst, hb⟩ := (Option.any_eq_true _ _).mp h
  obtain ⟨hlegal, hall⟩ := Bool.and_eq_true_iff.mp hb
  obtain ⟨hv, hg⟩ := of_decide_eq_true hlegal
  refine ⟨st, hst, hv, hg, fun s hs => ?_⟩
  rwa [hs] at hall

/-- Four pages are taken and two that are not siblings given back: the second release
drops the first page from the list. -/
def dropping : List Call :=
  [.alloc 0, .alloc 0, .alloc 0, .alloc 0, .free (pageAtZero 0) 0, .free (pageAtZero 2) 0]

theorem legal_run_loses_page :
    ¬ ∀ (phys : PhysMem) (info : CpuMemoryInfo) (st : AllocState) (v : Nat → Nat),
      memInit phys info = some st → TranslatesFrames v st →
        ∀ calls, Guarded (Sys.step v) Legal ⟨st, []⟩ calls →
          ∃ s, run (Sys.step v) ⟨st, []⟩ calls = some s ∧ Partitioned s := by
  intro hall
  obtain ⟨st, hst, hv, hlegal, hbad⟩ := exists_legal_run zeroMem dropping
    (fun _ s => decide (0 < s.state.numZones ∧ 0 < (s.state.zones 0).usableNumPages ∧
      ¬ ∃ c ∈ Buddy.blocks (s.state.zones 0).freeList ((s.state.zones 0).maxOrder + 1) ++
        s.liveBlocks 0, c.Mem 0)) (by decide +kernel)
  obtain ⟨s, hs, hp⟩ := hall zeroMem (singleZone zoneAtZero) st vaddrAtZero hst hv dropping hlegal
  obtain ⟨hz, husable, hmissing⟩ := of_decide_eq_true (hbad s hs)
  exact hmissing ((hp 0 hz).complete 0 husable)

/-! ### The bitmaps along a run -/

/-- The bits of every zone agree with its free lists. -/
def AllSynced (st : AllocState) : Prop :=
  ∀ z < st.numZones, Synced (st.zones z).maxOrder (st.zones z).usableNumPages (st.zones z).buddy

theorem Moves.synced {s : Sys} {c : Call} {st : AllocState} (h : Moves s c st) (hg : Good s)
    (hs : AllSynced s.state) : AllSynced st := by
  have hlayout := h.sameLayout
  intro y hy
  rw [hlayout.layout y]
  rw [hlayout.numZones] at hy
  cases h with
  | @take z b order zone hz hl htake =>
      rw [AllocState.setZone_zones]
      split_ifs with hyz
      · rw [hyz]
        exact htake.synced (hg.tiled z hz) (hs z hz)
      · exact hs y hy
  | @put z i p order zone rest hz hlook hl ht hput =>
      rw [AllocState.setZone_zones]
      split_ifs with hyz
      · rw [hyz]
        exact hput.synced ht (hs z hz)
      · exact hs y hy

/-- The memory that the metadata is laid out in holds zeros before `mem_init`. -/
def Zeroed (phys : PhysMem) (info : CpuMemoryInfo) (b : Nat) : Prop :=
  ∀ a, (info.zones b).physBase ≤ a → a < (info.zones b).physBase + metadataBytes info b →
    phys.word a = 0#32

theorem Booted.allSynced {phys : PhysMem} {info : CpuMemoryInfo} {b : Nat} {start : Nat → Nat}
    {st : AllocState} (h : Booted phys info b start st) (hs : Suited info b)
    (hzero : Zeroed phys info b) : AllSynced st := by
  intro z hz
  have hz' := h.numZones ▸ hz
  have hp := h.placed z hz'
  rw [(h.zone_rep hz).2.1]
  refine Buddy.synced_of_clear (fun o ho => initialStore_other _ (Nat.ne_of_lt ho)) ?_
  intro o ho k hk
  -- the bit lies in a word of the bitmap, and that word was zero before
  have hmax : o < maxPgOrder := by
    have := getMaxOrder_le (zonePages info b z % 2 ^ 32)
    have : (st.zones z).maxOrder = getMaxOrder (zonePages info b z % 2 ^ 32) := hp.maxOrder
    omega
  have hsizes : (st.zones z).bitmapSizes = bitmapSize (info.zones z).pages := hp.bitmapSizes
  have hfit : k < 8 * (st.zones z).bitmapSizes o := by
    have hbits := hs.bitmapsFit z hz' o (hp.maxOrder ▸ Nat.le_of_lt ho) hmax
    rw [← h.usable_eq hz', ← hsizes] at hbits
    exact Nat.lt_of_mul_lt_mul_right (hk.trans_le hbits)
  have hword : 4 * (k / 32) < (st.zones z).bitmapSizes o := by
    obtain ⟨q, hq⟩ := bitmapSize_dvd (info.zones z).pages o
    rw [hsizes, hq] at hfit ⊢
    omega
  have horders : o < bitmapOrders (st.zones z).maxOrder := by
    rw [bitmapOrders]
    omega
  have haddr : va2pa ((st.zones z).map o) + 4 * (k / 32) =
      va2pa ((st.zones z).map o + 4 * (k / 32)) := by
    have h0 := h.va2pa_map hz' horders (Nat.zero_le _)
    rw [Nat.add_zero] at h0
    rw [h0, h.va2pa_map hz' horders (Nat.le_of_lt hword)]
    omega
  have hmeta := (h.metadata_iff _).mp
    ⟨z, hz, .inr ⟨o, horders, 4 * (k / 32), hword, rfl⟩⟩
  rw [h.used] at hmeta
  have hw : (st.zones z).words o (k / 32) = 0#32 := by
    rw [hp.words o (Nat.le_of_lt ho) hmax, haddr]
    exact hzero _ hmeta.1 hmeta.2
  simp [initialStore, MemoryZone.bit, hw]

/-- The bit of every sibling pair says that exactly one of the two is free, and so the
test of `free_pages` on a live block says whether its sibling is free. -/
structure BitsExact (s : Sys) (z : Nat) : Prop where
  bit_iff : ∀ o < (s.state.zones z).maxOrder, ∀ k,
    k * 2 ^ (o + 1) < (s.state.zones z).usableNumPages →
      ((s.state.zones z).bit o k = true ↔
        (k * 2 ^ (o + 1) ∈ (s.state.zones z).freeList o ↔
          k * 2 ^ (o + 1) + 2 ^ o ∉ (s.state.zones z).freeList o))
  merges_iff : ∀ c ∈ s.liveBlocks z, c.order < (s.state.zones z).maxOrder →
    ((toggleBitPfnZone c.start (s.state.zones z) c.order).map Prod.fst = some false ↔
      sibling c.start c.order ∈ (s.state.zones z).freeList c.order)

theorem Good.bitsExact {v : Nat → Nat} {s : Sys} (hp : Prepared v s.state) (hg : Good s)
    (hs : AllSynced s.state) {z : Nat} (hz : z < s.state.numZones) : BitsExact s z := by
  refine ⟨(hs z hz).bit_iff, fun c hc ho => ?_⟩
  have ht := hg.tiled z hz
  have hlt := ht.mem_lt (List.mem_append_right _ hc) c.mem_start
  have hout := ht.not_mem_free hc (Nat.le_of_lt ho)
  have hmax := hp.maxOrder_le z hz
  rw [toggleBitPfnZone_spec (hp.bitmapsFit z hz) (Nat.le_of_lt ho) (by omega) hlt]
  have hbit := (hs z hz).bit_iff_sibling ho (ht.live_aligned c hc) hlt hout
  simpa [MemoryZone.buddy] using hbit

/-- In every run of safe calls over zeroed metadata memory the bitmaps are exact. -/
theorem safe_run_bits_exact (phys : PhysMem) (info : CpuMemoryInfo) (b : Nat)
    (hacc : Accepted info b) (hsuited : Suited info b) (hzero : Zeroed phys info b) :
    ∃ st, memInit phys info = some st ∧ ∀ getPageVaddr, TranslatesFrames getPageVaddr st →
      ∀ calls, Guarded (Sys.step getPageVaddr) Safe ⟨st, []⟩ calls →
        ∃ s, run (Sys.step getPageVaddr) ⟨st, []⟩ calls = some s ∧
          ∀ z < s.state.numZones, BitsExact s z := by
  obtain ⟨st, start, hst, hboot⟩ := memInit_of_accepted phys hacc
  refine ⟨st, hst, fun v hv calls hrun => ?_⟩
  have hp := hboot.prepared hsuited hv
  obtain ⟨s, hs, hsame, hgood, hsync⟩ := run_keeps (fun t => AllSynced t.state) (fun _ _ h => h)
    (fun _ _ _ hg hq _ hm => hm.synced hg hq) hp hboot.good (hboot.allSynced hsuited hzero) hrun
  exact ⟨s, hs, fun z hz => hgood.bitsExact (hp.same hsame) hsync hz⟩

theorem safe_run_bits_exact_merging :
    ∃ st s, memInit zeroMem (singleZone zoneAtZero) = some st ∧
      run (Sys.step vaddrAtZero) ⟨st, []⟩ merging = some s ∧
      ∀ z < s.state.numZones, BitsExact s z := by
  obtain ⟨st, hst, hall⟩ := safe_run_bits_exact zeroMem (singleZone zoneAtZero) 0
    accepted_zoneAtZero suited_zoneAtZero fun _ _ _ => rfl
  obtain ⟨hv, hrun⟩ := merging_safe hst
  obtain ⟨s, hs, hexact⟩ := hall vaddrAtZero hv merging hrun
  exact ⟨st, s, hst, hs, hexact⟩

/-- Memory in which every bit is set. -/
def onesMem : PhysMem := { zeroMem with word := fun _ => BitVec.allOnes 32 }

/-- `mem_init` never clears the bitmaps, so they keep what memory held before. -/
theorem stale_bitmaps_not_exact :
    ¬ ∀ (phys : PhysMem) (info : CpuMemoryInfo) (st : AllocState) (v : Nat → Nat),
      memInit phys info = some st → TranslatesFrames v st →
        ∀ calls, Guarded (Sys.step v) Legal ⟨st, []⟩ calls →
          ∃ s, run (Sys.step v) ⟨st, []⟩ calls = some s ∧
            ∀ z < s.state.numZones, BitsExact s z := by
  intro hall
  obtain ⟨st, hst, hv, hlegal, hbad⟩ := exists_legal_run onesMem []
    (fun _ s => decide (0 < s.state.numZones ∧ 0 < (s.state.zones 0).maxOrder ∧
      0 < (s.state.zones 0).usableNumPages ∧ (s.state.zones 0).bit 0 0 = true ∧
      (s.state.zones 0).freeList 0 = [])) (by decide +kernel)
  obtain ⟨s, hs, hp⟩ := hall onesMem (singleZone zoneAtZero) st vaddrAtZero hst hv [] hlegal
  obtain ⟨hz, horder, husable, hbit, hempty⟩ := of_decide_eq_true (hbad s hs)
  have hexact := ((hp 0 hz).bit_iff 0 horder 0 (by simpa using husable)).mp hbit
  simp [hempty] at hexact

/-- The free lists hold the blocks that `mem_init` made, and no smaller ones. -/
def Restored (st : AllocState) (s : Sys) : Prop :=
  ∀ z < st.numZones, (∀ o < (st.zones z).maxOrder, (s.state.zones z).freeList o = []) ∧
    ∀ o i, i ∈ (s.state.zones z).freeList o ↔ i ∈ (st.zones z).freeList o

/-- When every block has come back, the free lists are those that `mem_init` made. -/
theorem safe_run_free_undoes_alloc (phys : PhysMem) (info : CpuMemoryInfo) (b : Nat)
    (hacc : Accepted info b) (hsuited : Suited info b) (hzero : Zeroed phys info b) :
    ∃ st, memInit phys info = some st ∧ ∀ getPageVaddr, TranslatesFrames getPageVaddr st →
      ∀ calls, Guarded (Sys.step getPageVaddr) Safe ⟨st, []⟩ calls →
        ∃ s, run (Sys.step getPageVaddr) ⟨st, []⟩ calls = some s ∧
          (s.live = [] → Restored st s) := by
  obtain ⟨st, start, hst, hboot⟩ := memInit_of_accepted phys hacc
  refine ⟨st, hst, fun v hv calls hrun => ?_⟩
  have hsync0 := hboot.allSynced hsuited hzero
  obtain ⟨s, hs, hsame, hgood, hsync⟩ := run_keeps (fun t => AllSynced t.state) (fun _ _ h => h)
    (fun _ _ _ hg hq _ hm => hm.synced hg hq) (hboot.prepared hsuited hv) hboot.good hsync0 hrun
  refine ⟨s, hs, fun hlive z hz => ?_⟩
  have hz' : z < s.state.numZones := hsame.numZones ▸ hz
  have hl := hsame.layout z
  have ht := hgood.tiled z hz'
  have ht0 : Tiled _ _ (st.zones z).buddy [] := hboot.good.tiled z hz
  have hdvd := hboot.dvd_usable hz
  have hsync' := hsync z hz'
  rw [Sys.liveBlocks, hlive, List.filterMap_nil, hl] at ht
  rw [hl] at hsync'
  have hlow := ht.only_top hsync' hdvd
  have hlow0 := ht0.only_top (hsync0 z hz) hdvd
  refine ⟨hlow, fun o i => ?_⟩
  rcases Nat.lt_trichotomy o (st.zones z).maxOrder with hlt | rfl | hgt
  · rw [show (s.state.zones z).freeList o = [] from hlow o hlt,
      show (st.zones z).freeList o = [] from hlow0 o hlt]
  · exact (ht.top_exact hlow i).trans (ht0.top_exact hlow0 i).symm
  · rw [MemoryZone.freeList, MemoryZone.freeList, hl, if_neg (Nat.not_le.mpr hgt),
      if_neg (Nat.not_le.mpr hgt)]

theorem safe_run_free_undoes_alloc_merging :
    ∃ st s, memInit zeroMem (singleZone zoneAtZero) = some st ∧
      run (Sys.step vaddrAtZero) ⟨st, []⟩ merging = some s ∧ s.live = [] ∧ Restored st s := by
  obtain ⟨st, hst, hall⟩ := safe_run_free_undoes_alloc zeroMem (singleZone zoneAtZero) 0
    accepted_zoneAtZero suited_zoneAtZero fun _ _ _ => rfl
  obtain ⟨hv, hrun⟩ := merging_safe hst
  obtain ⟨s, hs, hrestored⟩ := hall vaddrAtZero hv merging hrun
  have hlive : (memInit zeroMem (singleZone zoneAtZero)).bind (fun st =>
      (run (Sys.step vaddrAtZero) ⟨st, []⟩ merging).map Sys.live) = some [] := by decide +kernel
  rw [hst, Option.bind_some, hs, Option.map_some, Option.some.injEq] at hlive
  exact ⟨st, s, hst, hs, hlive, hrestored hlive⟩

/-- All four pages come back, but the second pair is merged at the index of the pair. -/
def misplacing : List Call :=
  [.alloc 0, .alloc 0, .alloc 0, .alloc 0, .free (pageAtZero 2) 0, .free (pageAtZero 3) 0,
    .free (pageAtZero 0) 0, .free (pageAtZero 1) 0]

theorem legal_run_not_restored :
    ¬ ∀ (phys : PhysMem) (info : CpuMemoryInfo) (st : AllocState) (v : Nat → Nat),
      memInit phys info = some st → TranslatesFrames v st →
        ∀ calls, Guarded (Sys.step v) Legal ⟨st, []⟩ calls →
          ∃ s, run (Sys.step v) ⟨st, []⟩ calls = some s ∧ (s.live = [] → Restored st s) := by
  intro hall
  obtain ⟨st, hst, hv, hlegal, hbad⟩ := exists_legal_run zeroMem misplacing
    (fun st s => decide (s.live = [] ∧ 0 < st.numZones ∧ 1 < (st.zones 0).maxOrder ∧
      (s.state.zones 0).freeList 1 ≠ [])) (by decide +kernel)
  obtain ⟨s, hs, hp⟩ := hall zeroMem (singleZone zoneAtZero) st vaddrAtZero hst hv misplacing hlegal
  obtain ⟨hlive, hz, horder, hne⟩ := of_decide_eq_true (hbad s hs)
  exact hne ((hp hlive 0 hz).1 1 horder)

/-! ### The page counter along a run -/

/-- A legal call in which no release merges: the bit of its pair is clear, and the list
of its order is empty. -/
def Quiet (s : Sys) (c : Call) : Prop :=
  Legal s c ∧ match c with
    | .alloc _ => True
    | .free p order => ∀ e ∈ getZoneAndPfnFromPage s.state p, order < maxPgOrder ∧
        (s.state.zones e.1).bit order (pairOf e.2 order) = false ∧
        (s.state.zones e.1).freeList order = []

instance (s : Sys) : (c : Call) → Decidable (Quiet s c)
  | .alloc order => inferInstanceAs (Decidable (Legal s (.alloc order) ∧ True))
  | .free p order => inferInstanceAs (Decidable (Legal s (.free p order) ∧
      ∀ e ∈ getZoneAndPfnFromPage s.state p, _))

theorem Quiet.safe {s : Sys} {c : Call} (h : Quiet s c) : Safe s c := by
  cases c with
  | alloc order => exact ⟨h.1, trivial⟩
  | free p order =>
      refine ⟨h.1, fun e he => ?_⟩
      obtain ⟨hmax, hbit, hfree⟩ := h.2 e he
      have hbit' : (s.state.zones e.1).buddy.bit order (pairOf e.2 order) = false := hbit
      refine ⟨hmax, ?_⟩
      rw [hbit', if_neg Bool.false_ne_true]
      exact hfree

/-- The counter of every zone is the number of pages on its lists. -/
def Counted (st : AllocState) : Prop :=
  ∀ z < st.numZones, (st.zones z).usableNumPages < 2 ^ 64 ∧ (st.zones z).availablePages =
    Buddy.pageCount (st.zones z).freeList ((st.zones z).maxOrder + 1)

theorem Moves.counted {s : Sys} {c : Call} {st : AllocState} (h : Moves s c st)
    (hquiet : Quiet s c) (hc : Counted s.state) : Counted st := by
  have hlayout := h.sameLayout
  intro y hy
  rw [hlayout.numZones] at hy
  rw [hlayout.layout y]
  refine ⟨(hc y hy).1, ?_⟩
  cases h with
  | @take z b order zone hz hl htake hle havail =>
      rw [AllocState.setZone_zones]
      split_ifs with hyz
      · subst hyz
        have hold := (hc y hz).2
        have hcount : Buddy.pageCount (s.state.zones y).freeList _ =
          Buddy.pageCount zone.freeList _ + 2 ^ order := htake.pageCount
        omega
      · exact (hc y hy).2
  | @put z i p order zone rest hz hlook hl ht hput havail =>
      rw [AllocState.setZone_zones]
      split_ifs with hyz
      · subst hyz
        obtain ⟨hsmall, hold⟩ := hc y hz
        have hcount : Buddy.pageCount zone.freeList _ =
          Buddy.pageCount (s.state.zones y).freeList _ + 2 ^ order := hput.pageCount
        have htotal : Buddy.pageCount zone.freeList ((s.state.zones y).maxOrder + 1) + _ =
          (s.state.zones y).usableNumPages := (hput.tiled ht).pageCount_add
        rw [havail (hquiet.2 (y, i) hlook).2.1, Nat.mod_eq_of_lt (by omega)]
        omega
      · exact (hc y hy).2

theorem Booted.counted {phys : PhysMem} {info : CpuMemoryInfo} {b : Nat} {start : Nat → Nat}
    {st : AllocState} (h : Booted phys info b start st) : Counted st := by
  intro z hz
  have hz' := h.numZones ▸ hz
  have hle := (wholeBlocks_le (zonePages info b z)).trans (zonePages_le info b z)
  have hpages : (info.zones z).pages ≤ (info.zones z).length := Nat.div_le_self _ _
  have hfits := (info.zones z).fits
  have hcount : Buddy.pageCount (st.zones z).freeList _ + _ = _ := (h.good.tiled z hz).pageCount_add
  refine ⟨by rw [h.usable_eq hz']; omega, ?_⟩
  rw [(h.zone_rep hz).2.2, ← hcount]
  rfl

/-- `available_pages` counts the free pages of each zone, never exceeds the zone, and never
hides a free block from the test in `alloc_pages`. -/
def Accounted (s : Sys) : Prop :=
  ∀ z < s.state.numZones,
    (s.state.zones z).availablePages =
      Buddy.pageCount (s.state.zones z).freeList ((s.state.zones z).maxOrder + 1) ∧
    (s.state.zones z).availablePages ≤ (s.state.zones z).usableNumPages ∧
    ∀ order o, order ≤ o → o ≤ (s.state.zones z).maxOrder → (s.state.zones z).freeList o ≠ [] →
      ¬ (s.state.zones z).availablePages < 2 ^ order

/-- Every run in which no release merges keeps the counter exact. -/
theorem quiet_run_counts (phys : PhysMem) (info : CpuMemoryInfo) (b : Nat)
    (hacc : Accepted info b) (hsuited : Suited info b) :
    ∃ st, memInit phys info = some st ∧ ∀ getPageVaddr, TranslatesFrames getPageVaddr st →
      ∀ calls, Guarded (Sys.step getPageVaddr) Quiet ⟨st, []⟩ calls →
        ∃ s, run (Sys.step getPageVaddr) ⟨st, []⟩ calls = some s ∧ Accounted s := by
  obtain ⟨st, start, hst, hboot⟩ := memInit_of_accepted phys hacc
  refine ⟨st, hst, fun v hv calls hrun => ?_⟩
  obtain ⟨s, hs, hsame, hgood, hcount⟩ := run_keeps (fun t => Counted t.state)
    (fun _ _ h => h.safe) (fun _ _ _ _ hq hc hm => hm.counted hc hq)
    (hboot.prepared hsuited hv) hboot.good hboot.counted hrun
  refine ⟨s, hs, fun z hz => ?_⟩
  obtain ⟨_, havail⟩ := hcount z hz
  have htotal : Buddy.pageCount (s.state.zones z).freeList _ + _ = _ :=
    (hgood.tiled z hz).pageCount_add
  refine ⟨havail, by omega, fun order o hle ho hne => ?_⟩
  have hpos : 2 ^ o ≤ Buddy.pageCount (s.state.zones z).freeList ((s.state.zones z).maxOrder + 1) :=
    Buddy.le_pageCount (Nat.lt_succ_of_le ho) hne
  have hmono : 2 ^ order ≤ 2 ^ o := Nat.pow_le_pow_right (by norm_num) hle
  omega

/-- Two pages are taken and the second is given back, which merges with nothing. -/
def lonely : List Call := [.alloc 0, .alloc 0, .free (pageAtZero 1) 0]

theorem quiet_run_counts_lonely :
    ∃ st s, memInit zeroMem (singleZone zoneAtZero) = some st ∧
      run (Sys.step vaddrAtZero) ⟨st, []⟩ lonely = some s ∧ Accounted s := by
  obtain ⟨st, hst, hall⟩ := quiet_run_counts zeroMem (singleZone zoneAtZero) 0
    accepted_zoneAtZero suited_zoneAtZero
  have h : (memInit zeroMem (singleZone zoneAtZero)).all (fun st =>
      decide (TranslatesFrames vaddrAtZero st ∧
        Guarded (Sys.step vaddrAtZero) Quiet ⟨st, []⟩ lonely)) = true := by decide +kernel
  rw [hst] at h
  obtain ⟨hv, hrun⟩ := of_decide_eq_true h
  obtain ⟨s, hs, hcounts⟩ := hall vaddrAtZero hv lonely hrun
  exact ⟨st, s, hst, hs, hcounts⟩

/-- One page is taken and given back: the three merges count its pages again. -/
theorem legal_run_overcounts :
    ¬ ∀ (phys : PhysMem) (info : CpuMemoryInfo) (st : AllocState) (v : Nat → Nat),
      memInit phys info = some st → TranslatesFrames v st →
        ∀ calls, Guarded (Sys.step v) Legal ⟨st, []⟩ calls →
          ∃ s, run (Sys.step v) ⟨st, []⟩ calls = some s ∧ Accounted s := by
  intro hall
  obtain ⟨st, hst, hv, hlegal, hbad⟩ := exists_legal_run zeroMem
    [.alloc 0, .free (pageAtZero 0) 0]
    (fun _ s => decide (0 < s.state.numZones ∧
      (s.state.zones 0).usableNumPages < (s.state.zones 0).availablePages)) (by decide +kernel)
  obtain ⟨s, hs, hp⟩ := hall zeroMem (singleZone zoneAtZero) st vaddrAtZero hst hv _ hlegal
  obtain ⟨hz, hover⟩ := of_decide_eq_true (hbad s hs)
  exact absurd (hp 0 hz).2.1 (Nat.not_le.mpr hover)

end Lucix.PageAlloc
