import Lucix.PageLookup
import Lucix.PageCounts

/-! The two functions of `mm/page_alloc.c` that page faults use, for the pages that the allocator has
returned. On a memory map whose frames are sound they give each page a frame of its own, and no other
page is found at the frame of one. -/
namespace Lucix.Mm
open PageAlloc

/-- `get_phys_addr_from_page` and `get_page_from_paddr`, where `handed` are the page structs in the order
in which `alloc_pages` has returned them. A page that was not returned has no number of its own. -/
def allocFrames (st : AllocState) (handed : List Nat) : Frames where
  addr := fun p => (handed[p]?.bind (getPhysAddrFromPage st)).getD 0
  page := fun phys => (getPageFromPaddr st phys).map fun page => handed.idxOf page

/-- The page structs are of different usable pages. -/
structure Handed (st : AllocState) (handed : List Nat) : Prop where
  nodup : handed.Nodup
  usable : ∀ page ∈ handed, ∃ z < st.numZones, ∃ i < (st.zones z).usableNumPages, page = (st.zones z).pageAddr i

section frames
variable {phys : PhysMem} {info : CpuMemoryInfo} {b z i p q : Nat} {start : Nat → Nat} {st : AllocState}
  {handed : List Nat}

/-- No other page is found at the frame of a page. -/
theorem getPageFromPaddr_frame (h : Booted phys info b start st) (hd : info.Disjoint) (hs : FramesSound info st)
    (hz : z < st.numZones) (hi : i < (st.zones z).usableNumPages) {f page : Nat}
    (hf : getPhysAddrFromPage st ((st.zones z).pageAddr i) = some f)
    (hpage : getPageFromPaddr st f = some page) : page = (st.zones z).pageAddr i := by
  have hz' : z < info.numMemZones := h.numZones ▸ hz
  obtain ⟨f', hf', hlow, hhigh⟩ := hs.inside z hz i hi
  obtain rfl := Option.some.inj (hf.symm.trans hf')
  obtain ⟨y, hfind, rfl⟩ := Option.map_eq_some_iff.mp hpage
  -- the zone that is found is the one of the page, for zones do not overlap
  obtain ⟨hy, ⟨hbase, hend⟩, -⟩ := h.find_iff.mp hfind
  have hle := (wholeBlocks_le (zonePages info b y)).trans (zonePages_le info b y)
  have hlength := (info.zones y).length_eq
  have hmul := Nat.mul_le_mul_right pageSize hle
  obtain rfl : y = z := hd y hy z hz' f hbase (by omega) hlow (by rw [pageSize] at hhigh; omega)
  have hframe := h.mapsApart.getPhysAddrFromPage_pageAddr hz hi
  obtain rfl := Option.some.inj (hf.symm.trans hframe)
  have hfits := (info.zones y).fits
  have haddr := h.pageAddr_lt hz' hi
  rw [ZoneLayout.pageAddr] at haddr ⊢
  dsimp only
  rw [Nat.mul_div_cancel _ (by decide), sub64_of_le (Nat.le_add_right _ _) (by rw [pageSize] at *; omega),
    Nat.add_sub_cancel_left, wrap64_of_lt haddr]

theorem Handed.frame (hh : Handed st handed) (h : Booted phys info b start st) (hp : p < handed.length) :
    ∃ z < st.numZones, ∃ i < (st.zones z).usableNumPages, handed[p]? = some ((st.zones z).pageAddr i) ∧
      getPhysAddrFromPage st ((st.zones z).pageAddr i) = some (allocFrames st handed p) := by
  have hget : handed[p]? = some handed[p] := List.getElem?_eq_getElem hp
  obtain ⟨z, hz, i, hi, hpage⟩ := hh.usable _ (List.mem_of_getElem? hget)
  rw [hpage] at hget
  refine ⟨z, hz, i, hi, hget, ?_⟩
  have hframe := h.frame_eq hz hi
  have haddr : allocFrames st handed p = frameOf info b z i := by
    show (handed[p]?.bind (getPhysAddrFromPage st)).getD 0 = _
    rw [hget, Option.bind_some, hframe, Option.getD_some]
  rw [hframe, haddr]

/-- On a memory map whose frames are sound and whose zones end below `2 ^ 48`, the pages that the
allocator has returned supply user memory. -/
theorem allocFrames_supply (hst : memInit phys info = some st) (hd : info.Disjoint) (hs : FramesSound info st)
    (hlow : ∀ z < info.numMemZones, (info.zones z).physBase + (info.zones z).length ≤ 2 ^ 48)
    (hh : Handed st handed) : FrameSupply (allocFrames st handed) handed.length := by
  obtain ⟨b, start, h⟩ := booted_of_memInit hst
  constructor
  · intro p hp
    obtain ⟨z, hz, i, hi, -, hframe⟩ := hh.frame h hp
    obtain ⟨f, hf, -, hhigh⟩ := hs.inside z hz i hi
    have hf' : f = allocFrames st handed p := Option.some.inj (hf.symm.trans hframe)
    have hbound := hlow z (h.numZones ▸ hz)
    have haligned : allocFrames st handed p % pageSize = 0 := by
      rw [h.frame_eq hz hi, Option.some.injEq] at hframe
      rw [← hframe, frameOf]
      exact Nat.mul_mod_left _ _
    rw [← hf'] at haligned ⊢
    rw [pageSize] at hhigh haligned
    rw [wrap64_of_lt (by omega)]
    exact PageTable.pageFrame_of_page haligned (by omega)
  · intro p hp q hq hsame
    obtain ⟨y, hy, i, hi, hgetp, hframep⟩ := hh.frame h hp
    obtain ⟨z, hz, j, hj, hgetq, hframeq⟩ := hh.frame h hq
    obtain ⟨rfl, rfl⟩ := hs.distinct y hy i hi z hz j hj (by rw [hframep, hframeq, hsame])
    exact (List.getElem?_inj hp hh.nodup).mp (hgetp.trans hgetq.symm)
  · intro p hp q hfound
    obtain ⟨z, hz, i, hi, hget, hframe⟩ := hh.frame h hp
    obtain ⟨page, hpage, rfl⟩ := Option.map_eq_some_iff.mp hfound
    obtain rfl := getPageFromPaddr_frame h hd hs hz hi hframe hpage
    obtain ⟨hlt, hself⟩ := List.getElem?_eq_some_iff.mp hget
    rw [← hself]
    exact List.Nodup.idxOf_getElem hh.nodup p hlt

theorem live_handed {s : Sys} (hm : st.MapsApart) (hsame : SameLayout st s.state) (hg : Good s) :
    Handed st (s.live.map Prod.fst) where
  nodup := by
    refine List.pairwise_map.mpr (List.pairwise_iff_getElem.mpr fun i j hi hj hlt heq => ?_)
    obtain ⟨z, hz, k, hk, hpage, -⟩ := hg.live _ (List.getElem_mem hi)
    have hblock : ∀ e : Nat × Nat, e.1 = (s.state.zones z).pageAddr k → blockIn s.state z e = some ⟨k, e.2⟩ := by
      rintro ⟨page, o⟩ rfl
      rw [blockIn_pageAddr (hsame.mapsApart hm) hz hk, if_pos rfl]
    -- two blocks of one zone that start at one page have it in common
    have hapart := (List.pairwise_append.mp ((hg.tiled z hz).all_disjoint)).2.1
    rw [Sys.liveBlocks, List.pairwise_filterMap, List.pairwise_iff_getElem] at hapart
    refine hapart i j hi hj hlt _ (hblock _ hpage) _ (hblock _ (heq.symm.trans hpage)) k ?_
    exact ⟨Buddy.Block.mem_start ⟨k, _⟩, Buddy.Block.mem_start ⟨k, _⟩⟩
  usable := by
    intro page hpage
    obtain ⟨e, he, rfl⟩ := List.mem_map.mp hpage
    obtain ⟨z, hz, i, hi, haddr, -⟩ := hg.live e he
    rw [hsame.layout] at hi haddr
    exact ⟨z, hsame.numZones ▸ hz, i, hi, haddr⟩

end frames

/-- After every run of safe calls of the allocator, the pages that are held supply user memory. -/
theorem safe_run_supplies (phys : PhysMem) (info : CpuMemoryInfo) (b : Nat) (hacc : Accepted info b)
    (hsuited : Suited info b) (hd : info.Disjoint)
    (hlow : ∀ z < info.numMemZones, (info.zones z).physBase + (info.zones z).length ≤ 2 ^ 48) :
    ∃ st, memInit phys info = some st ∧ (FramesSound info st → ∀ getPageVaddr, TranslatesFrames getPageVaddr st →
      ∀ calls, Execution.Guarded (Sys.step getPageVaddr) Safe ⟨st, []⟩ calls →
        ∃ s, Execution.run (Sys.step getPageVaddr) ⟨st, []⟩ calls = some s ∧
          FrameSupply (allocFrames st (s.live.map Prod.fst)) s.live.length) := by
  obtain ⟨st, start, hst, hboot⟩ := memInit_of_accepted phys hacc
  refine ⟨st, hst, fun hs v hv calls hrun => ?_⟩
  obtain ⟨s, hs', hsame, hgood, -⟩ := run_keeps (fun _ => True) (fun _ _ h => h)
    (fun _ _ _ _ _ _ _ => trivial) (hboot.prepared hsuited hv) hboot.good trivial hrun
  refine ⟨s, hs', ?_⟩
  have hsupply := allocFrames_supply hst hd hs hlow (live_handed hboot.mapsApart hsame hgood)
  rwa [List.length_map] at hsupply

end Lucix.Mm
