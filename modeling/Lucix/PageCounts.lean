import Lucix.FaultAccess
import Lucix.RefCount
import Lucix.FileWrite

/-! Reference counts of pages against the leaf entries and cache slots that hold them.
Mapping a page changes one leaf entry; the counts stay right when the handler has
taken a reference for the new entry and dropped one for the old. -/
namespace Lucix.Mm
open PageTable FileIo Execution RefCount

/-- The user pages of all address spaces, as pairs of a space and a page number. -/
def System.userPages (s : System) : Finset (Nat × Nat) :=
  Finset.range s.procs.length ×ˢ Finset.range (2 ^ 35)

/-- The leaf entry of a user page maps the frame. -/
def System.Maps (s : System) (frame : Nat) (u : Nat × Nat) : Prop :=
  Present (s.leaf u.1 (u.2 * pageSize)) ∧ pageFrame (s.leaf u.1 (u.2 * pageSize)) = frame

instance (s : System) (frame : Nat) : DecidablePred (s.Maps frame) :=
  fun _ => inferInstanceAs (Decidable (_ ∧ _))

/-- The number of user leaf entries that map a frame. -/
def System.users (s : System) (frame : Nat) : Nat := (s.userPages.filter (s.Maps frame)).card

/-- The slots of a page cache that are counted; the array may have come with more. -/
def countedSlots (map : PageMapping) : List (Option Nat) := map.pages.take map.nrPages

/-- The number of slots of page caches that hold a page. -/
def System.slots (s : System) (p : Nat) : Nat := (s.inodes.map fun ino => (countedSlots ino.fMap).count (some p)).sum

def System.refs (frames : Frames) (s : System) (p : Nat) : Nat := s.users (frames p) + s.slots p

/-- Each page that is in use has as many references as leaf entries and slots hold it, and a
page that was freed is held by none. -/
def System.CountsUsers (frames : Frames) (s : System) : Prop :=
  ∀ p < s.heap.next, if s.freed p then s.refs frames p = 0 else (s.heap.pages p).refcnt = s.refs frames p

/-- The first `limit` pages that `alloc_pages` returns are different pages below `2 ^ 48`, and
`get_page_from_paddr` finds no other page at the frame of one. -/
structure FrameSupply (frames : Frames) (limit : Nat) : Prop where
  valid : ∀ p < limit, pageFrame (wrap64 (frames p)) = frames p
  different : ∀ p < limit, ∀ q < limit, frames p = frames q → p = q
  found : ∀ p < limit, ∀ q, frames.page (frames p) = some q → q = p

/-- The invariant: counts are right, nothing was freed, and user memory and the caches hold pages that
were handed out. -/
structure Counted (pages : Nat → Nat) (frames : Frames) (limit frameLimit : Nat) (s : System) : Prop where
  grounded : s.Grounded pages limit
  counts : ∀ p < frameLimit, p < s.heap.next → (s.heap.pages p).refcnt = s.refs frames p
  unused : ∀ p < frameLimit, s.heap.next ≤ p → s.refs frames p = 0
  live : ∀ p, s.freed p = false
  mapped : ∀ k vaddr, pml4FromVa vaddr < 256 → Present (s.leaf k vaddr) →
    ∃ p < s.heap.next, pageFrame (s.leaf k vaddr) = frames p
  cached : ∀ ino ∈ s.inodes, ∀ p, some p ∈ countedSlots ino.fMap → p < s.heap.next

/-! ### Entries -/

section entries
variable {pages : Nat → Nat} {frames : Frames} {limit frameLimit : Nat} {s s₁ s' : System} {k addr p : Nat}
  {mm : ProcMm} {prot : Prot}

theorem pageNumber_lt (huser : pml4FromVa addr < 256) : pageFrame addr / pageSize < 2 ^ 35 := by
  rw [pml4FromVa_eq] at huser
  rw [pageFrame_eq, pageSize]
  omega

theorem pageNumber_mul (addr : Nat) : pageFrame addr / pageSize * pageSize = pageFrame addr := by
  rw [pageFrame_eq, pageSize]
  omega

theorem user_of_lt {n : Nat} (hn : n < 2 ^ 35) : pml4FromVa (n * pageSize) < 256 := by
  rw [pml4FromVa_eq, pageSize]
  omega

theorem pageFrame_mul {n : Nat} (hn : n < 2 ^ 35) : pageFrame (n * pageSize) = n * pageSize :=
  pageFrame_of_page (by rw [pageSize]; omega) (by rw [pageSize]; omega)

theorem users_remap (hprocs : s'.procs = s.procs) (hk : k < s.procs.length)
    (huser : pml4FromVa addr < 256) {entry : Nat}
    (hleaf : ∀ k' vaddr, pml4FromVa vaddr < 256 → s'.leaf k' vaddr =
      if k' = k ∧ pageFrame vaddr = pageFrame addr then entry else s.leaf k' vaddr) (frame : Nat) :
    s'.users frame + (if Present (s.leaf k addr) ∧ pageFrame (s.leaf k addr) = frame then 1 else 0) =
      s.users frame + if Present entry ∧ pageFrame entry = frame then 1 else 0 := by
  have hmem : (k, pageFrame addr / pageSize) ∈ s.userPages :=
    Finset.mem_product.mpr ⟨Finset.mem_range.mpr hk, Finset.mem_range.mpr (pageNumber_lt huser)⟩
  have hother : ∀ u ∈ s.userPages, u ≠ (k, pageFrame addr / pageSize) →
      (s'.Maps frame u ↔ s.Maps frame u) := by
    rintro ⟨k', n⟩ hu hne
    have hn : n < 2 ^ 35 := Finset.mem_range.mp (Finset.mem_product.mp hu).2
    have hsame : s'.leaf k' (n * pageSize) = s.leaf k' (n * pageSize) := by
      rw [hleaf k' _ (user_of_lt hn), if_neg]
      rintro ⟨rfl, hpage⟩
      rw [pageFrame_mul hn] at hpage
      apply hne
      rw [← hpage, Nat.mul_div_cancel _ (by decide)]
    unfold System.Maps
    dsimp only
    rw [hsame]
  have hupdate := card_filter_update hmem hother
  have hold : s.leaf k (pageFrame addr / pageSize * pageSize) = s.leaf k addr := by
    rw [pageNumber_mul]
    exact System.leaf_congr (pageFrame_pageFrame addr)
  have hnew : s'.leaf k (pageFrame addr / pageSize * pageSize) = entry := by
    rw [pageNumber_mul, hleaf k _ (by rw [pml4FromVa_pageFrame]; exact huser),
      if_pos ⟨rfl, pageFrame_pageFrame addr⟩]
  have hpages : s'.userPages = s.userPages := by
    rw [System.userPages, hprocs]
    rfl
  unfold System.users
  rw [hpages]
  simpa only [System.Maps, hold, hnew] using hupdate

/-- Before page `p` is mapped in place of the old entry, a reference was taken for the new entry
and one dropped for the old. -/
structure Takes (frames : Frames) (frameLimit : Nat) (s : System) (k addr p : Nat) (s₁ : System) :
    Prop where
  tables : s₁.tables = s.tables
  procs : s₁.procs = s.procs
  inodes : s₁.inodes = s.inodes
  live : ∀ q, s₁.freed q = false
  next : s.heap.next ≤ s₁.heap.next
  page : p < s₁.heap.next
  count : ∀ r < frameLimit, r < s₁.heap.next →
    (s₁.heap.pages r).refcnt +
        (if Present (s.leaf k addr) ∧ pageFrame (s.leaf k addr) = frames r then 1 else 0) =
      s.refs frames r + if r = p then 1 else 0

theorem Counted.remap (hp : Supply pages limit) (hf : FrameSupply frames frameLimit)
    (h : Counted pages frames limit frameLimit s) (hk : s.procs[k]? = some mm)
    (huser : pml4FromVa addr < 256) (htakes : Takes frames frameLimit s k addr p s₁)
    (hlimit : p < frameLimit)
    (hmap : s₁.mapPage pages mm.pgtable (frames p) (pageFrame addr) prot = some s')
    (hroom : s'.tables.next ≤ limit) :
    Counted pages frames limit frameLimit s' ∧ s'.heap = s₁.heap ∧ s'.procs = s.procs ∧
      ∀ k' vaddr, pml4FromVa vaddr < 256 → s'.leaf k' vaddr =
        if k' = k ∧ pageFrame vaddr = pageFrame addr then pteEntry (frames p) prot else s.leaf k' vaddr := by
  obtain ⟨htables, hprocs, hinodes, hlive, hnext, hlt, hcount⟩ := htakes
  obtain ⟨hground', hleaf⟩ := h.grounded.remap hp hk huser htables hprocs hmap hroom
  obtain ⟨t, -, rfl⟩ := Option.map_eq_some_iff.mp hmap
  have hrefs : ∀ r < frameLimit, System.refs frames { s₁ with tables := t } r +
      (if Present (s.leaf k addr) ∧ pageFrame (s.leaf k addr) = frames r then 1 else 0) =
        s.refs frames r + if r = p then 1 else 0 := by
    intro r hr
    have husers := users_remap
      (show ({ s₁ with tables := t } : System).procs = s.procs from hprocs)
      (List.getElem?_eq_some_iff.mp hk).1 huser hleaf (frames r)
    have hnew : (Present (pteEntry (frames p) prot) ∧ pageFrame (pteEntry (frames p) prot) = frames r) ↔
        r = p := by
      rw [pteEntry_pageFrame, hf.valid p hlimit]
      constructor
      · rintro ⟨-, hsame⟩
        exact (hf.different p hlimit r hr hsame).symm
      · rintro rfl
        exact ⟨pteEntry_present _ _, rfl⟩
    simp only [hnew] at husers
    have hslots : System.slots { s₁ with tables := t } r = s.slots r := by
      unfold System.slots
      rw [← hinodes]
    unfold System.refs
    rw [hslots]
    omega
  refine ⟨⟨hground', ?_, ?_, hlive, ?_, ?_⟩, rfl, hprocs, hleaf⟩
  · intro r hr hlt'
    have hcounts : _ := hcount r hr hlt'
    have := hrefs r hr
    show (s₁.heap.pages r).refcnt = _
    omega
  · intro r hr hge
    have hge' : s₁.heap.next ≤ r := hge
    have := h.unused r hr (hnext.trans hge')
    have := hrefs r hr
    rw [if_neg (show ¬ r = p by omega)] at this
    omega
  · intro k' vaddr huser' hpresent
    rw [hleaf k' vaddr huser'] at hpresent ⊢
    split_ifs at hpresent ⊢ with hsame
    · refine ⟨p, hlt, ?_⟩
      rw [pteEntry_pageFrame, hf.valid p hlimit]
    · obtain ⟨q, hq, hframe⟩ := h.mapped k' vaddr huser' hpresent
      exact ⟨q, lt_of_lt_of_le hq hnext, hframe⟩
  · intro ino hino q hq
    have hino' : ino ∈ s₁.inodes := hino
    rw [hinodes] at hino'
    exact lt_of_lt_of_le (h.cached ino hino' q hq) hnext

end entries

/-! ### Counters -/

section counters
variable (s : System) (p r : Nat)

theorem allocPage_refcnt : (s.allocPage.2.heap.pages r).refcnt =
    if r = s.heap.next then 0 else (s.heap.pages r).refcnt := by
  by_cases hr : r = s.heap.next
  · simp [hr, System.allocPage, PageHeap.allocPage, PageHeap.setPage]
  · simp [hr, System.allocPage, PageHeap.allocPage, PageHeap.setPage]

theorem pageRef_refcnt : ((s.pageRef p).heap.pages r).refcnt =
    if r = p then ((s.heap.pages p).refcnt + 1) % 2 ^ 32 else (s.heap.pages r).refcnt := by
  by_cases hr : r = p
  · simp [hr, System.pageRef, PageHeap.pageRef, PageHeap.setPage]
  · simp [hr, System.pageRef, PageHeap.pageRef, PageHeap.setPage]

theorem pageUnref_refcnt : ((s.pageUnref p).heap.pages r).refcnt =
    if r = p then pred32 (s.heap.pages p).refcnt else (s.heap.pages r).refcnt := by
  by_cases hr : r = p
  · simp [hr, System.pageUnref, PageHeap.setPage]
  · simp [hr, System.pageUnref, PageHeap.setPage]

theorem copyPage_refcnt (src : Nat) : ((s.copyPage p src).heap.pages r).refcnt =
    (s.heap.pages r).refcnt := by
  by_cases hr : r = p
  · simp [hr, System.copyPage, PageHeap.setPage]
  · simp [hr, System.copyPage, PageHeap.setPage]

theorem pageSetUsage_refcnt (usage : Nat) : ((s.pageSetUsage p usage).heap.pages r).refcnt =
    (s.heap.pages r).refcnt := by
  by_cases hr : r = p
  · simp [hr, System.pageSetUsage, PageHeap.pageSetUsage, PageHeap.setPage]
  · simp [hr, System.pageSetUsage, PageHeap.pageSetUsage, PageHeap.setPage]

end counters

section copies
variable {s : System} {page r : Nat}

/-- Both copies: the new page has one reference, the old one loses one. -/
theorem anonymousCopy_refcnt (hne : page ≠ s.heap.next) : ((s.anonymousCopy page).heap.pages r).refcnt =
    if r = s.heap.next then 1 else if r = page then pred32 (s.heap.pages page).refcnt
      else (s.heap.pages r).refcnt := by
  unfold System.anonymousCopy
  simp only [pageSetUsage_refcnt, pageUnref_refcnt, pageRef_refcnt, copyPage_refcnt, allocPage_refcnt]
  by_cases hr : r = s.heap.next
  · simp [hr, hne.symm]
  · simp [hr, hne]

theorem privateCopy_refcnt (hne : page ≠ s.heap.next) : ((s.privateCopy page).heap.pages r).refcnt =
    if r = s.heap.next then 1 else if r = page then pred32 (s.heap.pages page).refcnt
      else (s.heap.pages r).refcnt := by
  unfold System.privateCopy
  simp only [pageUnref_refcnt, pageRef_refcnt, copyPage_refcnt, allocPage_refcnt]
  by_cases hr : r = s.heap.next
  · simp [hr, hne.symm]
  · simp [hr, hne]

theorem pageUnref_live (hlive : ∀ q, s.freed q = false) (hshared : 1 < (s.heap.pages page).refcnt) :
    ∀ q, (s.pageUnref page).freed q = false := by
  intro q
  have hpos : pred32 (s.heap.pages page).refcnt ≠ 0 := by
    rw [pred32_of_pos (by omega)]
    omega
  simp only [System.pageUnref, if_neg hpos]
  exact hlive q

theorem allocPage_live (hlive : ∀ q, s.freed q = false) : ∀ q, s.allocPage.2.freed q = false := by
  intro q
  show Function.update s.freed s.heap.next false q = false
  by_cases hq : q = s.heap.next
  · rw [hq, Function.update_self]
  · rw [Function.update_of_ne hq]
    exact hlive q

theorem anonymousCopy_live (hlive : ∀ q, s.freed q = false) (hne : page ≠ s.heap.next)
    (hshared : 1 < (s.heap.pages page).refcnt) : ∀ q, (s.anonymousCopy page).freed q = false := by
  apply @pageUnref_live ((s.allocPage.2.copyPage s.heap.next page).pageRef s.heap.next) page
    (allocPage_live hlive)
  rw [pageRef_refcnt, if_neg hne, copyPage_refcnt, allocPage_refcnt, if_neg hne]
  exact hshared

theorem privateCopy_live (hlive : ∀ q, s.freed q = false) (hne : page ≠ s.heap.next)
    (hshared : 1 < (s.heap.pages page).refcnt) : ∀ q, (s.privateCopy page).freed q = false := by
  apply @pageUnref_live (s.allocPage.2.pageRef s.heap.next) page (allocPage_live hlive)
  rw [pageRef_refcnt, if_neg hne, allocPage_refcnt, if_neg hne]
  exact hshared

end copies

/-! ### Faults -/

section faults
variable {pages : Nat → Nat} {frames : Frames} {limit frameLimit : Nat} {s s' : System} {k addr : Nat}
  {flags : FaultFlags} {mm : ProcMm} {vma : VmArea}

theorem users_pos (hk : s.procs[k]? = some mm) (huser : pml4FromVa addr < 256)
    (hpresent : Present (s.leaf k addr)) : 0 < s.users (pageFrame (s.leaf k addr)) := by
  apply Finset.card_pos.mpr
  refine ⟨(k, pageFrame addr / pageSize), Finset.mem_filter.mpr ⟨?_, ?_⟩⟩
  · exact Finset.mem_product.mpr ⟨Finset.mem_range.mpr (List.getElem?_eq_some_iff.mp hk).1,
      Finset.mem_range.mpr (pageNumber_lt huser)⟩
  · unfold System.Maps
    dsimp only
    rw [pageNumber_mul, System.leaf_congr (pageFrame_pageFrame addr)]
    exact ⟨hpresent, rfl⟩

theorem countedSlots_getElem? {map : PageMapping} {i : Nat} (hi : i < slotCount map) :
    (countedSlots map)[i]? = map.pages[i]? :=
  List.getElem?_take_of_lt (lt_of_lt_of_le hi (Nat.min_le_left _ _))

theorem cacheSlot_mem {i page : Nat} (hslot : s.HasSlot vma i) (h : s.cacheSlot vma i = some (some page)) :
    ∃ ino ∈ s.inodes, some page ∈ countedSlots ino.fMap := by
  obtain ⟨file, hfile, ino, hino, hlt⟩ := hslot
  rw [System.cacheSlot, hfile, Option.bind_some, hino, Option.bind_some, ← countedSlots_getElem? hlt] at h
  exact ⟨ino, List.mem_of_getElem? hino, List.mem_of_getElem? h⟩

theorem slots_pos {ino : Inode} {page : Nat} (hino : ino ∈ s.inodes) (hpage : some page ∈ countedSlots ino.fMap) :
    0 < s.slots page := by
  have hcount : 0 < (countedSlots ino.fMap).count (some page) := List.count_pos_iff.mpr hpage
  exact lt_of_lt_of_le hcount (List.single_le_sum (by simp) _ (List.mem_map_of_mem hino))

/-- What a fault in an area must not meet for the counts to stay right: a page behind the slots of the
file, the counter of a file page at its end, or a protection fault for a write to a ramfs area with
`VM_MAYWRITE` that is not private, or whose entry does not map the page of the file. -/
def FaultCounts (frames : Frames) (s : System) (k addr : Nat) (flags : FaultFlags) (vma : VmArea) : Prop :=
  vma.vmOps = .ramfs → s.HasSlot vma (pgoffset vma addr) ∧
    ∀ page ∈ (s.cacheSlot vma (pgoffset vma addr)).join,
      (flags.protection = false → (s.heap.pages page).refcnt + 1 < 2 ^ 32) ∧
      (flags.protection = true → flags.write = true → vma.prot.mayWrite = true →
        vma.flags.priv = true ∧ pageFrame (s.leaf k addr) = frames page)

instance (s : System) (k addr : Nat) (flags : FaultFlags) (vma : VmArea) :
    Decidable (FaultCounts frames s k addr flags vma) :=
  inferInstanceAs (Decidable (_ → _))

theorem Counted.takes_new (h : Counted pages frames limit frameLimit s)
    (habsent : ¬ Present (s.leaf k addr)) :
    Takes frames frameLimit s k addr s.heap.next (s.allocPage.2.pageRef s.heap.next) where
  tables := rfl
  procs := rfl
  inodes := rfl
  live := allocPage_live h.live
  next := Nat.le_succ _
  page := Nat.lt_succ_self _
  count := by
    intro r hr hlt
    have hlt' : r < s.heap.next + 1 := hlt
    rw [if_neg fun hmaps => habsent hmaps.1, pageRef_refcnt, allocPage_refcnt, allocPage_refcnt, if_pos rfl]
    by_cases hnew : r = s.heap.next
    · rw [if_pos hnew, if_pos hnew, h.unused r hr (by omega)]
      norm_num
    · rw [if_neg hnew, if_neg hnew, if_neg hnew, h.counts r hr (by omega)]

/-- The old entry maps the page and no other. -/
theorem maps_iff_page (hf : FrameSupply frames frameLimit) {page r : Nat} (hpresent : Present (s.leaf k addr))
    (hframe : pageFrame (s.leaf k addr) = frames page) (hpage : page < frameLimit) (hr : r < frameLimit) :
    (Present (s.leaf k addr) ∧ pageFrame (s.leaf k addr) = frames r) ↔ r = page := by
  rw [hframe]
  constructor
  · rintro ⟨-, hsame⟩
    exact (hf.different page hpage r hr hsame).symm
  · rintro rfl
    exact ⟨hpresent, rfl⟩

/-- The page that is found at the frame of an entry is the one that the entry maps. -/
theorem Counted.found_at (hf : FrameSupply frames frameLimit) (h : Counted pages frames limit frameLimit s)
    (huser : pml4FromVa addr < 256) (hpresent : Present (s.leaf k addr)) (hnext : s.heap.next ≤ frameLimit)
    {page : Nat} (hpage : frames.page (pageFrame (s.leaf k addr)) = some page) :
    page < s.heap.next ∧ pageFrame (s.leaf k addr) = frames page := by
  obtain ⟨p, hp, hframe⟩ := h.mapped k addr huser hpresent
  rw [hframe] at hpage
  obtain rfl := hf.found p (by omega) page hpage
  exact ⟨hp, hframe⟩

theorem Counted.takes_copy (hf : FrameSupply frames frameLimit)
    (h : Counted pages frames limit frameLimit s) {page : Nat} {s₁ : System}
    (hpresent : Present (s.leaf k addr)) (hframe : pageFrame (s.leaf k addr) = frames page)
    (hpage : page < s.heap.next) (hlimit : s.heap.next < frameLimit)
    (hshared : 1 < (s.heap.pages page).refcnt)
    (hcopy : s₁ = s.anonymousCopy page ∨ s₁ = s.privateCopy page) :
    Takes frames frameLimit s k addr s.heap.next s₁ := by
  have hne : page ≠ s.heap.next := by omega
  have hcounter : ∀ r, (s₁.heap.pages r).refcnt = if r = s.heap.next then 1
      else if r = page then pred32 (s.heap.pages page).refcnt else (s.heap.pages r).refcnt := by
    intro r
    rcases hcopy with rfl | rfl
    · exact anonymousCopy_refcnt hne
    · exact privateCopy_refcnt hne
  have hlive : ∀ q, s₁.freed q = false := by
    rcases hcopy with rfl | rfl
    · exact anonymousCopy_live h.live hne hshared
    · exact privateCopy_live h.live hne hshared
  have hnext : s₁.heap.next = s.heap.next + 1 := by
    rcases hcopy with rfl | rfl <;> rfl
  refine ⟨?_, ?_, ?_, hlive, by omega, by omega, ?_⟩
  · rcases hcopy with rfl | rfl <;> rfl
  · rcases hcopy with rfl | rfl <;> rfl
  · rcases hcopy with rfl | rfl <;> rfl
  · intro r hr hlt
    simp only [maps_iff_page hf hpresent hframe (by omega) hr, hcounter]
    by_cases hnew : r = s.heap.next
    · rw [if_pos hnew, if_neg (by omega), if_pos hnew, h.unused r hr (by omega)]
    · rw [if_neg hnew, if_neg hnew, ← h.counts r hr (by omega)]
      by_cases hold : r = page
      · rw [if_pos hold, if_pos hold, pred32_of_pos (by omega), hold]
        omega
      · rw [if_neg hold, if_neg hold]

theorem Counted.takes_same (hf : FrameSupply frames frameLimit)
    (h : Counted pages frames limit frameLimit s) {page : Nat} (hpresent : Present (s.leaf k addr))
    (hframe : pageFrame (s.leaf k addr) = frames page) (hpage : page < s.heap.next)
    (hlimit : s.heap.next ≤ frameLimit) : Takes frames frameLimit s k addr page s where
  tables := rfl
  procs := rfl
  inodes := rfl
  live := h.live
  next := Nat.le_refl _
  page := hpage
  count := by
    intro r hr hlt
    simp only [maps_iff_page hf hpresent hframe (by omega) hr, h.counts r hr hlt]

theorem Counted.takes_cached (h : Counted pages frames limit frameLimit s) {page : Nat}
    (habsent : ¬ Present (s.leaf k addr)) (hpage : page < s.heap.next)
    (hcounter : (s.heap.pages page).refcnt + 1 < 2 ^ 32) :
    Takes frames frameLimit s k addr page (s.pageRef page) where
  tables := rfl
  procs := rfl
  inodes := rfl
  live := h.live
  next := Nat.le_refl _
  page := hpage
  count := by
    intro r hr hlt
    rw [if_neg fun hmaps => habsent hmaps.1, pageRef_refcnt]
    by_cases hsame : r = page
    · rw [if_pos hsame, if_pos hsame, Nat.mod_eq_of_lt hcounter, ← h.counts r hr hlt, hsame]
    · rw [if_neg hsame, if_neg hsame, h.counts r hr hlt]

theorem Counted.takes (hf : FrameSupply frames frameLimit) (h : Counted pages frames limit frameLimit s)
    (hk : s.procs[k]? = some mm) (huser : pml4FromVa addr < 256)
    (hconsistent : flags.protection = true ↔ Present (s.leaf k addr))
    (hcounts : FaultCounts frames s k addr flags vma) {p : Nat} {s₁ : System}
    (hhandler : faultHandler frames s mm.pgtable vma addr flags = some (some p, s₁))
    (hframes : s₁.heap.next ≤ frameLimit) : Takes frames frameLimit s k addr p s₁ := by
  have habsent : flags.protection = false → ¬ Present (s.leaf k addr) := by
    intro hprot
    rw [← hconsistent, hprot]
    decide
  unfold faultHandler at hhandler
  split at hhandler
  case h_1 hops =>
    obtain ⟨page, hslot, hcase⟩ := ramfsVmaFault_cases hhandler
    obtain ⟨hcounted, hpage⟩ := hcounts hops
    obtain ⟨hcounter, hprivate⟩ := hpage page (by rw [hslot]; rfl)
    obtain ⟨ino, hino, hmem⟩ := cacheSlot_mem hcounted hslot
    have hpage := h.cached ino hino page hmem
    rcases hcase with ⟨hprot, hnew, rfl⟩ | ⟨hprot, hwrite, hmay, -, hnew, rfl⟩ |
      ⟨hprot, hwrite, hmay, hpriv, -, rfl⟩ | ⟨-, -, hnew, -⟩
    · obtain rfl := Option.some.inj hnew
      exact h.takes_cached (habsent hprot) hpage (hcounter hprot)
    · obtain rfl := Option.some.inj hnew
      have hpresent := hconsistent.mp hprot
      have hframe := (hprivate hprot hwrite hmay).2
      have hlimit : s.heap.next + 1 ≤ frameLimit := hframes
      have hshared : 1 < (s.heap.pages page).refcnt := by
        have hentry := users_pos hk huser hpresent
        have hcache := slots_pos hino hmem
        rw [h.counts page (by omega) hpage, System.refs, ← hframe]
        omega
      exact h.takes_copy hf hpresent hframe hpage hlimit hshared (.inr rfl)
    · rw [(hprivate hprot hwrite hmay).1] at hpriv
      contradiction
    · contradiction
  case h_2 =>
    rcases anonymousPageHandler_cases hhandler with ⟨hprot, hnew, rfl⟩ | ⟨hprot, -, page, hpage, hcase⟩
    · obtain rfl := Option.some.inj hnew
      exact h.takes_new (habsent hprot)
    · have hpresent := hconsistent.mp hprot
      rw [h.grounded.getPhys hk huser, if_neg hpresent] at hpage
      have hfew : s.heap.next ≤ frameLimit := by
        rcases hcase with ⟨-, -, -, rfl⟩ | ⟨-, -, -, rfl⟩ | ⟨-, -, -, rfl⟩
        · exact (Nat.le_succ _).trans hframes
        · exact hframes
        · exact hframes
      obtain ⟨hlt, hframe⟩ := h.found_at hf huser hpresent hfew hpage
      rcases hcase with ⟨-, hshared, hnew, rfl⟩ | ⟨-, -, hnew, rfl⟩ | ⟨-, -, hnew, -⟩
      · obtain rfl := Option.some.inj hnew
        exact h.takes_copy hf hpresent hframe hlt hframes hshared (.inl rfl)
      · obtain rfl := Option.some.inj hnew
        exact h.takes_same hf hpresent hframe hlt hframes
      · contradiction
  case h_3 => contradiction

theorem faultHandler_none {s₁ : System} {pgtable : Nat}
    (h : faultHandler frames s pgtable vma addr flags = some (none, s₁)) : s₁ = s := by
  unfold faultHandler at h
  split at h
  · obtain ⟨page, -, hcase⟩ := ramfsVmaFault_cases h
    rcases hcase with ⟨-, hnew, -⟩ | ⟨-, -, -, -, hnew, -⟩ | ⟨-, -, -, -, hnew, -⟩ | ⟨-, -, -, rfl⟩
    · contradiction
    · contradiction
    · contradiction
    · rfl
  · rcases anonymousPageHandler_cases h with ⟨-, hnew, -⟩ | ⟨-, -, page, -, hcase⟩
    · contradiction
    · rcases hcase with ⟨-, -, hnew, -⟩ | ⟨-, -, hnew, -⟩ | ⟨-, -, -, rfl⟩
      · contradiction
      · contradiction
      · rfl
  · contradiction

theorem Counted.fault (hp : Supply pages limit) (hf : FrameSupply frames frameLimit)
    (h : Counted pages frames limit frameLimit s) (hk : s.procs[k]? = some mm)
    (harea : findVmaForAddress addr mm.vmAreas = some vma) (huser : pml4FromVa addr < 256)
    (hconsistent : flags.protection = true ↔ Present (s.leaf k addr))
    (hcounts : FaultCounts frames s k addr flags vma)
    (hfault : kernelPageFault pages frames s k addr flags = some s')
    (hroom : s'.tables.next ≤ limit) (hframes : s'.heap.next ≤ frameLimit) :
    Counted pages frames limit frameLimit s' := by
  rw [kernelPageFault, hk, Option.bind_some, harea, Option.bind_some] at hfault
  obtain ⟨⟨newPage, s₁⟩, hhandler, hmap⟩ := Option.bind_eq_some_iff.mp hfault
  cases newPage with
  | none =>
      obtain rfl := Option.some.inj hmap
      rw [faultHandler_none hhandler]
      exact h
  | some p =>
      have hmap' : s₁.mapPage pages mm.pgtable (frames p) (pageFrame addr) (faultProt vma flags) = some s' :=
        hmap
      obtain ⟨t, -, hs'⟩ := Option.map_eq_some_iff.mp hmap'
      have hframes₁ : s₁.heap.next ≤ frameLimit := by
        rw [← hs'] at hframes
        exact hframes
      have htakes := h.takes hf hk huser hconsistent hcounts hhandler hframes₁
      exact (h.remap hp hf hk huser htakes (lt_of_lt_of_le htakes.page hframes₁) hmap' hroom).1

end faults

end Lucix.Mm
