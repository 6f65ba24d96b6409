import Lucix.FileFaults

/-! What `vma_populate` maps. It maps the whole pages of `length`, which is one page less
than the area has where the length is not a multiple of the page size, and the frame
that it maps for a page of a file is always 0. -/
namespace Lucix.Mm
open PageTable FileIo

/-- The number of pages that `do_mmap` gives an area. -/
def VmArea.numPages (vma : VmArea) : Nat :=
  vma.length / pageSize + if vma.length % pageSize ≠ 0 then 1 else 0

/-- The slots of the mapped file that are empty among the first `i` pages of an area. -/
def System.emptySlots (s : System) (vma : VmArea) (i : Nat) : Nat :=
  (List.range i).countP fun j => decide (s.cacheSlot vma j = some none)

/-- The page meant for page `i` of an area: the next new one, or that of the file, which is new where
the slot is empty. -/
def System.meantPage (s : System) (vma : VmArea) (i : Nat) : Nat :=
  if vma.flags.anon then s.heap.next + i
  else match s.cacheSlot vma i with
    | some (some p) => p
    | _ => s.heap.next + s.emptySlots vma i

/-- The frame that `vma_populate` maps there. -/
def System.populateFrame (frames : Frames) (s : System) (vma : VmArea) (i : Nat) : Nat :=
  if vma.flags.anon then frames (s.heap.next + i) else 0

/-- Every page of the area has a present leaf entry for the frame of the page meant for it. New pages
are ones that the call has taken from `alloc_pages`, and different for different pages of the area. -/
structure PopulatedWith (frames : Frames) (s : System) (k : Nat) (vma : VmArea) (page : Nat → Nat)
    (s' : System) : Prop where
  present : ∀ va, vma.Contains va → Present (s'.leaf k va)
  frame : ∀ va, vma.Contains va → pageFrame (s'.leaf k va) = frames (page ((va - vma.start) / pageSize))
  taken : vma.flags.anon = true → ∀ i < vma.numPages, s.heap.next ≤ page i ∧ page i < s'.heap.next
  distinct : vma.flags.anon = true → ∀ i < vma.numPages, ∀ j < vma.numPages, page i = page j → i = j
  cached : vma.flags.anon = false → ∀ i < vma.numPages, s'.cacheSlot vma i = some (some (page i))

/-- A new area of the user half, in which nothing is mapped yet. The pages of its file, if it has one,
exist or have a slot to be put in, and `alloc_pages` does not run out of pages. -/
structure Populating (pages : Nat → Nat) (frames : Frames) (limit frameLimit : Nat) (s : System) (k : Nat)
    (mm : ProcMm) (vma : VmArea) : Prop where
  grounded : s.Grounded pages limit
  space : s.procs[k]? = some mm
  size : vma.endAddr = vma.start + vma.numPages * pageSize
  low : vma.endAddr ≤ x86Limit
  unmapped : ∀ va, vma.Contains va → ¬ Present (s.leaf k va)
  backed : vma.flags.anon = false → ∃ file ino, vma.file = some file ∧ s.inodes[file.ino]? = some ino ∧
    ∀ i < vma.numPages, i + vma.fpgOff < ino.fMap.pages.length
  room : ∀ s' ∈ vmaPopulate pages frames s mm.pgtable vma,
    s'.tables.next ≤ limit ∧ s'.heap.next ≤ frameLimit

/-- The area is empty; or it stands at whole pages, its length is that of at most `2 ^ 19` whole
pages, and every page of its file is the one at physical address 0. -/
def PopulateFits (frames : Frames) (s : System) (vma : VmArea) : Prop :=
  vma.length = 0 ∨ vma.start % pageSize = 0 ∧ vma.length % pageSize = 0 ∧ vma.length / pageSize ≤ 2 ^ 19 ∧
    (vma.flags.anon = false → ∀ i < vma.length / pageSize, frames (s.meantPage vma i) = 0)

instance (frames : Frames) (s : System) (vma : VmArea) : Decidable (PopulateFits frames s vma) :=
  inferInstanceAs (Decidable (_ ∨ _))

/-! ### Leaf entries -/

/-- The entries after `n` iterations that have mapped the frames `frame`. -/
structure LeavesTo (pages : Nat → Nat) (limit : Nat) (frame : Nat → Nat) (s : System) (k : Nat)
    (vma : VmArea) (n : Nat) (s' : System) : Prop where
  grounded : s'.Grounded pages limit
  procs : s'.procs = s.procs
  mapped : ∀ i < n, s'.leaf k (vma.pageAddr i) = pteEntry (frame i) vma.prot
  others : ∀ va, pml4FromVa va < 256 → (∀ i < n, pageFrame va ≠ pageFrame (vma.pageAddr i)) →
    s'.leaf k va = s.leaf k va

section leaves
variable {pages : Nat → Nat} {limit : Nat} {frame : Nat → Nat} {s s₁ s₂ s' : System} {k n : Nat} {mm : ProcMm}
  {vma : VmArea}

theorem LeavesTo.step (hp : Supply pages limit) (h : LeavesTo pages limit frame s k vma n s₁)
    (hk : s.procs[k]? = some mm) (hn : n < 2 ^ 19) (huser : ∀ i ≤ n, pml4FromVa (vma.pageAddr i) < 256)
    (htables : s₂.tables = s₁.tables) (hprocs : s₂.procs = s₁.procs)
    (hmap : s₂.mapPage pages mm.pgtable (frame n) (pageFrame (vma.pageAddr n)) vma.prot = some s')
    (hroom : s'.tables.next ≤ limit) : LeavesTo pages limit frame s k vma (n + 1) s' := by
  obtain ⟨hground, hleaf⟩ := h.grounded.remap hp (by rw [h.procs]; exact hk) (huser n (Nat.le_refl n))
    htables hprocs hmap hroom
  refine ⟨hground, ?_, ?_, ?_⟩
  · obtain ⟨t, -, rfl⟩ := Option.map_eq_some_iff.mp hmap
    exact hprocs.trans h.procs
  · intro i hi
    rw [hleaf k _ (huser i (by omega))]
    by_cases hlast : i = n
    · rw [hlast, if_pos ⟨rfl, rfl⟩]
    · rw [if_neg, h.mapped i (by omega)]
      rintro ⟨-, hsame⟩
      exact pageAddr_ne (by omega) hn hlast hsame
  · intro va hva hnone
    rw [hleaf k va hva, if_neg, h.others va hva fun i hi => hnone i (by omega)]
    rintro ⟨-, hsame⟩
    exact hnone n (Nat.lt_succ_self n) hsame

end leaves

/-! ### Pages and slots -/

/-- The pages that `n` iterations have taken, and the slots that they have filled. -/
structure PagesTo (s : System) (vma : VmArea) (n : Nat) (s' : System) : Prop where
  next : s'.heap.next = s.heap.next + if vma.flags.anon then n else s.emptySlots vma n
  slots : vma.flags.anon = false → ∀ i,
    s'.cacheSlot vma i = if i < n then some (some (s.meantPage vma i)) else s.cacheSlot vma i

section pages
variable {s s₁ s' : System} {vma : VmArea} {i n p : Nat} {slot : Option Nat}

theorem cacheSlot_some (h : s.cacheSlot vma i = some slot) : ∃ file ino, vma.file = some file ∧
    s.inodes[file.ino]? = some ino ∧ ino.fMap.pages[i + vma.fpgOff]? = some slot := by
  obtain ⟨file, hfile, h⟩ := Option.bind_eq_some_iff.mp h
  obtain ⟨ino, hino, hslot⟩ := Option.bind_eq_some_iff.mp h
  exact ⟨file, ino, hfile, hino, hslot⟩

theorem cacheSlot_congr (hinodes : s'.inodes = s.inodes) : s'.cacheSlot vma i = s.cacheSlot vma i := by
  unfold System.cacheSlot
  rw [hinodes]

theorem populateSlot_cached (h : s.cacheSlot vma i = some (some p)) :
    s.populateSlot vma i = some (p, s) := by
  obtain ⟨file, ino, hfile, hino, hslot⟩ := cacheSlot_some h
  exact populateSlot_some hfile hino hslot

/-- An empty slot is filled with the next new page. -/
theorem populateSlot_new (h : s.cacheSlot vma i = some none) :
    ∃ s₁, s.populateSlot vma i = some (s.heap.next, s₁) ∧ s₁.tables = s.tables ∧ s₁.procs = s.procs ∧
      s₁.heap.next = s.heap.next + 1 ∧
      ∀ j, s₁.cacheSlot vma j = if j = i then some (some s.heap.next) else s.cacheSlot vma j := by
  obtain ⟨file, ino, hfile, hino, hslot⟩ := cacheSlot_some h
  have hlt : file.ino < s.inodes.length := (List.getElem?_eq_some_iff.mp hino).1
  have hin : i + vma.fpgOff < ino.fMap.pages.length := (List.getElem?_eq_some_iff.mp hslot).1
  refine ⟨s.fillSlot file ino (i + vma.fpgOff), populateSlot_none hfile hino hslot, rfl, rfl, rfl, ?_⟩
  intro j
  have hino' : (s.fillSlot file ino (i + vma.fpgOff)).inodes[file.ino]? =
      some { ino with fMap := ino.fMap.withPage (i + vma.fpgOff) s.heap.next } := List.getElem?_set_self hlt
  rw [cacheSlot_eq hfile hino', cacheSlot_eq hfile hino]
  by_cases hj : j = i
  · rw [hj, if_pos rfl]
    exact withPage_self hin
  · rw [if_neg hj]
    exact withPage_other (by omega)

theorem emptySlots_succ (s : System) (vma : VmArea) (n : Nat) :
    s.emptySlots vma (n + 1) = s.emptySlots vma n + if s.cacheSlot vma n = some none then 1 else 0 := by
  rw [System.emptySlots, List.range_succ, List.countP_append, List.countP_singleton, System.emptySlots]
  simp only [decide_eq_true_eq]

theorem PagesTo.zero (s : System) (vma : VmArea) : PagesTo s vma 0 s :=
  ⟨by cases vma.flags.anon <;> rfl, fun _ _ => rfl⟩

theorem PagesTo.congr (h : PagesTo s vma n s₁) (hnext : s'.heap.next = s₁.heap.next)
    (hinodes : s'.inodes = s₁.inodes) : PagesTo s vma n s' :=
  ⟨hnext.trans h.next, fun hanon i => (cacheSlot_congr hinodes).trans (h.slots hanon i)⟩

theorem PagesTo.slots_succ (h : PagesTo s vma n s₁) (hanon : vma.flags.anon = false)
    (hnew : ∀ i, s'.cacheSlot vma i = if i = n then some (some (s.meantPage vma n)) else s₁.cacheSlot vma i) :
    ∀ i, s'.cacheSlot vma i =
      if i < n + 1 then some (some (s.meantPage vma i)) else s.cacheSlot vma i := by
  intro i
  rw [hnew i, h.slots hanon i]
  by_cases hi : i = n
  · rw [if_pos hi, hi, if_pos (Nat.lt_succ_self n)]
  · have hlt : i < n + 1 ↔ i < n := by omega
    rw [if_neg hi, if_congr hlt rfl rfl]

/-- A slot of the file in one iteration: it holds the page that is meant for it. -/
theorem PagesTo.fill (h : PagesTo s vma n s₁) (hanon : vma.flags.anon = false)
    (hslot : s.cacheSlot vma n = some slot) :
    ∃ p s₂, s₁.populateSlot vma n = some (p, s₂) ∧ s₂.tables = s₁.tables ∧ s₂.procs = s₁.procs ∧
      PagesTo s vma (n + 1) s₂ := by
  have hnext := h.next
  rw [hanon, if_neg Bool.false_ne_true] at hnext
  have hsame : s₁.cacheSlot vma n = some slot := by
    rw [h.slots hanon n, if_neg (Nat.lt_irrefl n), hslot]
  cases slot with
  | some p =>
      have hmeant : s.meantPage vma n = p := by
        rw [System.meantPage, hanon, if_neg Bool.false_ne_true, hslot]
      refine ⟨p, s₁, populateSlot_cached hsame, rfl, rfl, ?_, ?_⟩
      · rw [hanon, if_neg Bool.false_ne_true, emptySlots_succ, hslot, if_neg (by simp), hnext]
        rfl
      · intro _
        refine h.slots_succ hanon fun i => ?_
        by_cases hi : i = n
        · rw [if_pos hi, hi, hsame, hmeant]
        · rw [if_neg hi]
  | none =>
      have hmeant : s.meantPage vma n = s₁.heap.next := by
        rw [System.meantPage, hanon, if_neg Bool.false_ne_true, hslot, hnext]
      obtain ⟨s₂, hcall, htables, hprocs, hnext₂, hslots⟩ := populateSlot_new hsame
      refine ⟨s₁.heap.next, s₂, hcall, htables, hprocs, ?_, ?_⟩
      · rw [hanon, if_neg Bool.false_ne_true, emptySlots_succ, if_pos hslot, hnext₂, hnext, Nat.add_assoc]
      · intro _
        refine h.slots_succ hanon fun i => ?_
        rw [hslots i, hmeant]

end pages

theorem pageFrame_zero : pageFrame (wrap64 0) = 0 := by
  rw [wrap64_of_lt (by decide)]
  rfl

/-! ### The loop -/

section loop
variable {pages : Nat → Nat} {frames : Frames} {limit frameLimit : Nat} {s s₁ s' : System} {k n pgtable : Nat}
  {mm : ProcMm} {vma : VmArea}

theorem PagesTo.iteration (h : PagesTo s vma n s₁) (hn : n < 2 ^ 19)
    (hslot : vma.flags.anon = false → ∃ slot, s.cacheSlot vma n = some slot) :
    ∃ s₂, s₂.tables = s₁.tables ∧ s₂.procs = s₁.procs ∧ PagesTo s vma (n + 1) s₂ ∧
      populatePage pages frames pgtable vma s₁ n =
        s₂.mapPage pages pgtable (s.populateFrame frames vma n) (pageFrame (vma.pageAddr n)) vma.prot := by
  cases hanon : vma.flags.anon with
  | true =>
      have hnext := h.next
      rw [hanon, if_pos rfl] at hnext
      refine ⟨s₁.allocPage.2.pageRef s₁.heap.next, rfl, rfl, ⟨?_, fun hfile => ?_⟩, ?_⟩
      · rw [hanon, if_pos rfl, ← Nat.add_assoc, ← hnext]
        rfl
      · rw [hanon] at hfile
        contradiction
      · rw [System.populateFrame, hanon, if_pos rfl, ← hnext, populatePage_eq hn, populateBody, hanon]
        rfl
  | false =>
      obtain ⟨slot, hslot⟩ := hslot hanon
      obtain ⟨p, s₂, hcall, htables, hprocs, hpages⟩ := h.fill hanon hslot
      refine ⟨s₂.pageRef p, htables, hprocs, hpages.congr rfl rfl, ?_⟩
      rw [System.populateFrame, hanon, if_neg Bool.false_ne_true, populatePage_eq hn]
      exact populateBody_file frames hanon hcall

/-- After `2 ^ 19` iterations the product overflows. -/
theorem populatePages_few (hcall : populatePages pages frames pgtable vma n s = some s') : n ≤ 2 ^ 19 := by
  cases n with
  | zero => exact Nat.zero_le _
  | succ n =>
      obtain ⟨s₁, -, hlast⟩ := Option.bind_eq_some_iff.mp hcall
      unfold populatePage at hlast
      split at hlast
      next hroom =>
        rw [pageSize] at hroom
        omega
      · contradiction

theorem populatePages_spec (hp : Supply pages limit) (hground : s.Grounded pages limit)
    (hk : s.procs[k]? = some mm) (hn : n ≤ 2 ^ 19)
    (huser : ∀ i < n, pml4FromVa (vma.pageAddr i) < 256)
    (hslots : vma.flags.anon = false → ∀ i < n, ∃ slot, s.cacheSlot vma i = some slot) :
    ∃ s', populatePages pages frames mm.pgtable vma n s = some s' ∧ PagesTo s vma n s' ∧
      (s'.tables.next ≤ limit → LeavesTo pages limit (s.populateFrame frames vma) s k vma n s') := by
  induction n with
  | zero =>
      refine ⟨s, rfl, PagesTo.zero s vma, fun _ => ⟨hground, rfl, fun i hi => ?_, fun _ _ _ => rfl⟩⟩
      exact absurd hi (Nat.not_lt_zero i)
  | succ n ih =>
      obtain ⟨s₁, hcall, hpages, hleaves⟩ := ih (by omega) (fun i hi => huser i (by omega))
        fun hanon i hi => hslots hanon i (by omega)
      obtain ⟨s₂, htables, hprocs, hpages₂, hstep⟩ := @PagesTo.iteration pages frames s s₁ n mm.pgtable vma
        hpages hn fun hanon => hslots hanon n (Nat.lt_succ_self n)
      obtain ⟨s', hmap, hheap, hinodes⟩ : ∃ s', s₂.mapPage pages mm.pgtable (s.populateFrame frames vma n)
          (pageFrame (vma.pageAddr n)) vma.prot = some s' ∧ s'.heap = s₂.heap ∧ s'.inodes = s₂.inodes :=
        ⟨_, System.mapPage_eq .., rfl, rfl⟩
      refine ⟨s', ?_, hpages₂.congr (by rw [hheap]) hinodes, fun hroom => ?_⟩
      · rw [populatePages, hcall, Option.bind_some, hstep, hmap]
      · have hlater := (System.mapPage_later hmap).1
        rw [htables] at hlater
        exact (hleaves (Nat.le_trans hlater hroom)).step hp hk (by omega) (fun i hi => huser i (by omega))
          htables hprocs hmap hroom

/-! ### The pages of an area -/

theorem Populating.pageAddr_eq (h : Populating pages frames limit frameLimit s k mm vma) {i : Nat}
    (hi : i < vma.numPages) : vma.pageAddr i = vma.start + i * pageSize ∧ vma.Contains (vma.pageAddr i) := by
  have hsize := h.size
  have hlow := h.low
  have hmul : (i + 1) * pageSize ≤ vma.numPages * pageSize := Nat.mul_le_mul_right _ hi
  rw [Nat.succ_mul] at hmul
  have haddr : vma.pageAddr i = vma.start + i * pageSize :=
    wrap64_of_lt (by rw [x86Limit] at hlow; rw [pageSize] at *; omega)
  refine ⟨haddr, ?_⟩
  rw [haddr, VmArea.Contains, hsize]
  rw [pageSize] at *
  omega

theorem Populating.populated (hp : Supply pages limit)
    (h : Populating pages frames limit frameLimit s k mm vma) (hfew : vma.length / pageSize ≤ 2 ^ 19) :
    ∃ s', vmaPopulate pages frames s mm.pgtable vma = some s' ∧ s'.heap.next ≤ frameLimit ∧
      PagesTo s vma (vma.length / pageSize) s' ∧
      LeavesTo pages limit (s.populateFrame frames vma) s k vma (vma.length / pageSize) s' := by
  have hle : vma.length / pageSize ≤ vma.numPages := Nat.le_add_right _ _
  obtain ⟨s', hcall, hpages, hleaves⟩ := @populatePages_spec pages frames limit s k (vma.length / pageSize) mm vma
    hp h.grounded h.space hfew
    (fun i hi => contains_user h.low (h.pageAddr_eq (by omega)).2) (by
      intro hanon i hi
      obtain ⟨file, ino, hfile, hino, hslots⟩ := h.backed hanon
      rw [cacheSlot_eq hfile hino, List.getElem?_eq_getElem (hslots i (by omega))]
      exact ⟨_, rfl⟩)
  have hpopulate : vmaPopulate pages frames s mm.pgtable vma = some s' := by
    rw [vmaPopulate, hcall]
  obtain ⟨hroom, hframes⟩ := h.room s' hpopulate
  exact ⟨s', hpopulate, hframes, hpages, hleaves hroom⟩

/-- The last page of an area is among those that are visited only where it ends with one. -/
theorem Populating.whole (h : Populating pages frames limit frameLimit s k mm vma) {i : Nat}
    (hi : i < vma.length / pageSize) (hsame : pageFrame (vma.endAddr - 1) = pageFrame (vma.pageAddr i)) :
    vma.start % pageSize = 0 ∧ vma.length % pageSize = 0 := by
  have hsize := h.size
  have hlow := h.low
  rw [(h.pageAddr_eq (Nat.lt_of_lt_of_le hi (Nat.le_add_right _ _))).1, pageFrame_eq, pageFrame_eq] at hsame
  rw [VmArea.numPages] at hsize
  rw [x86Limit] at hlow
  rw [pageSize] at *
  split_ifs at hsize <;> omega

/-- The page of an address of an area that stands at whole pages. -/
theorem Populating.page_of (h : Populating pages frames limit frameLimit s k mm vma)
    (haligned : vma.start % pageSize = 0) {va : Nat} (hva : vma.Contains va) :
    (va - vma.start) / pageSize < vma.numPages ∧
      pageFrame va = pageFrame (vma.pageAddr ((va - vma.start) / pageSize)) := by
  have hsize := h.size
  obtain ⟨hge, hlt⟩ := hva
  have hin : (va - vma.start) / pageSize < vma.numPages := by
    rw [Nat.div_lt_iff_lt_mul (by decide)]
    omega
  refine ⟨hin, ?_⟩
  rw [(h.pageAddr_eq hin).1, pageFrame_eq, pageFrame_eq]
  rw [pageSize] at *
  omega

theorem Populating.fits (hp : Supply pages limit) (h : Populating pages frames limit frameLimit s k mm vma)
    {page : Nat → Nat} (hcall : vmaPopulate pages frames s mm.pgtable vma = some s')
    (hwith : PopulatedWith frames s k vma page s') : PopulateFits frames s vma := by
  by_cases hpos : vma.length = 0
  · exact .inl hpos
  · have hfew : vma.length / pageSize ≤ 2 ^ 19 := populatePages_few hcall
    obtain ⟨t, ht, -, hpages, hleaves⟩ := h.populated hp hfew
    obtain rfl : s' = t := Option.some.inj (hcall.symm.trans ht)
    have hlast : vma.Contains (vma.endAddr - 1) := by
      have hsize := h.size
      rw [VmArea.numPages] at hsize
      rw [VmArea.Contains]
      rw [pageSize] at *
      split_ifs at hsize <;> omega
    obtain ⟨i, hi, hsame⟩ : ∃ i < vma.length / pageSize,
        pageFrame (vma.endAddr - 1) = pageFrame (vma.pageAddr i) := by
      by_contra hnone
      push Not at hnone
      apply h.unmapped _ hlast
      rw [← hleaves.others _ (contains_user h.low hlast) hnone]
      exact hwith.present _ hlast
    obtain ⟨haligned, hwhole⟩ := h.whole hi hsame
    refine .inr ⟨haligned, hwhole, hfew, fun hanon j hj => ?_⟩
    have hj' : j < vma.numPages := Nat.lt_of_lt_of_le hj (Nat.le_add_right _ _)
    obtain ⟨haddr, hin⟩ := h.pageAddr_eq hj'
    have hpage : page j = s.meantPage vma j := by
      have hslot := hwith.cached hanon j hj'
      rw [hpages.slots hanon j, if_pos hj] at hslot
      exact (Option.some.inj (Option.some.inj hslot)).symm
    have hframe := hwith.frame _ hin
    rw [hleaves.mapped j hj, pteEntry_pageFrame, System.populateFrame, hanon, if_neg Bool.false_ne_true, haddr,
      Nat.add_sub_cancel_left, Nat.mul_div_cancel _ (by decide), hpage] at hframe
    exact hframe.symm.trans pageFrame_zero

theorem Populating.meets (hp : Supply pages limit) (hf : FrameSupply frames frameLimit)
    (h : Populating pages frames limit frameLimit s k mm vma) (haligned : vma.start % pageSize = 0)
    (hwhole : vma.length % pageSize = 0) (hfew : vma.length / pageSize ≤ 2 ^ 19)
    (hzero : vma.flags.anon = false → ∀ i < vma.length / pageSize, frames (s.meantPage vma i) = 0) :
    ∃ s', vmaPopulate pages frames s mm.pgtable vma = some s' ∧
      PopulatedWith frames s k vma (s.meantPage vma) s' := by
  obtain ⟨s', hcall, hframes, hpages, hleaves⟩ := h.populated hp hfew
  have hnum : vma.numPages = vma.length / pageSize := by
    rw [VmArea.numPages, hwhole]
    rfl
  have hleaf : ∀ va, vma.Contains va → s'.leaf k va =
      pteEntry (s.populateFrame frames vma ((va - vma.start) / pageSize)) vma.prot := by
    intro va hva
    obtain ⟨hlt, hsame⟩ := h.page_of haligned hva
    rw [System.leaf_congr hsame, hleaves.mapped _ (by omega)]
  refine ⟨s', hcall, ?_, ?_, ?_, ?_, ?_⟩
  · intro va hva
    rw [hleaf va hva]
    exact pteEntry_present _ _
  · intro va hva
    have hlt := (h.page_of haligned hva).1
    rw [hleaf va hva, pteEntry_pageFrame, System.populateFrame]
    cases hanon : vma.flags.anon with
    | true =>
        have hnext := hpages.next
        rw [hanon, if_pos rfl] at hnext
        rw [if_pos rfl, hf.valid _ (by omega), System.meantPage, hanon, if_pos rfl]
    | false =>
        rw [hzero hanon _ (by omega), if_neg Bool.false_ne_true, pageFrame_zero]
  · intro hanon i hi
    have hnext := hpages.next
    rw [hanon, if_pos rfl] at hnext
    rw [System.meantPage, hanon, if_pos rfl]
    omega
  · intro hanon i _ j _ heq
    rw [System.meantPage, System.meantPage, hanon, if_pos rfl, if_pos rfl] at heq
    omega
  · intro hanon i hi
    rw [hpages.slots hanon i, if_pos (by omega)]

end loop

/-- Populating a new area gives every page of it the frame that is meant exactly when the area is
empty or of at most `2 ^ 19` whole pages, and not one of a file with a page anywhere but at physical
address 0. -/
theorem populate_meets_iff {pages : Nat → Nat} {frames : Frames} {limit frameLimit : Nat} {s : System} {k : Nat}
    {mm : ProcMm} {vma : VmArea} (hp : Supply pages limit) (hf : FrameSupply frames frameLimit)
    (h : Populating pages frames limit frameLimit s k mm vma) :
    (∃ s' page, vmaPopulate pages frames s mm.pgtable vma = some s' ∧ PopulatedWith frames s k vma page s') ↔
      PopulateFits frames s vma := by
  constructor
  · rintro ⟨s', page, hcall, hwith⟩
    exact h.fits hp hcall hwith
  · rintro (hnone | ⟨haligned, hwhole, hfew, hzero⟩)
    · have hpages : vma.numPages = 0 := by
        rw [VmArea.numPages, hnone]
        rfl
      have hempty : ∀ va, ¬ vma.Contains va := by
        rintro va ⟨hge, hlt⟩
        have hsize := h.size
        rw [hpages] at hsize
        omega
      refine ⟨s, fun _ => 0, ?_, fun va hva => absurd hva (hempty va), fun va hva => absurd hva (hempty va),
        ?_, ?_, ?_⟩
      · rw [vmaPopulate, hnone]
        rfl
      all_goals
        intro _ i hi
        rw [hpages] at hi
        exact absurd hi (Nat.not_lt_zero i)
    · obtain ⟨s', hcall, hwith⟩ := h.meets hp hf haligned hwhole hfew hzero
      exact ⟨s', s.meantPage vma, hcall, hwith⟩

/-- A page of anonymous memory. -/
def anonymousPage : VmArea := anonymousArea ⟨true, true, false, true, false, 0⟩

theorem anonymousPage_populating : Populating lowPages lowFrames (2 ^ 30) (2 ^ 30)
    (newSpace [] emptyHeap []) 0 ⟨lowPages 0, []⟩ anonymousPage where
  grounded := newSpace_grounded ..
  space := rfl
  size := by decide
  low := by decide
  unmapped := by
    intro va _
    rw [newSpace_leaf]
    decide
  backed := fun hanon => absurd hanon (by decide)
  room := by decide +kernel

theorem populate_meets_anonymous : ∃ s' page,
    vmaPopulate lowPages lowFrames (newSpace [] emptyHeap []) (lowPages 0) anonymousPage = some s' ∧
      PopulatedWith lowFrames (newSpace [] emptyHeap []) 0 anonymousPage page s' :=
  (populate_meets_iff lowPages_supply lowFrames_supply anonymousPage_populating).mpr (.inr (by decide))

theorem codeArea_populating : Populating lowPages lowFrames (2 ^ 30) (2 ^ 30) (oneFile []) 0
    ⟨lowPages 0, []⟩ codeArea where
  grounded := newSpace_grounded ..
  space := rfl
  size := by decide
  low := by decide
  unmapped := by
    intro va _
    rw [show (oneFile []).leaf 0 va = 0 from newSpace_leaf ..]
    decide
  backed := fun _ => ⟨⟨1, 0, some .ramfs⟩, onePage, rfl, rfl, by decide⟩
  room := by decide +kernel

/-- The page of a file, which is at 2 MiB, is mapped at physical address 0. -/
theorem populated_file_wrong_frame : ¬ ∀ (s : System) (k : Nat) (mm : ProcMm) (vma : VmArea),
    Populating lowPages lowFrames (2 ^ 30) (2 ^ 30) s k mm vma →
      ∃ s' page, vmaPopulate lowPages lowFrames s mm.pgtable vma = some s' ∧
        PopulatedWith lowFrames s k vma page s' := by
  intro h
  obtain ⟨s', page, hcall, hwith⟩ := h (oneFile []) 0 ⟨lowPages 0, []⟩ codeArea codeArea_populating
  have hfits := codeArea_populating.fits lowPages_supply hcall hwith
  have hnot : ¬ PopulateFits lowFrames (oneFile []) codeArea := by decide
  exact hnot hfits

end Lucix.Mm
