import Lucix.PageCounts
import Lucix.FileRead

/-! Runs of page faults, `vma_populate`, reads and writes: the counts of pages stay right
in every run that keeps clear of the calls that miscount. -/
namespace Lucix.Mm
open PageTable FileIo Execution RefCount

/-! ### Files -/

section files
variable {pages : Nat → Nat} {frames : Frames} {limit frameLimit : Nat} {s : System} {i j p : Nat} {ino ino' : Inode}
  {heap heap' : PageHeap} {map : PageMapping}

/-- The system after a call on the inode with number `i`. -/
def System.setFile (s : System) (i : Nat) (heap : PageHeap) (ino : Inode) : System :=
  { s with heap := heap, inodes := s.inodes.set i ino }

theorem System.setFile_self (hi : s.inodes[i]? = some ino) : s.setFile i s.heap ino = s := by
  obtain ⟨hlt, hget⟩ := List.getElem?_eq_some_iff.mp hi
  unfold System.setFile
  rw [← hget, List.set_getElem_self]

theorem System.setFile_setFile : (s.setFile i heap ino).setFile i heap' ino' = s.setFile i heap' ino' := by
  unfold System.setFile
  rw [List.set_set]

theorem System.setFile_inode (hi : i < s.inodes.length) : (s.setFile i heap ino).inodes[i]? = some ino :=
  List.getElem?_set_self hi

theorem Counted.setFile (h : Counted pages frames limit frameLimit s) (hi : s.inodes[i]? = some ino)
    (hnext : s.heap.next ≤ heap.next) (hcached : ∀ p, some p ∈ countedSlots ino'.fMap → p < heap.next)
    (hcount : ∀ r < frameLimit, r < heap.next →
      (heap.pages r).refcnt + (countedSlots ino.fMap).count (some r) =
        s.refs frames r + (countedSlots ino'.fMap).count (some r)) :
    Counted pages frames limit frameLimit (s.setFile i heap ino') := by
  have hrefs : ∀ r, (s.setFile i heap ino').refs frames r + (countedSlots ino.fMap).count (some r) =
      s.refs frames r + (countedSlots ino'.fMap).count (some r) := by
    intro r
    have hslots := @sum_map_set _ ino s.inodes (fun ino => (countedSlots ino.fMap).count (some r)) i ino' hi
    have husers : (s.setFile i heap ino').users (frames r) = s.users (frames r) := rfl
    unfold System.refs System.slots
    rw [husers]
    unfold System.setFile
    dsimp only at hslots ⊢
    omega
  have hinodes : ∀ ino'' ∈ (s.setFile i heap ino').inodes, ino'' ∈ s.inodes ∨ ino'' = ino' :=
    fun _ hmem => List.mem_or_eq_of_mem_set hmem
  refine ⟨⟨h.grounded.tables, h.grounded.distinct⟩, ?_, ?_, h.live, ?_, ?_⟩
  · intro r hr hlt
    have hcounts := hcount r hr hlt
    have := hrefs r
    show (heap.pages r).refcnt = _
    omega
  · intro r hr hge
    have hnone : (countedSlots ino'.fMap).count (some r) = 0 := by
      apply List.count_eq_zero.mpr
      intro hmem
      exact absurd (hcached r hmem) (Nat.not_lt.mpr hge)
    have hunused := h.unused r hr (hnext.trans hge)
    have := hrefs r
    omega
  · intro k vaddr huser hpresent
    obtain ⟨q, hq, hframe⟩ := h.mapped k vaddr huser hpresent
    exact ⟨q, lt_of_lt_of_le hq hnext, hframe⟩
  · intro ino'' hmem q hq
    rcases hinodes ino'' hmem with hold | rfl
    · exact lt_of_lt_of_le (h.cached ino'' hold q hq) hnext
    · exact hcached q hq

theorem Counted.setFile_bytes (h : Counted pages frames limit frameLimit s) (hi : s.inodes[i]? = some ino)
    (hmap : ino'.fMap = ino.fMap) (hnext : heap.next = s.heap.next)
    (hrefcnt : ∀ r, (heap.pages r).refcnt = (s.heap.pages r).refcnt) :
    Counted pages frames limit frameLimit (s.setFile i heap ino') := by
  have hino := List.mem_of_getElem? hi
  apply h.setFile hi hnext.ge
  · rw [hmap, hnext]
    exact h.cached ino hino
  · intro r hr hlt
    rw [hmap, hrefcnt, h.counts r hr (by omega)]

theorem addCachePage_refcnt (heap : PageHeap) (r : Nat) :
    (heap.addCachePage.pages r).refcnt = if r = heap.next then 1 else (heap.pages r).refcnt := by
  by_cases hr : r = heap.next
  · rw [if_pos hr, hr]
    exact (addCachePage_new heap).2
  · rw [if_neg hr, addCachePage_old hr]

theorem Counted.cachePage (h : Counted pages frames limit frameLimit s) (hi : s.inodes[i]? = some ino)
    (hj : j < ino.fMap.nrPages) {map' : PageMapping} (hcall : cachePage s.heap ino.fMap j = some (p, heap', map')) :
    Counted pages frames limit frameLimit (s.setFile i heap' { ino with fMap := map' }) := by
  have hino := List.mem_of_getElem? hi
  unfold FileIo.cachePage at hcall
  split at hcall
  next q hslot =>
    obtain ⟨rfl, rfl, rfl⟩ : q = p ∧ s.heap = heap' ∧ ino.fMap = map' := by
      simpa only [Option.some.injEq, Prod.mk.injEq] using hcall
    exact h.setFile_bytes hi rfl rfl fun _ => rfl
  next hslot =>
    obtain ⟨hlt, hempty⟩ := List.getElem?_eq_some_iff.mp hslot
    rw [newCachePage_eq hlt] at hcall
    obtain ⟨rfl, rfl, rfl⟩ : s.heap.next = p ∧ s.heap.addCachePage = heap' ∧
        ino.fMap.withPage j s.heap.next = map' := by
      simpa only [Option.some.injEq, Prod.mk.injEq] using hcall
    have hnext : s.heap.addCachePage.next = s.heap.next + 1 := rfl
    have hslots : countedSlots (ino.fMap.withPage j s.heap.next) =
        (countedSlots ino.fMap).set j (some s.heap.next) := List.take_set
    have hin : j < (countedSlots ino.fMap).length := by
      rw [countedSlots, List.length_take]
      omega
    have hempty' : (countedSlots ino.fMap)[j] = none := by
      rw [← hempty]
      exact List.getElem_take
    apply h.setFile hi (by omega)
    · intro q hq
      rw [hslots] at hq
      rcases List.mem_or_eq_of_mem_set hq with hold | hnew
      · have := h.cached ino hino q hold
        omega
      · obtain rfl := Option.some.inj hnew
        omega
    · intro r hr hlt'
      rw [hslots, List.count_set hin, hempty', addCachePage_refcnt]
      by_cases hnew : r = s.heap.next
      · subst hnew
        have hnone : (countedSlots ino.fMap).count (some s.heap.next) = 0 := by
          apply List.count_eq_zero.mpr
          intro hmem
          exact absurd (h.cached ino hino _ hmem) (Nat.lt_irrefl _)
        simp [hnone, h.unused _ hr (Nat.le_refl _)]
      · simp [hnew, h.counts r hr (by omega), Ne.symm hnew]
  next => contradiction

theorem copyIn_refcnt {off n : Nat} {src : Nat → UInt8} (hcopy : heap.copyIn p off src n = some heap') :
    heap'.next = heap.next ∧ ∀ r, (heap'.pages r).refcnt = (heap.pages r).refcnt := by
  unfold PageHeap.copyIn at hcopy
  split at hcopy
  case isFalse => contradiction
  case isTrue =>
    obtain rfl := Option.some.inj hcopy
    refine ⟨rfl, ?_⟩
    intro r
    by_cases hr : r = p
    · simp [hr, PageHeap.setPage]
    · simp [hr, PageHeap.setPage]

theorem pageMkDirty_refcnt (heap : PageHeap) (p r : Nat) :
    ((heap.pageMkDirty p).pages r).refcnt = (heap.pages r).refcnt := by
  by_cases hr : r = p
  · simp [hr, PageHeap.pageMkDirty, PageHeap.setPage]
  · simp [hr, PageHeap.pageMkDirty, PageHeap.setPage]

theorem Counted.writeBody (hi : i < s.inodes.length) {src : Nat → UInt8} {count : Nat} {w w' : WriteLoop}
    (h : Counted pages frames limit frameLimit (s.setFile i w.heap w.ino))
    (hin : w.pos / pageSize < w.ino.fMap.nrPages) (hbody : w.body src count = some w') :
    Counted pages frames limit frameLimit (s.setFile i w'.heap w'.ino) ∧
      w'.ino.fMap.nrPages = w.ino.fMap.nrPages ∧ (w.idx = w.pos → w'.idx = w'.pos) := by
  have hino : (s.setFile i w.heap w.ino).inodes[i]? = some w.ino := System.setFile_inode hi
  unfold WriteLoop.body at hbody
  obtain ⟨⟨dst, heap, map⟩, hbegin, hbody⟩ := Option.bind_eq_some_iff.mp hbody
  obtain ⟨heap', hcopy, hbody⟩ := Option.bind_eq_some_iff.mp hbody
  obtain rfl := Option.some.inj hbody
  rw [writeBegin_inside (Nat.not_le.mpr hin)] at hbegin
  have hcached := h.cachePage hino hin hbegin
  rw [System.setFile_setFile] at hcached
  obtain ⟨hnext, hrefcnt⟩ := copyIn_refcnt hcopy
  refine ⟨?_, (cachePage_some hbegin).2.1, fun hidx => by simp only [WriteLoop.advance, hidx]⟩
  rw [← @System.setFile_setFile s i { w.ino with fMap := map } _ heap _]
  apply hcached.setFile_bytes (System.setFile_inode hi)
  · rfl
  · exact hnext
  · intro r
    show ((((heap'.pageMkDirty dst).pageMkDirty dst)).pages r).refcnt = (heap.pages r).refcnt
    rw [pageMkDirty_refcnt, pageMkDirty_refcnt, hrefcnt]

/-- A signed index is not behind the unsigned one. -/
theorem toNat_tdiv_le (idx : Nat) (hidx : idx < 2 ^ 64) :
    ((toInt64 idx).tdiv pageSize).toNat ≤ idx / pageSize := by
  by_cases hsmall : idx < 2 ^ 63
  · rw [tdiv_index hsmall, Int.toNat_natCast]
  · rw [toInt64_of_ge (Nat.le_of_not_lt hsmall)]
    have hneg : (idx : Int) - 2 ^ 64 ≤ 0 := by omega
    have hzero : ((idx : Int) - 2 ^ 64).tdiv pageSize ≤ 0 :=
      (Int.tdiv_le_tdiv (by decide) hneg).trans_eq (Int.zero_tdiv _)
    rw [Int.toNat_of_nonpos hzero]
    exact Nat.zero_le _

theorem Counted.readBody (hi : i < s.inodes.length) {count : Nat} {w w' : ReadLoop}
    (h : Counted pages frames limit frameLimit (s.setFile i w.heap w.ino)) (hidx : w.idx < 2 ^ 64)
    (hin : w.idx / pageSize < w.ino.fMap.nrPages) (hbody : w.body count = some w') :
    Counted pages frames limit frameLimit (s.setFile i w'.heap w'.ino) ∧
      w'.ino.fMap.nrPages = w.ino.fMap.nrPages ∧ w'.idx < 2 ^ 64 := by
  have hino : (s.setFile i w.heap w.ino).inodes[i]? = some w.ino := System.setFile_inode hi
  unfold ReadLoop.body at hbody
  obtain ⟨⟨p, heap, map⟩, hpage, hbody⟩ := Option.bind_eq_some_iff.mp hbody
  obtain ⟨bytes, -, hbody⟩ := Option.bind_eq_some_iff.mp hbody
  obtain rfl := Option.some.inj hbody
  unfold readCachePage at hpage
  split at hpage
  · contradiction
  · have hle := toNat_tdiv_le w.idx hidx
    have hcached := h.cachePage hino (lt_of_le_of_lt hle hin) hpage
    rw [System.setFile_setFile] at hcached
    refine ⟨hcached, (cachePage_some hpage).2.1, ?_⟩
    show wrap64 _ < 2 ^ 64
    rw [wrap64]
    exact Nat.mod_lt _ (Nat.two_pow_pos 64)

/-- A transfer of nothing, or one that stays inside the slots that are counted and is long enough for its
steps to end at page boundaries, or inside one page. -/
def Stays (map : PageMapping) (pos count : Nat) : Prop :=
  count = 0 ∨ (pageSize ≤ count ∨ pos % pageSize + count ≤ pageSize) ∧ pos + count ≤ slotCount map * pageSize

instance (map : PageMapping) (pos count : Nat) : Decidable (Stays map pos count) :=
  inferInstanceAs (Decidable (_ ∨ _))

/-- A position before the end of such a transfer is in a page that is counted. -/
theorem Stays.inside {pos count idx : Nat} (h : Stays map pos count) (hstart : count = 0 → idx = pos)
    (hidx : idx < wrap64 (pos + count)) : count ≠ 0 ∧ idx / pageSize < map.nrPages := by
  have hle := wrap64_le (pos + count)
  have hcount : count ≠ 0 := by
    intro hzero
    have := hstart hzero
    omega
  refine ⟨hcount, ?_⟩
  rcases h with hzero | ⟨-, hend⟩
  · contradiction
  · have hslots : slotCount map * pageSize ≤ map.nrPages * pageSize :=
      Nat.mul_le_mul_right _ (Nat.min_le_left _ _)
    rw [Nat.div_lt_iff_lt_mul (by decide)]
    exact lt_of_lt_of_le hidx (hle.trans (hend.trans hslots))

theorem Counted.write (h : Counted pages frames limit frameLimit s) (hi : s.inodes[i]? = some ino)
    {src : Nat → UInt8} {fuel count pos : Nat} {w : WriteLoop} (hstays : Stays ino.fMap pos count)
    (hdone : genericFileWrite fuel s.heap ino src count pos = .done w) :
    Counted pages frames limit frameLimit (s.setFile i w.heap w.ino) := by
  have hlt := (List.getElem?_eq_some_iff.mp hi).1
  refine (whileFuel_preserves (fun w : WriteLoop => Counted pages frames limit frameLimit
    (s.setFile i w.heap w.ino) ∧ w.ino.fMap.nrPages = ino.fMap.nrPages ∧ w.idx = w.pos ∧
      (count = 0 → w.idx = pos)) ?_ ?_ hdone).1
  · rintro w w' ⟨hw, hnr, hidx, hstart⟩ hmore hbody
    obtain ⟨hcount, hin⟩ := hstays.inside hstart (of_decide_eq_true hmore)
    rw [hidx, ← hnr] at hin
    obtain ⟨hw', hnr', hidx'⟩ := hw.writeBody hlt hin hbody
    exact ⟨hw', hnr'.trans hnr, hidx' hidx, fun hzero => absurd hzero hcount⟩
  · refine ⟨?_, rfl, rfl, fun _ => rfl⟩
    dsimp only
    rw [System.setFile_self hi]
    exact h

theorem Counted.read (h : Counted pages frames limit frameLimit s) (hi : s.inodes[i]? = some ino)
    {fuel count pos : Nat} {w : ReadLoop} (hpos : pos < 2 ^ 64) (hstays : ino.size ≤ pos ∨ Stays ino.fMap pos count)
    (hdone : genericFileRead fuel s.heap ino count pos = .done w) :
    Counted pages frames limit frameLimit (s.setFile i w.heap w.ino) := by
  have hlt := (List.getElem?_eq_some_iff.mp hi).1
  unfold genericFileRead at hdone
  split at hdone
  · obtain rfl := Outcome.done.inj hdone
    dsimp only
    rw [System.setFile_self hi]
    exact h
  next hsize =>
    have hstays := hstays.resolve_left hsize
    refine (whileFuel_preserves (fun w : ReadLoop => Counted pages frames limit frameLimit
      (s.setFile i w.heap w.ino) ∧ w.ino.fMap.nrPages = ino.fMap.nrPages ∧ w.idx < 2 ^ 64 ∧
        (count = 0 → w.idx = pos)) ?_ ?_ hdone).1
    · rintro w w' ⟨hw, hnr, hidx, hstart⟩ hmore hbody
      have hmore' := of_decide_eq_true hmore
      rw [Nat.add_comm] at hmore'
      obtain ⟨hcount, hin⟩ := hstays.inside hstart hmore'
      rw [← hnr] at hin
      obtain ⟨hw', hnr', hidx'⟩ := hw.readBody hlt hidx hin hbody
      exact ⟨hw', hnr'.trans hnr, hidx', fun hzero => absurd hzero hcount⟩
    · refine ⟨?_, rfl, hpos, fun _ => rfl⟩
      dsimp only
      rw [System.setFile_self hi]
      exact h

end files

/-! ### Populating an area -/

section populate
variable {pages : Nat → Nat} {frames : Frames} {limit frameLimit : Nat} {s s' : System} {k i j n : Nat}
  {mm : ProcMm} {vma : VmArea}

/-- The address of page `i` of an area. -/
def VmArea.pageAddr (vma : VmArea) (i : Nat) : Nat := wrap64 (vma.start + i * pageSize)

theorem pageAddr_ne (hi : i < 2 ^ 19) (hj : j < 2 ^ 19) (hne : i ≠ j) :
    pageFrame (vma.pageAddr i) ≠ pageFrame (vma.pageAddr j) := by
  unfold VmArea.pageAddr
  rw [pageFrame_eq, pageFrame_eq, wrap64, wrap64, pageSize]
  omega

/-- What `vma_populate` must not meet for the counts to stay right: more pages than its `int` product
has room for, a whole page of a file, which it counts and does not map, or a page that is mapped
already. -/
def PopulateCounts (s : System) (k : Nat) (vma : VmArea) : Prop :=
  vma.length / pageSize ≤ 2 ^ 19 ∧
    ∀ i < vma.length / pageSize, vma.flags.anon = true ∧ ¬ Present (s.leaf k (vma.pageAddr i))

instance (s : System) (k : Nat) (vma : VmArea) : Decidable (PopulateCounts s k vma) :=
  inferInstanceAs (Decidable (_ ∧ ∀ i < _, _))

theorem populatePage_anon (hanon : vma.flags.anon = true)
    (hcall : populatePage pages frames mm.pgtable vma s i = some s') :
    (s.allocPage.2.pageRef s.heap.next).mapPage pages mm.pgtable (frames s.heap.next)
      (pageFrame (vma.pageAddr i)) vma.prot = some s' := by
  unfold populatePage at hcall
  split at hcall
  · unfold populateBody at hcall
    rw [if_pos hanon] at hcall
    exact hcall
  · contradiction

theorem System.mapPage_later {pgtable phys vaddr : Nat} {prot : Prot}
    (h : s.mapPage pages pgtable phys vaddr prot = some s') :
    s.tables.next ≤ s'.tables.next ∧ s'.heap = s.heap := by
  obtain ⟨t, hmap, rfl⟩ := Option.map_eq_some_iff.mp h
  exact ⟨mapContiguous_later hmap, rfl⟩

/-- One iteration maps a new page and leaves the entries of the pages that follow. -/
theorem Counted.populatePages (hp : Supply pages limit) (hf : FrameSupply frames frameLimit)
    (h : Counted pages frames limit frameLimit s) (hk : s.procs[k]? = some mm)
    (huser : ∀ i < vma.length / pageSize, pml4FromVa (vma.pageAddr i) < 256)
    (hcounts : PopulateCounts s k vma) (hn : n ≤ vma.length / pageSize)
    (hcall : populatePages pages frames mm.pgtable vma n s = some s')
    (hroom : s'.tables.next ≤ limit) (hframes : s'.heap.next ≤ frameLimit) :
    Counted pages frames limit frameLimit s' ∧ s'.procs = s.procs ∧
      ∀ i < vma.length / pageSize, n ≤ i → s'.leaf k (vma.pageAddr i) = s.leaf k (vma.pageAddr i) := by
  induction n generalizing s' with
  | zero =>
      obtain rfl := Option.some.inj hcall
      exact ⟨h, rfl, fun _ _ _ => rfl⟩
  | succ n ih =>
      obtain ⟨s₁, hfirst, hlast⟩ := Option.bind_eq_some_iff.mp hcall
      have hfew := hcounts.1
      obtain ⟨hanon, habsent⟩ := hcounts.2 n hn
      have hmap := populatePage_anon hanon hlast
      obtain ⟨hlater, hheap⟩ := System.mapPage_later hmap
      have hlater' : s₁.tables.next ≤ s'.tables.next := hlater
      have hnew : s'.heap.next = s₁.heap.next + 1 := by
        rw [hheap]
        rfl
      obtain ⟨hcounted, hprocs, hrest⟩ := ih (by omega) hfirst (by omega) (by omega)
      rw [← hrest n hn (Nat.le_refl n)] at habsent
      obtain ⟨hcounted', -, hprocs', hleaf⟩ := hcounted.remap hp hf (by rw [hprocs]; exact hk)
        (huser n hn) (hcounted.takes_new habsent) (by omega) hmap hroom
      refine ⟨hcounted', hprocs'.trans hprocs, ?_⟩
      intro i hi hle
      rw [hleaf k _ (huser i hi), if_neg, hrest i hi (by omega)]
      rintro ⟨-, hsame⟩
      exact pageAddr_ne (by omega) (by omega) (by omega) hsame

end populate

/-! ### Runs -/

/-- A page fault, a call of `vma_populate`, or a read or write of a file whose loop ends within
`fuel` iterations. -/
inductive MemoryCall where
  | fault (k addr : Nat) (flags : FaultFlags)
  | populate (k : Nat) (vma : VmArea)
  | read (i count pos fuel : Nat)
  | write (i : Nat) (src : Nat → UInt8) (count pos fuel : Nat)

section runs
variable (pages : Nat → Nat) (frames : Frames) (limit frameLimit : Nat)

/-- One call; `none` where the machine stops or the loop has not ended. -/
def System.step (s : System) : MemoryCall → Option System
  | .fault k addr flags => kernelPageFault pages frames s k addr flags
  | .populate k vma => s.procs[k]?.bind fun mm => vmaPopulate pages frames s mm.pgtable vma
  | .read i count pos fuel => s.inodes[i]?.bind fun ino =>
      match genericFileRead fuel s.heap ino count pos with
      | .done w => some (s.setFile i w.heap w.ino)
      | _ => none
  | .write i src count pos fuel => s.inodes[i]?.bind fun ino =>
      match genericFileWrite fuel s.heap ino src count pos with
      | .done w => some (s.setFile i w.heap w.ino)
      | _ => none

/-- The call is at user addresses, and a fault is in an anonymous or ramfs area and described as the
hardware does. -/
def System.Described (s : System) : MemoryCall → Prop
  | .fault k addr flags => pml4FromVa addr < 256 ∧ (flags.protection = true ↔ Present (s.leaf k addr)) ∧
      ∀ mm ∈ s.procs[k]?, ∀ vma ∈ findVmaForAddress addr mm.vmAreas, vma.vmOps = .null ∨ vma.vmOps = .ramfs
  | .populate _ vma => ∀ i < vma.length / pageSize, pml4FromVa (vma.pageAddr i) < 256
  | .read _ _ pos _ => pos < 2 ^ 64
  | .write .. => True

/-- The call does not meet one of the cases that miscount. -/
def System.KeepsCounts (s : System) : MemoryCall → Prop
  | .fault k addr flags => ∀ mm ∈ s.procs[k]?, ∀ vma ∈ findVmaForAddress addr mm.vmAreas,
      FaultCounts frames s k addr flags vma
  | .populate k vma => PopulateCounts s k vma
  | .read i count pos _ => ∀ ino ∈ s.inodes[i]?, ino.size ≤ pos ∨ Stays ino.fMap pos count
  | .write i _ count pos _ => ∀ ino ∈ s.inodes[i]?, Stays ino.fMap pos count

/-- The pages that `alloc_pages` is known to return are enough for the call. -/
def System.Room (s : System) (c : MemoryCall) : Prop :=
  ∀ s' ∈ s.step pages frames c, s'.tables.next ≤ limit ∧ s'.heap.next ≤ frameLimit

instance (s : System) : DecidablePred s.Described
  | .fault .. => inferInstanceAs (Decidable (_ ∧ _))
  | .populate .. => inferInstanceAs (Decidable (∀ i < _, _))
  | .read .. => inferInstanceAs (Decidable (_ < _))
  | .write .. => inferInstanceAs (Decidable True)

instance (s : System) : DecidablePred (s.KeepsCounts frames)
  | .fault .. => inferInstanceAs (Decidable (∀ mm ∈ _, _))
  | .populate .. => inferInstanceAs (Decidable (PopulateCounts _ _ _))
  | .read .. => inferInstanceAs (Decidable (∀ ino ∈ _, _))
  | .write .. => inferInstanceAs (Decidable (∀ ino ∈ _, _))

instance (s : System) (c : MemoryCall) : Decidable (s.Room pages frames limit frameLimit c) :=
  inferInstanceAs (Decidable (∀ s' ∈ _, _))

variable {pages frames limit frameLimit} {s s' t : System}

theorem Counted.step (hp : Supply pages limit) (hf : FrameSupply frames frameLimit)
    (h : Counted pages frames limit frameLimit s) {c : MemoryCall} (hdescribed : s.Described c)
    (hkeeps : s.KeepsCounts frames c) (hroom : s.Room pages frames limit frameLimit c)
    (hstep : s.step pages frames c = some s') :
    Counted pages frames limit frameLimit s' := by
  obtain ⟨htables, hheap⟩ := hroom s' hstep
  cases c with
  | fault k addr flags =>
      have hfault : kernelPageFault pages frames s k addr flags = some s' := hstep
      obtain ⟨mm, hk, hrest⟩ := Option.bind_eq_some_iff.mp hfault
      obtain ⟨vma, harea, -⟩ := Option.bind_eq_some_iff.mp hrest
      exact h.fault hp hf hk harea hdescribed.1 hdescribed.2.1 (hkeeps mm hk vma harea) hfault htables hheap
  | populate k vma =>
      obtain ⟨mm, hk, hcall⟩ := Option.bind_eq_some_iff.mp hstep
      exact (h.populatePages hp hf hk hdescribed hkeeps (Nat.le_refl _) hcall htables hheap).1
  | read i count pos fuel =>
      obtain ⟨ino, hi, hcall⟩ := Option.bind_eq_some_iff.mp hstep
      split at hcall
      case h_1 w hdone =>
        obtain rfl := Option.some.inj hcall
        exact h.read hi hdescribed (hkeeps ino hi) hdone
      case h_2 => contradiction
  | write i src count pos fuel =>
      obtain ⟨ino, hi, hcall⟩ := Option.bind_eq_some_iff.mp hstep
      split at hcall
      case h_1 w hdone =>
        obtain rfl := Option.some.inj hcall
        exact h.write hi (hkeeps ino hi) hdone
      case h_2 => contradiction

theorem Counted.countsUsers (h : Counted pages frames limit frameLimit s) (hnext : s.heap.next ≤ frameLimit) :
    s.CountsUsers frames := by
  intro p hp
  rw [h.live p]
  exact h.counts p (lt_of_lt_of_le hp hnext) hp

/-- In every run that keeps clear of the calls that miscount, the counts are right in every state
reached, and no page is freed that is still held. -/
theorem run_counts_users (hp : Supply pages limit) (hf : FrameSupply frames frameLimit)
    (h : Counted pages frames limit frameLimit s) (hnext : s.heap.next ≤ frameLimit)
    {calls : List MemoryCall}
    (hg : Guarded (System.step pages frames) (fun s c => s.Described c ∧
      s.Room pages frames limit frameLimit c ∧ s.KeepsCounts frames c) s calls)
    (hrun : run (System.step pages frames) s calls = some t) : t.CountsUsers frames := by
  have hgood : Counted pages frames limit frameLimit t ∧ t.heap.next ≤ frameLimit := by
    refine run_guarded (fun s => Counted pages frames limit frameLimit s ∧ s.heap.next ≤ frameLimit)
      ?_ ⟨h, hnext⟩ hg hrun
    rintro s c s' ⟨hs, -⟩ ⟨hdescribed, hroom, hkeeps⟩ hstep
    exact ⟨hs.step hp hf hdescribed hkeeps hroom hstep, (hroom s' hstep).2⟩
  exact hgood.1.countsUsers hgood.2

end runs

/-! ### One file and one address space -/

theorem lowFrames_supply : FrameSupply lowFrames (2 ^ 30) := by
  constructor
  · intro p hp
    show pageFrame (wrap64 (0x200000 + p * 0x1000)) = 0x200000 + p * 0x1000
    rw [wrap64_of_lt (by omega)]
    exact pageFrame_of_page (by omega) (by omega)
  · intro p _ q _ hsame
    have hsame' : 0x200000 + p * 0x1000 = 0x200000 + q * 0x1000 := hsame
    omega
  · intro p hp q hfound
    have hin : 0x200000 ≤ lowFrames p ∧ lowFrames p < 0x200000 + 2 ^ 30 * 0x1000 := by
      show 0x200000 ≤ 0x200000 + p * 0x1000 ∧ 0x200000 + p * 0x1000 < 0x200000 + 2 ^ 30 * 0x1000
      omega
    have hpage : some ((lowFrames p - 0x200000) / 0x1000) = some q := (if_pos hin).symm.trans hfound
    have hindex : (0x200000 + p * 0x1000 - 0x200000) / 0x1000 = q := Option.some.inj hpage
    omega

theorem newSpace_users (areas : List VmArea) (heap : PageHeap) (inodes : List Inode) (frame : Nat) :
    (newSpace areas heap inodes).users frame = 0 := by
  apply Finset.card_eq_zero.mpr
  apply Finset.filter_eq_empty_iff.mpr
  rintro u - ⟨hpresent, -⟩
  rw [newSpace_leaf] at hpresent
  exact absurd hpresent (by decide)

/-- A file whose only page is page 0. -/
def onePage : Inode := ⟨1, 0, 4096, 0, 1, 4096, 1, ⟨[some 0], 1⟩⟩

def oneFile (areas : List VmArea) : System :=
  newSpace areas ⟨fun _ => ⟨fun _ => 0, pageUsageCache, 0, 1⟩, 1⟩ [onePage]

theorem oneFile_counted (areas : List VmArea) :
    Counted lowPages lowFrames (2 ^ 30) (2 ^ 30) (oneFile areas) := by
  have hrefs : ∀ p, (oneFile areas).refs lowFrames p = [some 0].count (some p) := by
    intro p
    have husers : (oneFile areas).users (lowFrames p) = 0 := newSpace_users ..
    rw [System.refs, husers, Nat.zero_add]
    exact Nat.add_zero _
  have hinodes : ∀ ino ∈ (oneFile areas).inodes, ino = onePage := fun _ hino => List.mem_singleton.mp hino
  refine ⟨newSpace_grounded .., ?_, ?_, fun _ => rfl, ?_, ?_⟩
  · intro p _ hp
    obtain rfl : p = 0 := Nat.lt_one_iff.mp hp
    rw [hrefs]
    rfl
  · intro p _ hp
    have hp' : 1 ≤ p := hp
    rw [hrefs, List.count_eq_zero]
    intro hmem
    have hzero : p = 0 := by simpa using hmem
    omega
  · intro k vaddr _ hpresent
    have hleaf : (oneFile areas).leaf k vaddr = 0 := newSpace_leaf ..
    rw [hleaf] at hpresent
    exact absurd hpresent (by decide)
  · intro ino hino p hp
    rw [hinodes ino hino] at hp
    have hzero : p = 0 := by simpa [onePage, countedSlots] using hp
    rw [hzero]
    exact Nat.one_pos

/-- A private page of the file at 4 MiB. -/
def privateArea (prot : Prot) : VmArea :=
  ⟨0x400000, 0x401000, 0x1000, prot, ⟨false, true, false, 0⟩, some ⟨1, 0, some .ramfs⟩, 0, 0, .ramfs⟩

/-- A read fault, a write to the file, and a write fault that copies the page. -/
def mapAndCopy : List MemoryCall :=
  [.fault 0 0x400000 ⟨false, false, true, false⟩, .write 0 (fun _ => 7) 10 100 1,
    .fault 0 0x400000 ⟨true, true, true, false⟩]

theorem run_counts_users_copy :
    ∃ t, run (System.step lowPages lowFrames) (oneFile [privateArea ⟨true, false, true, true, true, 0⟩])
      mapAndCopy = some t ∧ t.CountsUsers lowFrames := by
  have hdefined : (run (System.step lowPages lowFrames)
      (oneFile [privateArea ⟨true, false, true, true, true, 0⟩]) mapAndCopy).isSome := by decide +kernel
  obtain ⟨t, hrun⟩ := Option.isSome_iff_exists.mp hdefined
  refine ⟨t, hrun, run_counts_users lowPages_supply lowFrames_supply (oneFile_counted _) ?_ ?_ hrun⟩
  · exact Nat.one_le_two_pow
  · decide +kernel

/-- The page as code. -/
def codeArea : VmArea := privateArea ⟨true, false, true, true, false, 0⟩

/-- Populating an area of the file counts a user of its page and maps another frame. -/
theorem populated_file_miscounted :
    ∃ t, Counted lowPages lowFrames (2 ^ 30) (2 ^ 30) (oneFile []) ∧
      Guarded (System.step lowPages lowFrames) (fun s c => s.Described c ∧
        s.Room lowPages lowFrames (2 ^ 30) (2 ^ 30) c) (oneFile [])
        [.populate 0 codeArea] ∧
      run (System.step lowPages lowFrames) (oneFile [])
        [.populate 0 codeArea] = some t ∧
      ¬ t.CountsUsers lowFrames := by
  have hguarded : Guarded (System.step lowPages lowFrames) (fun s c => s.Described c ∧
      s.Room lowPages lowFrames (2 ^ 30) (2 ^ 30) c) (oneFile [])
      [.populate 0 codeArea] := by decide +kernel
  have hstep : (oneFile []).step lowPages lowFrames (.populate 0 codeArea) = ((oneFile []).pageRef 0).mapPage
      lowPages (lowPages 0) 0 (pageFrame (codeArea.pageAddr 0)) codeArea.prot := by
    have hlength : codeArea.length / pageSize = 1 := by decide
    show vmaPopulate lowPages lowFrames (oneFile []) (lowPages 0) codeArea = _
    unfold vmaPopulate
    rw [hlength]
    rfl
  have huser : pml4FromVa (pageFrame (codeArea.pageAddr 0)) < 256 := by decide +kernel
  have hground : ((oneFile []).pageRef 0).Grounded lowPages (2 ^ 30) := by
    obtain ⟨htables, hdistinct⟩ := (oneFile_counted []).grounded
    exact ⟨htables, hdistinct⟩
  obtain ⟨tables, hmap, -, hleaf⟩ := hground.mapPage lowPages_supply
    (show ((oneFile []).pageRef 0).procs[0]? = some ⟨lowPages 0, []⟩ from rfl) huser
    (fun s' hs' => (hguarded.1.2 s' (hstep.trans hs')).1)
  refine ⟨_, oneFile_counted [], hguarded, by rw [run, hstep, hmap]; rfl, ?_⟩
  intro hcounts
  have husers := @users_remap (oneFile []) { (oneFile []).pageRef 0 with tables := tables } 0
    (pageFrame (codeArea.pageAddr 0)) rfl Nat.one_pos huser _ hleaf (lowFrames 0)
  have hnone : (oneFile []).users (lowFrames 0) = 0 := newSpace_users ..
  have hentry : ¬ (Present (pteEntry 0 codeArea.prot) ∧ pageFrame (pteEntry 0 codeArea.prot) = lowFrames 0) := by
    decide +kernel
  rw [hnone, if_neg hentry] at husers
  have hcount : 2 = System.refs lowFrames { (oneFile []).pageRef 0 with tables := tables } 0 :=
    hcounts 0 Nat.one_pos
  have hslots : System.slots { (oneFile []).pageRef 0 with tables := tables } 0 = 1 := rfl
  rw [System.refs, hslots] at hcount
  omega

end Lucix.Mm
