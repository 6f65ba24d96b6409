import Lucix.PrivateMaps
import Lucix.Interleave

/-! The memory of all processes, over runs in which they take turns at `do_mmap` and at
accesses to what they have mapped. Pages are handed out when they are first touched, from
one supply for all processes and their tables, and each process sees what it would see
alone. -/
namespace Lucix.Mm
open PageTable FileIo Execution PagedBytes

/-! ### One process alone -/

/-- The areas of a process, and the last byte that it has written to an address. -/
structure Space where
  areas : List VmArea
  written : Nat → Option UInt8

inductive MemCall where
  | mmap (c : MmapCall)
  | access (a : Access)

inductive MemRet where
  | mapped (start : Nat)
  | byte (b : UInt8)
  | stored
  deriving DecidableEq, Repr

/-- A task that has mapped nothing yet. -/
def Space.empty : Space := ⟨[], fun _ => none⟩

def Space.store (m : Space) (addr : Nat) (b : UInt8) : Space :=
  { m with written := Function.update m.written addr (some b) }

section space
variable (s₀ : System)

/-- The byte of an area before any write: that of the mapped file, or 0. -/
def System.initial (vma : VmArea) (addr : Nat) : UInt8 :=
  (vma.file.bind fun file => s₀.inodes[file.ino]?).elim 0 fun ino => vma.fileByte s₀.heap ino.fMap addr

def Space.step (m : Space) : MemCall → Option (MemRet × Space)
  | .mmap c => (mapArea m.areas c).map fun (start, areas) => (.mapped start, { m with areas := areas })
  | .access (.read addr) => (findVmaForAddress addr m.areas).map fun vma =>
      (.byte ((m.written addr).getD (s₀.initial vma addr)), m)
  | .access (.write addr b) => (findVmaForAddress addr m.areas).map fun _ => (.stored, m.store addr b)

/-- What is mapped has its contents: the object that becomes an anonymous area holds no `vm_ops`,
and the pages of a ramfs file are in its cache. -/
def MmapCall.Backed (c : MmapCall) : Option File → Prop
  | none => c.object.vmOps = .null
  | some file => file.mmap = some .ramfs ∧ ∃ ino ∈ s₀.inodes[file.ino]?,
      ∀ i < c.rounded / pageSize, ∃ p ∈ (ino.fMap.pages[i + c.pgoff]?).join, p < s₀.heap.next

instance (c : MmapCall) : DecidablePred (c.Backed s₀)
  | none => inferInstanceAs (Decidable (_ = _))
  | some _ => inferInstanceAs (Decidable (_ ∧ _))

/-- The call is for user memory at whole pages, of which none is populated. -/
def MmapCall.Plain (c : MmapCall) : Prop :=
  c.prot.user = true ∧ c.flags.populate = false ∧ c.addr % pageSize = 0 ∧ c.Backed s₀ c.file

instance (c : MmapCall) : Decidable (c.Plain s₀) := inferInstanceAs (Decidable (_ ∧ _))

/-- A call that finds its place, a read of what is mapped, or a write to anonymous memory. -/
def Space.Allowed (m : Space) : MemCall → Prop
  | .mmap c => c.Fits m.areas ∧ c.Plain s₀
  | .access (.read addr) => (findVmaForAddress addr m.areas).isSome
  | .access (.write addr _) => ∃ vma ∈ findVmaForAddress addr m.areas, vma.file = none

instance (m : Space) : DecidablePred (m.Allowed s₀)
  | .mmap _ => inferInstanceAs (Decidable (_ ∧ _))
  | .access (.read _) => inferInstanceAs (Decidable (_ = _))
  | .access (.write ..) => inferInstanceAs (Decidable (∃ vma ∈ _, _))

end space

/-! ### The machine -/

section machine
variable (pages : Nat → Nat) (frames : Frames)

/-- The access that the hardware performs in a frame. -/
def System.perform (s : System) (frame : Nat) (a : Access) : Option (MemRet × System) :=
  (s.pageAt frames frame).map fun p =>
    match a with
    | .read addr => (.byte ((s.heap.pages p).bytes (addr % pageSize)), s)
    | .write addr b => (.stored, s.storeByte p (addr % pageSize) b)

/-- An access. When it traps, it is executed again after `kernel_page_fault`. -/
def System.access (k : Nat) (a : Access) : Nat → System → Option (MemRet × System)
  | 0, s => (s.walk (Permits a.isWrite) k a.addr).bind fun frame => s.perform frames frame a
  | fuel + 1, s =>
      match s.walk (Permits a.isWrite) k a.addr with
      | some frame => s.perform frames frame a
      | none => (s.trap pages frames k a.addr a.isWrite).bind (System.access k a fuel)

/-- One call of the process with number `k`. -/
def System.memStep (fuel : Nat) (s : System) : Nat × MemCall → Option (MemRet × System)
  | (k, .mmap c) => (doMmap pages frames s k c).map fun (start, s) => (.mapped start, s)
  | (k, .access a) => s.access pages frames k a fuel

/-- The process is there, and the pages that `alloc_pages` is known to return are enough for the fault
of an access, if it raises one. -/
def System.HasRoom (limit frameLimit : Nat) (s : System) : Nat × MemCall → Prop
  | (k, .mmap _) => k < s.procs.length
  | (k, .access a) => k < s.procs.length ∧ (s.walk (Permits a.isWrite) k a.addr = none →
      ∀ s' ∈ s.trap pages frames k a.addr a.isWrite, s'.tables.next ≤ limit ∧ s'.heap.next ≤ frameLimit)

instance (limit frameLimit : Nat) (s : System) : DecidablePred (s.HasRoom pages frames limit frameLimit)
  | (_, .mmap _) => inferInstanceAs (Decidable (_ < _))
  | (_, .access _) => inferInstanceAs (Decidable (_ ∧ (_ → ∀ s' ∈ _, _)))

end machine

/-! ### Areas of whole pages -/

/-- What the calls make of an area. -/
structure VmArea.Plain (s₀ : System) (vma : VmArea) : Prop where
  aligned : vma.start % pageSize = 0
  whole : vma.endAddr % pageSize = 0
  user : vma.prot.user = true
  kind : vma.file = none ∧ vma.vmOps = .null ∨
    vma.vmOps = .ramfs ∧ ∃ file ino, vma.file = some file ∧ s₀.inodes[file.ino]? = some ino ∧
      ∀ addr, vma.Contains addr → ∃ p < s₀.heap.next,
        ino.fMap.pages[pgoffset vma addr + vma.fpgOff]? = some (some p)

/-- The areas of a process between two calls. -/
structure Space.Sound (s₀ : System) (m : Space) : Prop where
  laid : WellLaid m.areas
  apart : Apart m.areas
  plain : ∀ vma ∈ m.areas, vma.Plain s₀

section areas
variable {areas : List VmArea} {s₀ : System} {vma : VmArea} {addr addr' : Nat} {m : Space} {c : MmapCall}

theorem WellLaid.find_iff (h : WellLaid areas) :
    findVmaForAddress addr areas = some vma ↔ vma ∈ areas ∧ vma.Contains addr := by
  constructor
  · exact findVmaForAddress_some
  · rintro ⟨hmem, hin⟩
    cases hfind : findVmaForAddress addr areas with
    | none => exact absurd hin (findVmaForAddress_none hfind hmem)
    | some b =>
        obtain ⟨hb, hinb⟩ := findVmaForAddress_some hfind
        rw [h.unique hmem hb hin hinb]

theorem Space.Sound.below (h : m.Sound s₀) (hfind : findVmaForAddress addr m.areas = some vma) :
    addr < x86Limit := by
  obtain ⟨hmem, -, hlt⟩ := findVmaForAddress_some hfind
  exact lt_of_lt_of_le hlt (h.laid.bounds vma hmem).2

theorem user_of_below (h : addr < x86Limit) : pml4FromVa addr < 256 := by
  rw [pml4FromVa_eq]
  unfold x86Limit at h
  omega

/-- An area has all addresses of a page or none. -/
theorem Space.Sound.find_congr (h : m.Sound s₀) (hfind : findVmaForAddress addr m.areas = some vma)
    (hlow : addr' < x86Limit) (hsame : pageFrame addr' = pageFrame addr) :
    findVmaForAddress addr' m.areas = some vma := by
  have hlow' := h.below hfind
  obtain ⟨hmem, hge, hlt⟩ := h.laid.find_iff.mp hfind
  obtain ⟨haligned, hwhole, -, -⟩ := h.plain vma hmem
  refine h.laid.find_iff.mpr ⟨hmem, ?_⟩
  rw [pageFrame_eq, pageFrame_eq] at hsame
  unfold x86Limit at hlow hlow'
  unfold pageSize at haligned hwhole
  constructor <;> omega

theorem eq_of_samePage (hlow : addr < x86Limit) (hlow' : addr' < x86Limit)
    (hsame : pageFrame addr' = pageFrame addr) (hoff : addr' % pageSize = addr % pageSize) : addr' = addr := by
  rw [pageFrame_eq, pageFrame_eq] at hsame
  unfold x86Limit at hlow hlow'
  unfold pageSize at hoff
  omega

theorem assignVmaVaddr_aligned {len low : Nat} {r : Nat × Nat} (hlow : low % pageSize = 0)
    (hareas : ∀ a ∈ areas, a.endAddr % pageSize = 0) (h : assignVmaVaddr len low areas = some r) :
    r.1 % pageSize = 0 := by
  have hplace : ∀ gapStart, gapStart % pageSize = 0 → (placeInGap gapStart len).1 % pageSize = 0 := by
    intro gapStart hgap
    unfold placeInGap wrap64
    unfold pageSize at hgap ⊢
    omega
  induction areas generalizing low with
  | nil => contradiction
  | cons area rest ih =>
      have hend := hareas area List.mem_cons_self
      unfold assignVmaVaddr at h
      dsimp only at h
      by_cases hprev : sub64 area.start low > wrap64 (len + pageSize * 2)
      · rw [if_pos hprev] at h
        obtain rfl := Option.some.inj h
        exact hplace low hlow
      · rw [if_neg hprev] at h
        split at h
        all_goals
          split at h
          · obtain rfl := Option.some.inj h
            exact hplace area.endAddr hend
          · exact ih hend (fun a ha => hareas a (List.mem_cons_of_mem _ ha)) h

/-- The place of a call that fits is the one it asked for, or one that was found. -/
theorem MmapCall.Fits.place_cases (hwl : WellLaid areas) (h : c.Fits areas) :
    (c.place areas).1 = c.addr ∨ cpuAssignVmaVaddr areas c.rounded = some (c.place areas) := by
  by_cases hhint : c.addr ≠ 0 ∧ isValidVaddrForVma areas c.addr c.rounded = true
  · left
    rw [MmapCall.place, if_pos hhint]
  · right
    have hcase := h.2
    rw [if_neg hhint] at hcase
    rw [MmapCall.place, if_neg hhint]
    cases hassign : cpuAssignVmaVaddr areas c.rounded with
    | some r => rfl
    | none =>
        exfalso
        cases areas with
        | nil => exact hcase
        | cons first rest =>
            dsimp only at hcase
            by_cases hbelow : first.start < x86LowLimit
            · rw [if_pos hbelow] at hcase
              have hlimit := hcase.1
              have htaken : sub64 first.start x86LowLimit > wrap64 (c.rounded + pageSize * 2) := by
                unfold x86Limit x86LowLimit pageSize at *
                rw [sub64, wrap64_of_lt (by omega), Nat.mod_eq_of_lt (by omega)]
                omega
              unfold cpuAssignVmaVaddr assignVmaVaddr at hassign
              rw [if_pos htaken] at hassign
              contradiction
            · rw [if_neg hbelow] at hcase
              have hlow : ∀ a ∈ first :: rest, x86LowLimit ≤ a.start := by
                intro a ha
                have hnonempty := (hwl.bounds first List.mem_cons_self).1
                rcases List.mem_cons.mp ha with rfl | ha'
                · omega
                · have := hwl.above a ha'
                  omega
              obtain ⟨start, hstart, -⟩ := assignVmaVaddr_gap (List.cons_ne_nil _ _) hwl hlow hcase
              rw [cpuAssignVmaVaddr, hstart] at hassign
              contradiction

theorem rounded_aligned (c : MmapCall) : c.rounded % pageSize = 0 := by
  unfold MmapCall.rounded wrap64 pageSize
  omega

theorem MmapCall.Plain.area (h : c.Plain s₀) (hfits : c.Fits m.areas) (hm : m.Sound s₀) :
    (c.area m.areas).Plain s₀ := by
  obtain ⟨huser, -, haddr, hbacked⟩ := h
  obtain ⟨-, -, -, hend⟩ := mapArea_fits hm.laid hm.apart hfits
  have hlands := (hfits.place hm.laid).2.1
  have hstart : (c.area m.areas).start % pageSize = 0 := by
    rcases hfits.place_cases hm.laid with hhint | hfound
    · show (c.place m.areas).1 % pageSize = 0
      rw [hhint]
      exact haddr
    · exact assignVmaVaddr_aligned (by decide) (fun a ha => (hm.plain a ha).whole) hfound
  have hrounded := rounded_aligned c
  refine ⟨hstart, ?_, ?_, ?_⟩
  · rw [hend, Nat.add_mod, hstart, hrounded]
    rfl
  · show c.storedProt.user = true
    unfold MmapCall.storedProt
    split_ifs <;> exact huser
  · cases hfile : c.file with
    | none =>
        left
        rw [hfile] at hbacked
        refine ⟨hfile, ?_⟩
        show (c.file.bind File.mmap).getD c.object.vmOps = .null
        rw [hfile]
        exact hbacked
    | some file =>
        right
        rw [hfile] at hbacked
        obtain ⟨hmmap, ino, hino, hslots⟩ := hbacked
        refine ⟨?_, file, ino, hfile, hino, fun addr hin => ?_⟩
        · show (c.file.bind File.mmap).getD c.object.vmOps = .ramfs
          rw [hfile, Option.bind_some, hmmap]
          rfl
        · have hlow : (c.area m.areas).endAddr ≤ x86Limit := hend.trans_le hlands
          have hindex : pgoffset (c.area m.areas) addr < c.rounded / pageSize := by
            rw [pgoffset_eq hlow hin]
            obtain ⟨hge, hlt⟩ := hin
            rw [hend] at hlt
            unfold pageSize at *
            omega
          obtain ⟨p, hp, hlt⟩ := hslots _ hindex
          exact ⟨p, hlt, Option.join_eq_some_iff.mp hp⟩

theorem Space.Sound.mmap (hm : m.Sound s₀) (hfits : c.Fits m.areas) (hplain : c.Plain s₀) :
    Space.Sound s₀ { m with areas := insertSorted (c.area m.areas) m.areas } := by
  obtain ⟨-, hlaid, hapart, -⟩ := mapArea_fits hm.laid hm.apart hfits
  refine ⟨hlaid, hapart, fun vma hvma => ?_⟩
  rcases mem_insertSorted.mp hvma with rfl | hold
  · exact hplain.area hfits hm
  · exact hm.plain vma hold

end areas

/-! ### What the tables and the pages say -/

/-- The process maps a page at an address of the user half. -/
def System.MapsPage (frames : Frames) (s : System) (k addr p : Nat) : Prop :=
  addr < x86Limit ∧ p < s.heap.next ∧ Present (s.leaf k addr) ∧ pageFrame (s.leaf k addr) = frames p

/-- The page belongs at the address of the area: it was handed out for an anonymous area, or it is
the page of the file. -/
def System.Belongs (s₀ : System) (vma : VmArea) (addr p : Nat) : Prop :=
  vma.file = none ∧ s₀.heap.next ≤ p ∨ s₀.cacheSlot vma (pgoffset vma addr) = some (some p) ∧ p < s₀.heap.next

/-- The system shows every process the memory that it would see alone. -/
structure Shown (pages : Nat → Nat) (frames : Frames) (limit frameLimit : Nat) (s₀ s : System)
    (m : Nat → Space) : Prop where
  grounded : s.Grounded pages limit
  few : s.heap.next ≤ frameLimit
  older : s₀.heap.next ≤ s.heap.next
  inodes : s.inodes = s₀.inodes
  kept : ∀ p < s₀.heap.next, (s.heap.pages p).bytes = (s₀.heap.pages p).bytes
  areas : ∀ k, ∀ mm ∈ s.procs[k]?, mm.vmAreas = (m k).areas
  sound : ∀ k, (m k).Sound s₀
  entries : ∀ k addr, addr < x86Limit → Present (s.leaf k addr) →
    Writable (s.leaf k addr) ∧ UserBit (s.leaf k addr) ∧ ∃ p, s.MapsPage frames k addr p
  belongs : ∀ k addr p, s.MapsPage frames k addr p →
    ∃ vma ∈ findVmaForAddress addr (m k).areas, s₀.Belongs vma addr p
  alone : ∀ k addr k' addr' p, s₀.heap.next ≤ p → s.MapsPage frames k addr p → s.MapsPage frames k' addr' p →
    k' = k ∧ pageFrame addr' = pageFrame addr
  untouched : ∀ k addr, addr < x86Limit → ¬ Present (s.leaf k addr) → (m k).written addr = none
  shows : ∀ k addr p vma, s.MapsPage frames k addr p → findVmaForAddress addr (m k).areas = some vma →
    ((m k).written addr).getD (s₀.initial vma addr) = (s.heap.pages p).bytes (addr % pageSize)

section steps
variable {pages : Nat → Nat} {frames : Frames} {limit frameLimit : Nat} {s₀ s s₁ s' : System} {m : Nat → Space}
  {k addr p : Nat} {vma : VmArea} {mm : ProcMm} {c : MmapCall}

/-- The first byte of anonymous memory, and of a page of a file. -/
theorem initial_anonymous (hfile : vma.file = none) (addr : Nat) : s₀.initial vma addr = 0 := by
  rw [System.initial, hfile]
  rfl

theorem initial_file (hplain : vma.Plain s₀) (hlow : vma.endAddr ≤ x86Limit) (hin : vma.Contains addr)
    (hslot : s₀.cacheSlot vma (pgoffset vma addr) = some (some p)) :
    s₀.initial vma addr = (s₀.heap.pages p).bytes (addr % pageSize) := by
  rcases hplain.kind with ⟨hfile, -⟩ | ⟨-, file, ino, hfile, hino, -⟩
  · rw [System.cacheSlot, hfile] at hslot
    contradiction
  · rw [cacheSlot_eq hfile hino] at hslot
    rw [System.initial, hfile, Option.bind_some, hino]
    exact fileByte_eq hplain.aligned hlow hin _ hslot

theorem System.MapsPage.same (hf : FrameSupply frames frameLimit) (hfew : s.heap.next ≤ frameLimit) {q : Nat}
    (h : s.MapsPage frames k addr p) (hq : q < s.heap.next) (hframe : pageFrame (s.leaf k addr) = frames q) :
    q = p := by
  obtain ⟨-, hp, -, hpage⟩ := h
  exact hf.different q (by omega) p (by omega) (hframe.symm.trans hpage)

/-- A page belongs at all addresses of a page of the area. -/
theorem System.Belongs.congr (hplain : vma.Plain s₀) (hlow : vma.endAddr ≤ x86Limit) (hin : vma.Contains addr)
    {addr' : Nat} (hin' : vma.Contains addr') (hsame : pageFrame addr' = pageFrame addr)
    (h : s₀.Belongs vma addr p) : s₀.Belongs vma addr' p := by
  rw [System.Belongs, pgoffset_congr hplain.aligned hlow hin hin' hsame]
  exact h

theorem Shown.maps_cases (hf : FrameSupply frames frameLimit) (h : Shown pages frames limit frameLimit s₀ s m)
    {prot : Prot} (hp : p < s'.heap.next) (hfew : s'.heap.next ≤ frameLimit) (hnext : s.heap.next ≤ s'.heap.next)
    (hset : ∀ k' vaddr', pml4FromVa vaddr' < 256 → s'.leaf k' vaddr' =
      if k' = k ∧ pageFrame vaddr' = pageFrame addr then pteEntry (frames p) prot else s.leaf k' vaddr')
    {k' addr' q : Nat} (hmaps : s'.MapsPage frames k' addr' q) :
    (k' = k ∧ pageFrame addr' = pageFrame addr ∧ q = p) ∨
      ¬ (k' = k ∧ pageFrame addr' = pageFrame addr) ∧ s.MapsPage frames k' addr' q := by
  obtain ⟨hlow, hq, hpresent, hframe⟩ := hmaps
  rw [hset k' addr' (user_of_below hlow)] at hpresent hframe
  by_cases hsame : k' = k ∧ pageFrame addr' = pageFrame addr
  · left
    rw [if_pos hsame, pteEntry_pageFrame, hf.valid p (by omega)] at hframe
    exact ⟨hsame.1, hsame.2, hf.different q (by omega) p (by omega) hframe.symm⟩
  · right
    rw [if_neg hsame] at hpresent hframe
    obtain ⟨-, -, r, hr⟩ := h.entries k' addr' hlow hpresent
    obtain rfl := hf.different q (by omega) r (by have := hr.2.1; omega) (hframe.symm.trans hr.2.2.2)
    exact ⟨hsame, hr⟩

theorem Shown.remap (hp : Supply pages limit) (hf : FrameSupply frames frameLimit)
    (h : Shown pages frames limit frameLimit s₀ s m) (hk : s.procs[k]? = some mm)
    (hfind : findVmaForAddress addr (m k).areas = some vma) (habsent : ¬ Present (s.leaf k addr))
    {prot : Prot} (huser : prot.user = true) (hbelongs : s₀.Belongs vma addr p)
    (hfresh : s₀.heap.next ≤ p → p = s.heap.next ∧ (s₁.heap.pages p).bytes = fun _ => 0)
    (hpage : p < s₁.heap.next) (hnext : s.heap.next ≤ s₁.heap.next)
    (hkept : ∀ q < s.heap.next, (s₁.heap.pages q).bytes = (s.heap.pages q).bytes)
    (htables : s₁.tables = s.tables) (hprocs : s₁.procs = s.procs) (hinodes : s₁.inodes = s.inodes)
    (hmap : s₁.mapPage pages mm.pgtable (frames p) (pageFrame addr) prot = some s')
    (hroom : s'.tables.next ≤ limit) (hfew : s'.heap.next ≤ frameLimit) :
    Shown pages frames limit frameLimit s₀ s' m ∧ ∀ write, Permits write (s'.leaf k addr) := by
  have hlow := (h.sound k).below hfind
  obtain ⟨hground', hset⟩ := h.grounded.remap hp hk (user_of_below hlow) htables hprocs hmap hroom
  obtain ⟨t, -, rfl⟩ := Option.map_eq_some_iff.mp hmap
  have hcases := @Shown.maps_cases _ _ _ _ _ _ { s₁ with tables := t } _ k addr p hf h prot hpage hfew hnext hset
  have hself : ∀ addr', addr' < x86Limit → pageFrame addr' = pageFrame addr →
      ({ s₁ with tables := t } : System).leaf k addr' = pteEntry (frames p) prot := by
    intro addr' hlow' hsame
    rw [hset k addr' (user_of_below hlow'), if_pos ⟨rfl, hsame⟩]
  have hother : ∀ k' addr', addr' < x86Limit → ¬ (k' = k ∧ pageFrame addr' = pageFrame addr) →
      ({ s₁ with tables := t } : System).leaf k' addr' = s.leaf k' addr' := by
    intro k' addr' hlow' hne
    rw [hset k' addr' (user_of_below hlow'), if_neg hne]
  have hold : ∀ k' addr' q, ¬ (k' = k ∧ pageFrame addr' = pageFrame addr) → s.MapsPage frames k' addr' q →
      ({ s₁ with tables := t } : System).MapsPage frames k' addr' q := by
    rintro k' addr' q hne ⟨hlow', hq, hpresent, hframe⟩
    rw [← hother k' addr' hlow' hne] at hpresent hframe
    exact ⟨hlow', lt_of_lt_of_le hq hnext, hpresent, hframe⟩
  have hfind' : ∀ addr', addr' < x86Limit → pageFrame addr' = pageFrame addr →
      findVmaForAddress addr' (m k).areas = some vma := fun addr' hlow' hsame =>
    (h.sound k).find_congr hfind hlow' hsame
  refine ⟨⟨hground', hfew, h.older.trans hnext, hinodes.trans h.inodes, ?_, ?_, h.sound, ?_, ?_, ?_, ?_, ?_⟩, ?_⟩
  · intro q hq
    exact (hkept q (lt_of_lt_of_le hq h.older)).trans (h.kept q hq)
  · intro k' mm' hk'
    refine h.areas k' mm' ?_
    rw [← hprocs]
    exact hk'
  · intro k' addr' hlow' hpresent
    by_cases hsame : k' = k ∧ pageFrame addr' = pageFrame addr
    · obtain ⟨rfl, hsame⟩ := hsame
      have hleaf := hself addr' hlow' hsame
      refine ⟨hleaf ▸ pteEntry_writable _ _, ?_, p, hlow', hpage, hpresent, ?_⟩
      · rw [hleaf, pteEntry_userBit]
        exact huser
      · rw [hleaf, pteEntry_pageFrame, hf.valid p (lt_of_lt_of_le hpage hfew)]
    · rw [hother k' addr' hlow' hsame] at hpresent ⊢
      obtain ⟨hwritable, hbit, q, hq⟩ := h.entries k' addr' hlow' hpresent
      exact ⟨hwritable, hbit, q, hold k' addr' q hsame hq⟩
  · intro k' addr' q hmaps
    rcases hcases hmaps with ⟨rfl, hsame, rfl⟩ | ⟨-, hq⟩
    · have hfound := hfind' addr' hmaps.1 hsame
      obtain ⟨hmem, hin'⟩ := (h.sound k').laid.find_iff.mp hfound
      have hin := ((h.sound k').laid.find_iff.mp hfind).2
      exact ⟨vma, hfound, hbelongs.congr ((h.sound k').plain vma hmem) ((h.sound k').laid.bounds vma hmem).2 hin
        hin' hsame⟩
    · exact h.belongs k' addr' q hq
  · intro k₁ addr₁ k₂ addr₂ q hq hmaps₁ hmaps₂
    rcases hcases hmaps₁ with ⟨rfl, hsame₁, rfl⟩ | ⟨hne₁, hq₁⟩
    · rcases hcases hmaps₂ with ⟨rfl, hsame₂, -⟩ | ⟨hne₂, hq₂⟩
      · exact ⟨rfl, hsame₂.trans hsame₁.symm⟩
      · have hnew := (hfresh hq).1
        have hlt := hq₂.2.1
        omega
    · rcases hcases hmaps₂ with ⟨rfl, hsame₂, rfl⟩ | ⟨hne₂, hq₂⟩
      · have hnew := (hfresh hq).1
        have hlt := hq₁.2.1
        omega
      · exact h.alone k₁ addr₁ k₂ addr₂ q hq hq₁ hq₂
  · intro k' addr' hlow' hpresent
    by_cases hsame : k' = k ∧ pageFrame addr' = pageFrame addr
    · obtain ⟨rfl, hsame⟩ := hsame
      rw [hself addr' hlow' hsame] at hpresent
      exact absurd (pteEntry_present _ _) hpresent
    · rw [hother k' addr' hlow' hsame] at hpresent
      exact h.untouched k' addr' hlow' hpresent
  · intro k' addr' q vma' hmaps hfound
    rcases hcases hmaps with ⟨rfl, hsame, rfl⟩ | ⟨-, hq⟩
    · obtain rfl := Option.some.inj (hfound.symm.trans (hfind' addr' hmaps.1 hsame))
      obtain ⟨hmem, hin'⟩ := (h.sound k').laid.find_iff.mp hfound
      have hin := ((h.sound k').laid.find_iff.mp hfind).2
      have hplain := (h.sound k').plain vma' hmem
      have hend := ((h.sound k').laid.bounds vma' hmem).2
      have hnone : (m k').written addr' = none := by
        refine h.untouched k' addr' hmaps.1 ?_
        rw [System.leaf_congr hsame]
        exact habsent
      rw [hnone, Option.getD_none]
      rcases hbelongs.congr hplain hend hin hin' hsame with ⟨hfile, hle⟩ | ⟨hslot, hlt⟩
      · rw [initial_anonymous hfile, (hfresh hle).2]
      · rw [initial_file hplain hend hin' hslot, ← h.kept q hlt]
        exact congrFun (hkept q (lt_of_lt_of_le hlt h.older)).symm _
    · rw [h.shows k' addr' q vma' hq hfound]
      exact congrFun (hkept q hq.2.1).symm _
  · intro write
    rw [hself addr hlow rfl]
    refine ⟨pteEntry_present _ _, ?_, fun _ => pteEntry_writable _ _⟩
    rw [pteEntry_userBit]
    exact huser

/-- An access that finds no page: the fault maps one. -/
theorem Shown.trap (hp : Supply pages limit) (hf : FrameSupply frames frameLimit)
    (h : Shown pages frames limit frameLimit s₀ s m) (hk : s.procs[k]? = some mm)
    (hfind : findVmaForAddress addr (m k).areas = some vma) (habsent : ¬ Present (s.leaf k addr)) (write : Bool) :
    ∃ s', s.trap pages frames k addr write = some s' ∧ s'.procs = s.procs ∧
      (s'.tables.next ≤ limit → s'.heap.next ≤ frameLimit →
        Shown pages frames limit frameLimit s₀ s' m ∧ ∀ write, Permits write (s'.leaf k addr)) := by
  obtain ⟨hmem, hin⟩ := (h.sound k).laid.find_iff.mp hfind
  have hplain := (h.sound k).plain vma hmem
  have hlow := (h.sound k).below hfind
  have hwalk : (s.walk Present k addr).isSome = false := by
    rw [← Bool.not_eq_true, h.grounded.walk_present hk (user_of_below hlow)]
    exact habsent
  unfold System.trap kernelPageFault
  rw [hk, Option.bind_some, h.areas k mm hk, hfind, Option.bind_some, hwalk]
  have huser : ∀ flags, (faultProt vma flags).user = true := fun flags =>
    (faultProt_user vma flags).trans hplain.user
  rcases hplain.kind with ⟨hfile, hops⟩ | ⟨hops, file, ino, hfile, hino, hslots⟩
  · -- a new page
    have hhandler : faultHandler frames s mm.pgtable vma addr ⟨false, write, true, false⟩ =
        some (some s.heap.next, s.allocPage.2.pageRef s.heap.next) := by
      unfold faultHandler
      rw [hops]
      rfl
    rw [hhandler, Option.bind_some]
    have hmap := System.mapPage_eq pages (s.allocPage.2.pageRef s.heap.next) mm.pgtable (frames s.heap.next)
      (pageFrame addr) (faultProt vma ⟨false, write, true, false⟩)
    refine ⟨_, hmap, rfl, fun hroom hfew => ?_⟩
    refine h.remap hp hf hk hfind habsent (huser _) (.inl ⟨hfile, h.older⟩) (fun _ => ⟨rfl, ?_⟩) ?_ ?_ ?_ ?_ ?_ ?_
      hmap hroom hfew
    · rw [pageRef_bytes]
      simp [System.allocPage, PageHeap.allocPage, PageHeap.setPage]
    · exact Nat.lt_succ_self _
    · exact Nat.le_succ _
    · intro q hq
      rw [pageRef_bytes]
      have hne : q ≠ s.heap.next := by omega
      simp [System.allocPage, PageHeap.allocPage, PageHeap.setPage, hne]
    all_goals rfl
  · -- the page of the file
    obtain ⟨p, hlt, hslot⟩ := hslots addr hin
    have hcache : s.cacheSlot vma (pgoffset vma addr) = some (some p) := by
      rw [cacheSlot_eq hfile (by rw [h.inodes]; exact hino)]
      exact hslot
    have hhandler : faultHandler frames s mm.pgtable vma addr ⟨false, write, true, false⟩ =
        some (some p, s.pageRef p) := by
      unfold faultHandler ramfsVmaFault
      rw [hops]
      dsimp only
      rw [hcache]
      rfl
    rw [hhandler, Option.bind_some]
    have hmap := System.mapPage_eq pages (s.pageRef p) mm.pgtable (frames p) (pageFrame addr)
      (faultProt vma ⟨false, write, true, false⟩)
    refine ⟨_, hmap, rfl, fun hroom hfew => ?_⟩
    refine h.remap hp hf hk hfind habsent (huser _) (.inr ⟨?_, hlt⟩) (fun hle => ?_) ?_ ?_ ?_ ?_ ?_ ?_ hmap hroom
      hfew
    · rw [cacheSlot_eq hfile hino]
      exact hslot
    · omega
    · exact lt_of_lt_of_le hlt h.older
    · exact Nat.le_refl _
    · exact fun q _ => pageRef_bytes s p q
    all_goals rfl

theorem Shown.store (hf : FrameSupply frames frameLimit) (h : Shown pages frames limit frameLimit s₀ s m)
    (hmaps : s.MapsPage frames k addr p) (hnew : s₀.heap.next ≤ p) (b : UInt8) :
    Shown pages frames limit frameLimit s₀ (s.storeByte p (addr % pageSize) b)
      (Function.update m k ((m k).store addr b)) := by
  have hbytes : ∀ q, ((s.storeByte p (addr % pageSize) b).heap.pages q).bytes =
      if q = p then Function.update (s.heap.pages p).bytes (addr % pageSize) b else (s.heap.pages q).bytes := by
    intro q
    by_cases hq : q = p
    · simp [System.storeByte, PageHeap.setPage, hq]
    · simp [System.storeByte, PageHeap.setPage, hq]
  have hwritten : ∀ k' addr', (Function.update m k ((m k).store addr b) k').written addr' =
      if k' = k ∧ addr' = addr then some b else (m k').written addr' := by
    intro k' addr'
    by_cases hk' : k' = k
    · subst hk'
      simp [Space.store, Function.update_apply]
    · simp [hk']
  have hareas : ∀ k', (Function.update m k ((m k).store addr b) k').areas = (m k').areas := by
    intro k'
    by_cases hk' : k' = k
    · subst hk'
      simp [Space.store]
    · simp [hk']
  refine ⟨⟨h.grounded.tables, h.grounded.distinct⟩, h.few, h.older, h.inodes, ?_, ?_, ?_, h.entries, ?_, h.alone,
    ?_, ?_⟩
  · intro q hq
    rw [hbytes, if_neg (by omega)]
    exact h.kept q hq
  · intro k' mm hk'
    rw [hareas]
    exact h.areas k' mm hk'
  · intro k'
    obtain ⟨hlaid, hapart, hplain⟩ := h.sound k'
    rw [← hareas k'] at hlaid hapart hplain
    exact ⟨hlaid, hapart, hplain⟩
  · intro k' addr' q hmaps'
    rw [hareas]
    exact h.belongs k' addr' q hmaps'
  · intro k' addr' hlow' habsent
    rw [hwritten, if_neg]
    · exact h.untouched k' addr' hlow' habsent
    · rintro ⟨rfl, rfl⟩
      exact habsent hmaps.2.2.1
  · intro k' addr' q vma' hmaps' hfind'
    rw [hareas] at hfind'
    rw [hwritten, hbytes]
    by_cases hsame : k' = k ∧ addr' = addr
    · obtain ⟨rfl, rfl⟩ := hsame
      obtain rfl := hmaps.same hf h.few hmaps'.2.1 hmaps'.2.2.2
      rw [if_pos ⟨rfl, rfl⟩, if_pos rfl, Function.update_self, Option.getD_some]
    · rw [if_neg hsame, h.shows k' addr' q vma' hmaps' hfind']
      by_cases hq : q = p
      · subst hq
        rw [if_pos rfl, Function.update_of_ne]
        intro hoff
        obtain ⟨rfl, hframe⟩ := h.alone k addr k' addr' q hnew hmaps hmaps'
        exact hsame ⟨rfl, eq_of_samePage hmaps.1 hmaps'.1 hframe hoff⟩
      · rw [if_neg hq]

theorem Shown.perform (hf : FrameSupply frames frameLimit) (h : Shown pages frames limit frameLimit s₀ s m)
    {a : Access} (hallowed : (m k).Allowed s₀ (.access a)) (hpresent : Present (s.leaf k a.addr)) :
    ∃ r x s', (m k).step s₀ (.access a) = some (r, x) ∧
      s.perform frames (pageFrame (s.leaf k a.addr)) a = some (r, s') ∧
      Shown pages frames limit frameLimit s₀ s' (Function.update m k x) := by
  cases a with
  | read addr =>
      obtain ⟨vma, hfind⟩ := Option.isSome_iff_exists.mp hallowed
      obtain ⟨-, -, p, hmaps⟩ := h.entries k addr ((h.sound k).below hfind) hpresent
      have hpage : s.pageAt frames (pageFrame (s.leaf k addr)) = some p := by
        rw [hmaps.2.2.2]
        exact pageAt_self hf h.few hmaps.2.1
      refine ⟨.byte ((s.heap.pages p).bytes (addr % pageSize)), m k, s, ?_, ?_, ?_⟩
      · rw [Space.step, hfind, Option.map_some, h.shows k addr p vma hmaps hfind]
      · rw [System.perform, Access.addr, hpage]
        rfl
      · rw [Function.update_eq_self]
        exact h
  | write addr b =>
      obtain ⟨vma, hfind, hfile⟩ := hallowed
      obtain ⟨-, -, p, hmaps⟩ := h.entries k addr ((h.sound k).below hfind) hpresent
      have hpage : s.pageAt frames (pageFrame (s.leaf k addr)) = some p := by
        rw [hmaps.2.2.2]
        exact pageAt_self hf h.few hmaps.2.1
      have hnew : s₀.heap.next ≤ p := by
        obtain ⟨vma', hfind', hbelongs⟩ := h.belongs k addr p hmaps
        obtain rfl := Option.some.inj (hfind'.symm.trans hfind)
        rcases hbelongs with ⟨-, hle⟩ | ⟨hslot, -⟩
        · exact hle
        · rw [System.cacheSlot, hfile] at hslot
          contradiction
      refine ⟨.stored, (m k).store addr b, s.storeByte p (addr % pageSize) b, ?_, ?_, h.store hf hmaps hnew b⟩
      · rw [Space.step, hfind]
        rfl
      · rw [System.perform, Access.addr, hpage]
        rfl

theorem access_of_walk {a : Access} {frame : Nat} (h : s.walk (Permits a.isWrite) k a.addr = some frame)
    (fuel : Nat) : s.access pages frames k a fuel = s.perform frames frame a := by
  cases fuel with
  | zero => rw [System.access, h, Option.bind_some]
  | succ fuel => rw [System.access, h]

theorem Shown.access (hp : Supply pages limit) (hf : FrameSupply frames frameLimit)
    (h : Shown pages frames limit frameLimit s₀ s m) {a : Access} (fuel : Nat)
    (hallowed : (m k).Allowed s₀ (.access a)) (hroom : s.HasRoom pages frames limit frameLimit (k, .access a)) :
    ∃ r x s', (m k).step s₀ (.access a) = some (r, x) ∧ s.access pages frames k a (fuel + 1) = some (r, s') ∧
      Shown pages frames limit frameLimit s₀ s' (Function.update m k x) := by
  obtain ⟨hlt, hroom⟩ := hroom
  have hk : s.procs[k]? = some s.procs[k] := List.getElem?_eq_getElem hlt
  obtain ⟨vma, hfind⟩ : ∃ vma, findVmaForAddress a.addr (m k).areas = some vma := by
    cases a with
    | read addr => exact Option.isSome_iff_exists.mp hallowed
    | write addr b => exact hallowed.imp fun vma hvma => hvma.1
  have huser := user_of_below ((h.sound k).below hfind)
  have hwalk := h.grounded.walk_permits hk huser a.isWrite
  by_cases hpresent : Present (s.leaf k a.addr)
  · obtain ⟨hwritable, hbit, -⟩ := h.entries k a.addr ((h.sound k).below hfind) hpresent
    obtain ⟨r, x, s', hx, hs', hshown⟩ := h.perform hf hallowed hpresent
    rw [if_pos ⟨hpresent, hbit, fun _ => hwritable⟩] at hwalk
    exact ⟨r, x, s', hx, (access_of_walk hwalk _).trans hs', hshown⟩
  · obtain ⟨s₁, htrap, hprocs, hmapped⟩ := h.trap hp hf hk hfind hpresent a.isWrite
    rw [if_neg fun hpermits => hpresent hpermits.1] at hwalk
    obtain ⟨htables, hframes⟩ := hroom hwalk s₁ htrap
    obtain ⟨hshown, hpermits⟩ := hmapped htables hframes
    obtain ⟨r, x, s', hx, hs', hshown'⟩ := hshown.perform hf hallowed (hpermits false).1
    have hk₁ : s₁.procs[k]? = some s.procs[k] := by
      rw [hprocs]
      exact hk
    have hwalk₁ := hshown.grounded.walk_permits hk₁ huser a.isWrite
    rw [if_pos (hpermits _)] at hwalk₁
    refine ⟨r, x, s', hx, ?_, hshown'⟩
    rw [System.access, hwalk, htrap]
    exact (access_of_walk hwalk₁ _).trans hs'

/-- The system with another list of areas. -/
def System.setAreas (s : System) (k : Nat) (mm : ProcMm) (areas : List VmArea) : System :=
  { s with procs := s.procs.set k { mm with vmAreas := areas } }

theorem setAreas_pgtable (hk : s.procs[k]? = some mm) (areas : List VmArea) (k' : Nat) :
    ((s.setAreas k mm areas).procs[k']?).map ProcMm.pgtable = (s.procs[k']?).map ProcMm.pgtable := by
  have hlt := (List.getElem?_eq_some_iff.mp hk).1
  by_cases hk' : k' = k
  · subst hk'
    rw [System.setAreas, List.getElem?_set_self hlt, hk]
    rfl
  · rw [System.setAreas, List.getElem?_set_ne (Ne.symm hk')]

theorem setAreas_leaf (hk : s.procs[k]? = some mm) (areas : List VmArea) :
    (s.setAreas k mm areas).leaf = s.leaf := by
  funext k' vaddr
  have hsame := setAreas_pgtable hk areas k'
  unfold System.leaf
  cases hold : s.procs[k']? with
  | none =>
      rw [hold] at hsame
      rw [Option.map_eq_none_iff.mp hsame]
  | some mm' =>
      rw [hold] at hsame
      obtain ⟨mm'', hnew, hpgtable⟩ := Option.map_eq_some_iff.mp hsame
      rw [hnew]
      dsimp only
      rw [hpgtable]
      rfl

theorem setAreas_grounded (hk : s.procs[k]? = some mm) (areas : List VmArea) (h : s.Grounded pages limit) :
    (s.setAreas k mm areas).Grounded pages limit := by
  have hroots : (s.setAreas k mm areas).procs.map ProcMm.pgtable = s.procs.map ProcMm.pgtable := by
    apply List.ext_getElem?
    intro i
    rw [List.getElem?_map, List.getElem?_map]
    exact setAreas_pgtable hk areas i
  obtain ⟨htables, hdistinct⟩ := h
  rw [← hroots] at htables hdistinct
  exact ⟨htables, hdistinct⟩

/-- Areas that are added to a process show what their file or nothing gives. -/
theorem Shown.setAreas (h : Shown pages frames limit frameLimit s₀ s m) (hk : s.procs[k]? = some mm)
    {areas : List VmArea} (hsound : Space.Sound s₀ { m k with areas := areas })
    (hadded : ∀ vma ∈ (m k).areas, vma ∈ areas) :
    Shown pages frames limit frameLimit s₀ (s.setAreas k mm areas)
      (Function.update m k { m k with areas := areas }) := by
  have hlt := (List.getElem?_eq_some_iff.mp hk).1
  have hleaf := setAreas_leaf hk areas
  have hmaps : ∀ k' addr' q, (s.setAreas k mm areas).MapsPage frames k' addr' q → s.MapsPage frames k' addr' q := by
    rintro k' addr' q ⟨hlow, hq, hpresent, hframe⟩
    rw [hleaf] at hpresent hframe
    exact ⟨hlow, hq, hpresent, hframe⟩
  have hfinds : ∀ k' addr' vma, findVmaForAddress addr' (m k').areas = some vma →
      findVmaForAddress addr' (Function.update m k { m k with areas := areas } k').areas = some vma := by
    intro k' addr' vma hfind
    by_cases hk' : k' = k
    · subst hk'
      obtain ⟨hmem, hin⟩ := (h.sound k').laid.find_iff.mp hfind
      rw [Function.update_self]
      exact hsound.laid.find_iff.mpr ⟨hadded vma hmem, hin⟩
    · rw [Function.update_of_ne hk']
      exact hfind
  have hwritten : ∀ k', (Function.update m k { m k with areas := areas } k').written = (m k').written := by
    intro k'
    by_cases hk' : k' = k
    · subst hk'
      rw [Function.update_self]
    · rw [Function.update_of_ne hk']
  refine ⟨setAreas_grounded hk _ h.grounded, h.few, h.older, h.inodes, h.kept, ?_, ?_, ?_, ?_, ?_, ?_, ?_⟩
  · intro k' mm' hmm
    by_cases hkk : k' = k
    · subst hkk
      rw [System.setAreas, List.getElem?_set_self hlt] at hmm
      obtain rfl := Option.some.inj hmm
      rw [Function.update_self]
    · rw [System.setAreas, List.getElem?_set_ne (Ne.symm hkk)] at hmm
      rw [Function.update_of_ne hkk]
      exact h.areas k' mm' hmm
  · intro k'
    by_cases hkk : k' = k
    · subst hkk
      rw [Function.update_self]
      exact hsound
    · rw [Function.update_of_ne hkk]
      exact h.sound k'
  · intro k' addr' hlow hpresent
    rw [hleaf] at hpresent
    obtain ⟨hwritable, hbit, q, -, hq, -, hframe⟩ := h.entries k' addr' hlow hpresent
    rw [← hleaf] at hpresent hwritable hbit hframe
    exact ⟨hwritable, hbit, q, hlow, hq, hpresent, hframe⟩
  · intro k' addr' q hq
    obtain ⟨vma, hfind, hbelongs⟩ := h.belongs k' addr' q (hmaps k' addr' q hq)
    exact ⟨vma, hfinds k' addr' vma hfind, hbelongs⟩
  · intro k₁ addr₁ k₂ addr₂ q hnew hq₁ hq₂
    exact h.alone k₁ addr₁ k₂ addr₂ q hnew (hmaps _ _ _ hq₁) (hmaps _ _ _ hq₂)
  · intro k' addr' hlow habsent
    rw [hleaf] at habsent
    rw [hwritten]
    exact h.untouched k' addr' hlow habsent
  · intro k' addr' q vma hq hfind
    obtain ⟨vma', hfind', -⟩ := h.belongs k' addr' q (hmaps k' addr' q hq)
    obtain rfl := Option.some.inj ((hfinds k' addr' vma' hfind').symm.trans hfind)
    rw [hwritten]
    exact h.shows k' addr' q vma' (hmaps k' addr' q hq) hfind'

/-- A mapping changes only the list of areas. -/
theorem Shown.mmap (h : Shown pages frames limit frameLimit s₀ s m) (hk : k < s.procs.length)
    (hfits : c.Fits (m k).areas) (hplain : c.Plain s₀) :
    ∃ r x s', (m k).step s₀ (.mmap c) = some (r, x) ∧
      (doMmap pages frames s k c).map (fun (start, s) => (MemRet.mapped start, s)) = some (r, s') ∧
      Shown pages frames limit frameLimit s₀ s' (Function.update m k x) := by
  have hk' : s.procs[k]? = some s.procs[k] := List.getElem?_eq_getElem hk
  have hmap := (mapArea_fits (h.sound k).laid (h.sound k).apart hfits).1
  refine ⟨.mapped (c.area (m k).areas).start, { m k with areas := insertSorted (c.area (m k).areas) (m k).areas },
    s.setAreas k s.procs[k] (insertSorted (c.area (m k).areas) (m k).areas), ?_, ?_,
    h.setAreas hk' ((h.sound k).mmap hfits hplain) fun vma hvma => mem_insertSorted.mpr (.inr hvma)⟩
  · rw [Space.step, hmap]
    rfl
  · rw [doMmap, hk', Option.bind_some, h.areas k _ hk', hmap]
    simp [hplain.2.1, System.setAreas]

/-! ### Runs -/

/-- Processes that have mapped nothing, beside files whose pages are in use. -/
structure Unmapped (pages : Nat → Nat) (limit frameLimit : Nat) (s₀ : System) : Prop where
  grounded : s₀.Grounded pages limit
  few : s₀.heap.next ≤ frameLimit
  areas : ∀ mm ∈ s₀.procs, mm.vmAreas = []
  leaves : ∀ k addr, addr < x86Limit → ¬ Present (s₀.leaf k addr)

theorem Unmapped.start (h : Unmapped pages limit frameLimit s₀) :
    Shown pages frames limit frameLimit s₀ s₀ fun _ => Space.empty where
  grounded := h.grounded
  few := h.few
  older := Nat.le_refl _
  inodes := rfl
  kept := fun _ _ => rfl
  areas := fun _ mm hk => h.areas mm (List.mem_of_getElem? hk)
  sound := fun _ => ⟨⟨by simp [Space.empty], .nil⟩, .nil, by simp [Space.empty]⟩
  entries := fun k addr hlow hpresent => absurd hpresent (h.leaves k addr hlow)
  belongs := fun k addr _ hmaps => absurd hmaps.2.2.1 (h.leaves k addr hmaps.1)
  alone := fun k addr _ _ _ _ hmaps _ => absurd hmaps.2.2.1 (h.leaves k addr hmaps.1)
  untouched := fun _ _ _ _ => rfl
  shows := fun k addr _ _ hmaps _ => absurd hmaps.2.2.1 (h.leaves k addr hmaps.1)

theorem Shown.memStep (hp : Supply pages limit) (hf : FrameSupply frames frameLimit)
    (h : Shown pages frames limit frameLimit s₀ s m) {e : MemCall} (hallowed : (m k).Allowed s₀ e) (fuel : Nat)
    (hroom : s.HasRoom pages frames limit frameLimit (k, e)) :
    ∃ r x s', (m k).step s₀ e = some (r, x) ∧ s.memStep pages frames (fuel + 1) (k, e) = some (r, s') ∧
      Shown pages frames limit frameLimit s₀ s' (Function.update m k x) := by
  cases e with
  | mmap c => exact h.mmap hroom hallowed.1 hallowed.2
  | access a => exact h.access hp hf fuel hallowed hroom

/-- Over any interleaving of mappings and accesses, if each process alone would make calls that are
allowed, the machine performs them all, and every process gets what it would get alone. -/
theorem processes_run_as_alone (hp : Supply pages limit) (hf : FrameSupply frames frameLimit)
    (h : Unmapped pages limit frameLimit s₀) (calls : List (Nat × MemCall)) (fuel : Nat)
    (hallowed : ∀ k, Guarded (silent (Space.step s₀)) (Space.Allowed s₀) Space.empty (only k calls))
    (hroom : Guarded (silent (System.memStep pages frames (fuel + 1))) (System.HasRoom pages frames limit frameLimit)
      s₀ calls) :
    ∃ rets t, answers (labelled (System.memStep pages frames (fuel + 1))) s₀ calls = some (rets, t) ∧
      ∀ k, ∃ m, answers (Space.step s₀) Space.empty (only k calls) = some (only k rets, m) := by
  have hstep : ∀ (s : System) (m : Nat → Space) (k : Nat) (e : MemCall), Shown pages frames limit frameLimit s₀ s m →
      (m k).Allowed s₀ e → s.HasRoom pages frames limit frameLimit (k, e) → ∃ r x s', (m k).step s₀ e = some (r, x) ∧
        s.memStep pages frames (fuel + 1) (k, e) = some (r, s') ∧
        Shown pages frames limit frameLimit s₀ s' (Function.update m k x) :=
    fun s m k e hshown hcall hnow => hshown.memStep hp hf hcall fuel hnow
  obtain ⟨rets, t, m, hrun, -, hall⟩ := answers_interleaved hstep h.start hallowed hroom
  exact ⟨rets, t, hrun, fun k => ⟨m k, hall k⟩⟩

end steps

/-! ### Two processes -/

/-- Two address spaces whose tables are still empty, and a file with one page. -/
def twoSpaces : System where
  tables := ⟨fun _ _ => 0, 2⟩
  heap := ⟨fun _ => ⟨fun _ => 5, pageUsageCache, 0, 1⟩, 1⟩
  freed := fun _ => false
  procs := [⟨lowPages 0, []⟩, ⟨lowPages 1, []⟩]
  inodes := [onePage]

theorem twoSpaces_unmapped : Unmapped lowPages (2 ^ 30) (2 ^ 30) twoSpaces where
  grounded := by
    have hne : lowPages 1 ≠ lowPages 0 := by decide
    refine ⟨⟨fun u => if u = lowPages 0 then some (lowPages 0, []) else if u = lowPages 1 then
      some (lowPages 1, []) else none, ⟨⟨⟨?_, ?_⟩, ?_⟩, ?_⟩⟩, by decide⟩
    · intro u q hu
      split_ifs at hu with h0 h1
      · rw [h0]
        exact lowPages_supply.valid 0 (Nat.two_pow_pos 30)
      · rw [h1]
        exact lowPages_supply.valid 1 (by decide)
    · intro u q i _ _
      left
      simp [twoSpaces, entryFormat]
    · intro u q hu k hk hlt hsame
      have hk' : 2 ≤ k := hk
      split_ifs at hu with h0 h1
      · have := lowPages_supply.different 0 (Nat.two_pow_pos 30) k hlt (h0.symm.trans hsame)
        omega
      · have := lowPages_supply.different 1 (by decide) k hlt (h1.symm.trans hsame)
        omega
    · intro pt hpt
      rcases List.mem_cons.mp hpt with rfl | hpt
      · exact if_pos rfl
      · obtain rfl := List.mem_singleton.mp hpt
        rw [if_neg hne, if_pos rfl]
  few := Nat.one_le_two_pow
  areas := by decide
  leaves := by
    intro k addr _ hpresent
    refine absurd hpresent ?_
    unfold System.leaf
    split
    · rw [leafEntry, vaPath]
      rw [RadixTable.leaf_cons_none (by simp [twoSpaces, entryFormat])]
      decide
    · decide

/-- A page of anonymous memory. -/
def pageCall (addr : Nat) (haddr : addr < 2 ^ 64) : MmapCall :=
  anonymousCall addr 0x1000 haddr privateCall.length_pos privateCall.length_lt

/-- At one address, the first process has memory and the second one the file. -/
def twoCalls : List (Nat × MemCall) :=
  [(0, .mmap (pageCall 0x400000 privateCall.addr_lt)), (1, .mmap privateCall),
    (0, .access (.write 0x400004 7)), (1, .access (.read 0x400004)),
    (1, .mmap (pageCall 0x600000 (by decide))),
    (1, .access (.write 0x600004 9)), (0, .access (.read 0x400004)), (1, .access (.read 0x600005))]

theorem processes_run_as_alone_two : ∃ rets t,
    answers (labelled (System.memStep lowPages lowFrames 1)) twoSpaces twoCalls = some (rets, t) ∧
      only 0 rets = [.mapped 0x400000, .stored, .byte 7] ∧
      only 1 rets = [.mapped 0x400000, .byte 5, .mapped 0x600000, .stored, .byte 0] := by
  have hallowed : ∀ k, Guarded (silent (Space.step twoSpaces)) (Space.Allowed twoSpaces) Space.empty
      (only k twoCalls) := by
    intro k
    rcases k with _ | _ | k
    · decide +kernel
    · decide +kernel
    · trivial
  obtain ⟨rets, t, hrun, hall⟩ := processes_run_as_alone lowPages_supply lowFrames_supply twoSpaces_unmapped
    twoCalls 0 hallowed (by decide +kernel)
  have hret : ∀ k out, (answers (Space.step twoSpaces) Space.empty (only k twoCalls)).map Prod.fst = some out →
      only k rets = out := by
    intro k out hout
    obtain ⟨m, hm⟩ := hall k
    rw [hm] at hout
    exact Option.some.inj hout
  exact ⟨rets, t, hrun, hret 0 _ (by decide +kernel), hret 1 _ (by decide +kernel)⟩

end Lucix.Mm
