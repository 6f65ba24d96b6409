import Lucix.UserAccess
import Lucix.CountRuns
import Lucix.VmaLayout

/-! Private mappings of a ramfs file under user accesses. The entry of a page that was
touched is always writable, so the handler never gets to copy the page for a process
that may write to it: the next write goes to the page of the file. -/
namespace Lucix.Mm
open PageTable FileIo Execution PagedBytes

/-- The byte of the file at an address of an area. -/
def VmArea.fileByte (vma : VmArea) (heap : PageHeap) (map : PageMapping) (addr : Nat) : UInt8 :=
  map.content heap (vma.fpgOff * pageSize + (addr - vma.start))

/-- The address lies in the area. -/
def VmArea.Contains (vma : VmArea) (addr : Nat) : Prop := vma.start ≤ addr ∧ addr < vma.endAddr

instance (vma : VmArea) (addr : Nat) : Decidable (vma.Contains addr) := inferInstanceAs (Decidable (_ ∧ _))

/-- A private mapping of a ramfs file that `do_mmap` has made. Nothing was mapped in its range
before, and the pages of the file are in use. -/
structure PrivateMapping (pages : Nat → Nat) (frames : Frames) (limit frameLimit : Nat) (s₀ : System) (k : Nat)
    (c : MmapCall) (mm : ProcMm) (file : File) (ino : Inode) (s : System) : Prop where
  grounded : s₀.Grounded pages limit
  few : s₀.heap.next ≤ frameLimit
  space : s₀.procs[k]? = some mm
  opened : c.file = some file
  ramfs : file.mmap = some .ramfs
  inode : s₀.inodes[file.ino]? = some ino
  cached : ∀ p, ino.fMap.Owns p → p < s₀.heap.next ∧ s₀.freed p = false
  priv : c.flags.priv = true
  mapped : doMmap pages frames s₀ k c = some ((c.area mm.vmAreas).start, s)
  fresh : ∀ addr, (c.area mm.vmAreas).Contains addr → ¬ Present (s₀.leaf k addr)

/-- The last page of the area, and the last one that `vma_populate` visits, have a slot. -/
def AreaInside (vma : VmArea) (map : PageMapping) : Prop :=
  (vma.start < vma.endAddr → (vma.endAddr - 1 - vma.start) / pageSize + vma.fpgOff < slotCount map) ∧
    (0 < vma.length / pageSize → vma.length / pageSize - 1 + vma.fpgOff < slotCount map)

instance (vma : VmArea) (map : PageMapping) : Decidable (AreaInside vma map) :=
  inferInstanceAs (Decidable (_ ∧ _))

/-- No page was populated, the file has slots for the area, and the area stands at whole pages of the
user half, where it is found. -/
structure WellPlaced (k : Nat) (c : MmapCall) (vma : VmArea) (map : PageMapping) (s : System) : Prop where
  populated : c.flags.populate = true → c.length < pageSize
  inside : AreaInside vma map
  aligned : vma.start % pageSize = 0
  low : vma.endAddr ≤ x86Limit
  found : ∀ mm ∈ s.procs[k]?, ∀ addr, vma.Contains addr → findVmaForAddress addr mm.vmAreas = some vma

/-- What a write must not meet: a mapped page in an area with `VM_USER`, unless it stores the byte
of the file; or, in one without, a mapped page that is to be copied and whose counter is 1. -/
def SafeAccess (vma : VmArea) (map : PageMapping) (k : Nat) (u : UserRun) : Access → Prop
  | .read _ => True
  | .write addr byte => Present (u.sys.leaf k addr) →
      if vma.prot.user then byte = vma.fileByte u.sys.heap map addr
      else vma.prot.mayWrite = true →
        ∀ page ∈ (u.sys.cacheSlot vma (pgoffset vma addr)).join, (u.sys.heap.pages page).refcnt ≠ 1

instance (vma : VmArea) (map : PageMapping) (k : Nat) (u : UserRun) : DecidablePred (SafeAccess vma map k u)
  | .read _ => inferInstanceAs (Decidable True)
  | .write .. => inferInstanceAs (Decidable (_ → _))

/-! ### The pages of an area -/

section area
variable {frames : Frames} {frameLimit : Nat} {s : System} {vma : VmArea} {addr addr' : Nat}

theorem contains_user (hlow : vma.endAddr ≤ x86Limit) (h : vma.Contains addr) : pml4FromVa addr < 256 := by
  obtain ⟨-, hlt⟩ := h
  rw [pml4FromVa_eq]
  unfold x86Limit at hlow
  omega

theorem pgoffset_eq (hlow : vma.endAddr ≤ x86Limit) (h : vma.Contains addr) :
    pgoffset vma addr = (addr - vma.start) / pageSize := by
  obtain ⟨hge, hlt⟩ := h
  unfold x86Limit at hlow
  rw [pgoffset, sub64_of_le hge (by omega)]

theorem AreaInside.slot {map : PageMapping} (hinside : AreaInside vma map) (hlow : vma.endAddr ≤ x86Limit)
    (h : vma.Contains addr) : pgoffset vma addr + vma.fpgOff < slotCount map := by
  rw [pgoffset_eq hlow h]
  obtain ⟨hge, hlt⟩ := h
  have hlast := hinside.1 (by omega)
  have hle : (addr - vma.start) / pageSize ≤ (vma.endAddr - 1 - vma.start) / pageSize :=
    Nat.div_le_div_right (by omega)
  omega

theorem pgoffset_congr (haligned : vma.start % pageSize = 0) (hlow : vma.endAddr ≤ x86Limit)
    (h : vma.Contains addr) (h' : vma.Contains addr') (hsame : pageFrame addr' = pageFrame addr) :
    pgoffset vma addr' = pgoffset vma addr := by
  rw [pgoffset_eq hlow h, pgoffset_eq hlow h']
  obtain ⟨hge, hlt⟩ := h
  obtain ⟨hge', hlt'⟩ := h'
  rw [pageFrame_eq, pageFrame_eq] at hsame
  unfold x86Limit at hlow
  unfold pageSize at haligned ⊢
  omega

theorem cacheSlot_eq {file : File} {ino : Inode} (hfile : vma.file = some file)
    (hino : s.inodes[file.ino]? = some ino) (i : Nat) :
    s.cacheSlot vma i = ino.fMap.pages[i + vma.fpgOff]? := by
  rw [System.cacheSlot, hfile, Option.bind_some, hino, Option.bind_some]

theorem fileByte_eq (haligned : vma.start % pageSize = 0) (hlow : vma.endAddr ≤ x86Limit)
    (h : vma.Contains addr) (heap : PageHeap) {map : PageMapping} {page : Nat}
    (hslot : map.pages[pgoffset vma addr + vma.fpgOff]? = some (some page)) :
    vma.fileByte heap map addr = (heap.pages page).bytes (addr % pageSize) := by
  rw [pgoffset_eq hlow h] at hslot
  have hsplit : vma.fpgOff * pageSize + (addr - vma.start) =
      ((addr - vma.start) / pageSize + vma.fpgOff) * pageSize + addr % pageSize := by
    obtain ⟨hge, -⟩ := h
    unfold pageSize at haligned ⊢
    omega
  unfold VmArea.fileByte
  rw [hsplit]
  apply view_of_page
  · exact Nat.mod_lt _ (by decide)
  · rw [hslot]
    rfl

theorem pageAt_self (hf : FrameSupply frames frameLimit) (hnext : s.heap.next ≤ frameLimit)
    {page : Nat} (hpage : page < s.heap.next) : s.pageAt frames (frames page) = some page := by
  cases hfound : s.pageAt frames (frames page) with
  | none =>
      have hnone := List.find?_eq_none.mp hfound page (by simpa using hpage)
      simp at hnone
  | some q =>
      obtain ⟨hframe, hq⟩ := pageAt_frame hfound
      rw [hf.different q (by omega) page (by omega) hframe]

end area

/-! ### The mapping under accesses -/

/-- The file is as it was; a page that is mapped in the area can be written, and by the user if
the area has `VM_USER`, and then it is the page of the file; nothing but bytes of the file was
written. -/
structure Untouched (pages : Nat → Nat) (frames : Frames) (limit frameLimit : Nat) (s₀ : System) (k : Nat)
    (vma : VmArea) (ino : Inode) (u : UserRun) : Prop where
  grounded : u.sys.Grounded pages limit
  few : u.sys.heap.next ≤ frameLimit
  space : ∃ mm, u.sys.procs[k]? = some mm ∧
    ∀ addr, vma.Contains addr → findVmaForAddress addr mm.vmAreas = some vma
  inodes : u.sys.inodes = s₀.inodes
  kept : ∀ p, ino.fMap.Owns p → p < u.sys.heap.next ∧ u.sys.freed p = false ∧
    (u.sys.heap.pages p).bytes = (s₀.heap.pages p).bytes
  entries : ∀ addr, vma.Contains addr → Present (u.sys.leaf k addr) →
    Writable (u.sys.leaf k addr) ∧ (UserBit (u.sys.leaf k addr) ↔ vma.prot.user = true) ∧
      (vma.prot.user = true → ∃ page, ino.fMap.pages[pgoffset vma addr + vma.fpgOff]? = some (some page) ∧
        pageFrame (u.sys.leaf k addr) = frames page)
  written : ∀ w ∈ u.written, w.2 = vma.fileByte s₀.heap ino.fMap w.1

section accesses
variable {pages : Nat → Nat} {frames : Frames} {limit frameLimit : Nat} {s₀ s₁ s' : System} {k addr : Nat}
  {vma : VmArea} {file : File} {ino : Inode} {u u' : UserRun} {write : Bool}

theorem Untouched.remap (hp : Supply pages limit) (haligned : vma.start % pageSize = 0)
    (hlow : vma.endAddr ≤ x86Limit) (h : Untouched pages frames limit frameLimit s₀ k vma ino u)
    (hin : vma.Contains addr) {mm : ProcMm} (hk : u.sys.procs[k]? = some mm) {p : Nat} {prot : Prot}
    (hmap : s₁.mapPage pages mm.pgtable (frames p) (pageFrame addr) prot = some s')
    (htables : s₁.tables = u.sys.tables) (hprocs : s₁.procs = u.sys.procs)
    (hinodes : s₁.inodes = u.sys.inodes)
    (hkept : ∀ q, ino.fMap.Owns q → q < s₁.heap.next ∧ s₁.freed q = false ∧
      (s₁.heap.pages q).bytes = (s₀.heap.pages q).bytes)
    (huser : prot.user = vma.prot.user)
    (hpage : vma.prot.user = true → ino.fMap.pages[pgoffset vma addr + vma.fpgOff]? = some (some p) ∧
      pageFrame (wrap64 (frames p)) = frames p)
    (hroom : s'.tables.next ≤ limit) (hframes : s'.heap.next ≤ frameLimit) :
    Untouched pages frames limit frameLimit s₀ k vma ino { u with sys := s' } := by
  obtain ⟨hground', hset⟩ := h.grounded.remap hp hk (contains_user hlow hin) htables hprocs hmap hroom
  obtain ⟨t, -, rfl⟩ := Option.map_eq_some_iff.mp hmap
  refine ⟨hground', hframes, ?_, hinodes.trans h.inodes, hkept, ?_, h.written⟩
  · obtain ⟨mm', hk', hfound⟩ := h.space
    exact ⟨mm', by rw [← hk']; exact congrArg (·[k]?) hprocs, hfound⟩
  · intro addr' hin' hpresent
    dsimp only at hpresent ⊢
    rw [hset k addr' (contains_user hlow hin')] at hpresent ⊢
    by_cases hsame : pageFrame addr' = pageFrame addr
    · rw [if_pos ⟨rfl, hsame⟩, pteEntry_userBit, huser, pteEntry_pageFrame,
        pgoffset_congr haligned hlow hin hin' hsame]
      refine ⟨pteEntry_writable _ _, Iff.rfl, ?_⟩
      intro hbit
      exact ⟨p, hpage hbit⟩
    · have hother : ¬ (k = k ∧ pageFrame addr' = pageFrame addr) := fun hboth => hsame hboth.2
      rw [if_neg hother] at hpresent ⊢
      exact h.entries addr' hin' hpresent

theorem Untouched.slot (h : Untouched pages frames limit frameLimit s₀ k vma ino u)
    (hfile : vma.file = some file) (hino : s₀.inodes[file.ino]? = some ino) (i : Nat) :
    u.sys.cacheSlot vma i = ino.fMap.pages[i + vma.fpgOff]? :=
  cacheSlot_eq hfile (by rw [h.inodes]; exact hino) i

theorem pred32_ne_zero {n : Nat} (hn : n ≠ 1) : pred32 n ≠ 0 := by
  unfold pred32
  split
  · decide
  · omega

/-- The copy for a private mapping leaves every page that was handed out before, and frees none if
the counter of the copied page is not 1. -/
theorem privateCopy_keeps {s : System} {page q : Nat} (hne : page ≠ s.heap.next)
    (hcounter : (s.heap.pages page).refcnt ≠ 1) (hq : q < s.heap.next) :
    (s.privateCopy page).freed q = s.freed q ∧
      ((s.privateCopy page).heap.pages q).bytes = (s.heap.pages q).bytes := by
  have hfresh : q ≠ s.heap.next := by omega
  have hcount : ((s.allocPage.2.pageRef s.heap.next).heap.pages page).refcnt = (s.heap.pages page).refcnt := by
    rw [pageRef_refcnt, if_neg hne, allocPage_refcnt, if_neg hne]
  constructor
  · simp only [System.privateCopy, System.copyPage, System.pageUnref, hcount, if_neg (pred32_ne_zero hcounter)]
    exact Function.update_of_ne hfresh _ _
  · by_cases hsame : q = page
    · subst hsame
      simp [System.privateCopy, System.copyPage, System.pageUnref, System.pageRef, System.allocPage,
        PageHeap.pageRef, PageHeap.allocPage, PageHeap.setPage, hfresh]
    · simp [System.privateCopy, System.copyPage, System.pageUnref, System.pageRef, System.allocPage,
        PageHeap.pageRef, PageHeap.allocPage, PageHeap.setPage, hfresh, hsame]

theorem pageRef_bytes (s : System) (p q : Nat) :
    ((s.pageRef p).heap.pages q).bytes = (s.heap.pages q).bytes := by
  by_cases hq : q = p
  · simp [hq, System.pageRef, PageHeap.pageRef, PageHeap.setPage]
  · simp [hq, System.pageRef, PageHeap.pageRef, PageHeap.setPage]

theorem Untouched.trap (hp : Supply pages limit) (hf : FrameSupply frames frameLimit)
    (haligned : vma.start % pageSize = 0) (hlow : vma.endAddr ≤ x86Limit) (hfile : vma.file = some file)
    (hino : s₀.inodes[file.ino]? = some ino) (hops : vma.vmOps = .ramfs) (hpriv : vma.flags.priv = true)
    (h : Untouched pages frames limit frameLimit s₀ k vma ino u) (hin : vma.Contains addr)
    (hdenied : ¬ Permits write (u.sys.leaf k addr))
    (hsafe : write = true → Present (u.sys.leaf k addr) → vma.prot.user = false → vma.prot.mayWrite = true →
      ∀ page ∈ (u.sys.cacheSlot vma (pgoffset vma addr)).join, (u.sys.heap.pages page).refcnt ≠ 1)
    (htrap : u.sys.trap pages frames k addr write = some s')
    (hroom : s'.tables.next ≤ limit) (hframes : s'.heap.next ≤ frameLimit) :
    Untouched pages frames limit frameLimit s₀ k vma ino { u with sys := s' } := by
  obtain ⟨mm, hk, hfound⟩ := h.space
  unfold System.trap kernelPageFault at htrap
  rw [hk, Option.bind_some, hfound addr hin, Option.bind_some] at htrap
  obtain ⟨⟨newPage, s₁⟩, hhandler, hmap⟩ := Option.bind_eq_some_iff.mp htrap
  unfold faultHandler at hhandler
  rw [hops] at hhandler
  obtain ⟨page, hslot, hcase⟩ := ramfsVmaFault_cases hhandler
  have hslot' := hslot
  rw [h.slot hfile hino] at hslot'
  have howns : ino.fMap.Owns page := ⟨_, hslot'⟩
  have hlt := (h.kept page howns).1
  rcases hcase with ⟨hprot, rfl, rfl⟩ | ⟨hprot, hwrite, hmay, -, rfl, rfl⟩ |
    ⟨-, -, -, hshared, -⟩ | ⟨-, -, rfl, rfl⟩
  · -- the page was missing
    dsimp only at hmap
    refine h.remap hp haligned hlow hin hk hmap rfl rfl rfl ?_ (faultProt_user vma _) ?_ hroom hframes
    · intro q hq
      rw [pageRef_bytes]
      exact h.kept q hq
    · intro _
      exact ⟨hslot', hf.valid page (lt_of_lt_of_le hlt h.few)⟩
  · -- a user write was denied to a page that is mapped writable, so the area lacks `VM_USER`
    dsimp only at hprot hwrite hmap
    have hpresent := (h.grounded.walk_present hk (contains_user hlow hin)).mp hprot
    obtain ⟨hwritable, hbit, -⟩ := h.entries addr hin hpresent
    have hkernel : vma.prot.user = false := by
      rw [← Bool.not_eq_true, ← hbit]
      intro huser
      exact hdenied ⟨hpresent, huser, fun _ => hwritable⟩
    have hcounter := hsafe hwrite hpresent hkernel hmay page (by rw [hslot]; rfl)
    refine h.remap hp haligned hlow hin hk hmap rfl rfl rfl ?_ (faultProt_user vma _) ?_ hroom hframes
    · intro q hq
      obtain ⟨hq', hlive, hbytes⟩ := h.kept q hq
      obtain ⟨hfreed, hsame⟩ := privateCopy_keeps (by omega) hcounter hq'
      exact ⟨Nat.lt_succ_of_lt hq', hfreed.trans hlive, hsame.trans hbytes⟩
    · rw [hkernel]
      intro huser
      contradiction
  · rw [hpriv] at hshared
    contradiction
  · obtain rfl := Option.some.inj hmap
    exact h

/-- A write that is performed stores the byte that is there. -/
theorem Untouched.store (hf : FrameSupply frames frameLimit) (haligned : vma.start % pageSize = 0)
    (hlow : vma.endAddr ≤ x86Limit) (h : Untouched pages frames limit frameLimit s₀ k vma ino u)
    (hin : vma.Contains addr) (hpermits : Permits true (u.sys.leaf k addr)) {byte : UInt8}
    (hbyte : vma.prot.user = true → byte = vma.fileByte u.sys.heap ino.fMap addr) {p : Nat}
    (hpage : u.sys.pageAt frames (pageFrame (u.sys.leaf k addr)) = some p) :
    Untouched pages frames limit frameLimit s₀ k vma ino
      ⟨u.sys.storeByte p (addr % pageSize) byte, (addr, byte) :: u.written⟩ := by
  obtain ⟨hpresent, hbit, -⟩ := hpermits
  obtain ⟨-, huser, hfile⟩ := h.entries addr hin hpresent
  obtain ⟨page, hslot, hframe⟩ := hfile (huser.mp hbit)
  obtain ⟨hlt, -, hbytes⟩ := h.kept page ⟨_, hslot⟩
  rw [hframe, pageAt_self hf h.few hlt] at hpage
  obtain rfl := Option.some.inj hpage
  have hsame : byte = (u.sys.heap.pages page).bytes (addr % pageSize) := by
    rw [hbyte (huser.mp hbit)]
    exact fileByte_eq haligned hlow hin _ hslot
  refine ⟨⟨h.grounded.tables, h.grounded.distinct⟩, h.few, h.space, h.inodes, ?_, h.entries, ?_⟩
  · intro q hq
    obtain ⟨hq', hlive, hold⟩ := h.kept q hq
    refine ⟨hq', hlive, ?_⟩
    rw [← hold]
    by_cases hqp : q = page
    · subst hqp
      simp [System.storeByte, PageHeap.setPage, hsame]
    · simp [System.storeByte, PageHeap.setPage, hqp]
  · intro w hw
    rcases List.mem_cons.mp hw with rfl | hw
    · dsimp only
      rw [hsame, hbytes]
      exact (fileByte_eq haligned hlow hin _ hslot).symm
    · exact h.written w hw

/-- A read that is performed returns the byte of the file. -/
theorem Untouched.load (hf : FrameSupply frames frameLimit) (haligned : vma.start % pageSize = 0)
    (hlow : vma.endAddr ≤ x86Limit) (h : Untouched pages frames limit frameLimit s₀ k vma ino u)
    (hin : vma.Contains addr) {byte : UInt8} (hload : u.sys.load frames k addr = some byte) :
    byte = (u.written.lookup addr).getD (vma.fileByte s₀.heap ino.fMap addr) := by
  obtain ⟨mm, hk, -⟩ := h.space
  have hwalk := h.grounded.walk_permits hk (contains_user hlow hin) false
  obtain ⟨frame, hframe, hload⟩ := Option.bind_eq_some_iff.mp hload
  obtain ⟨p, hpage, rfl⟩ := Option.map_eq_some_iff.mp hload
  rw [hwalk] at hframe
  split at hframe
  case isFalse => contradiction
  case isTrue hpermits =>
    obtain rfl := Option.some.inj hframe
    obtain ⟨hpresent, hbit, -⟩ := hpermits
    obtain ⟨-, huser, hfile⟩ := h.entries addr hin hpresent
    obtain ⟨page, hslot, hframe'⟩ := hfile (huser.mp hbit)
    obtain ⟨hlt, -, hbytes⟩ := h.kept page ⟨_, hslot⟩
    rw [hframe', pageAt_self hf h.few hlt] at hpage
    obtain rfl := Option.some.inj hpage
    rw [hbytes, ← fileByte_eq haligned hlow hin _ hslot]
    cases hlast : u.written.lookup addr with
    | none => rfl
    | some byte =>
        obtain ⟨l, l', hsplit, -⟩ := List.lookup_eq_some_iff.mp hlast
        have hmem : (addr, byte) ∈ u.written := by
          rw [hsplit]
          exact List.mem_append_right _ List.mem_cons_self
        exact (h.written _ hmem).symm

/-- An access has no next state only where the slot of its page is empty, for which the machine is
stopped. -/
theorem Untouched.stops (hf : FrameSupply frames frameLimit) (hlow : vma.endAddr ≤ x86Limit)
    (hfile : vma.file = some file) (hino : s₀.inodes[file.ino]? = some ino) (hops : vma.vmOps = .ramfs)
    (hinside : AreaInside vma ino.fMap) (h : Untouched pages frames limit frameLimit s₀ k vma ino u) {a : Access}
    (hin : vma.Contains a.addr) (hnone : u.step pages frames k a = none) :
    ino.fMap.pages[pgoffset vma a.addr + vma.fpgOff]? = some none := by
  obtain ⟨mm, hk, hfound⟩ := h.space
  have hwalk := h.grounded.walk_permits hk (contains_user hlow hin) a.isWrite
  unfold UserRun.step at hnone
  rw [hwalk] at hnone
  by_cases hpermits : Permits a.isWrite (u.sys.leaf k a.addr)
  · -- the entry maps a page of the file, at which a byte can be stored
    rw [if_pos hpermits] at hnone
    obtain ⟨-, huser, hmapped⟩ := h.entries a.addr hin hpermits.1
    obtain ⟨page, hslot, hframe⟩ := hmapped (huser.mp hpermits.2.1)
    cases a with
    | read addr => contradiction
    | write addr byte =>
        have hpage := Option.map_eq_none_iff.mp hnone
        rw [hframe, pageAt_self hf h.few (h.kept page ⟨_, hslot⟩).1] at hpage
        contradiction
  · rw [if_neg hpermits] at hnone
    have htrap := Option.map_eq_none_iff.mp hnone
    unfold System.trap kernelPageFault faultHandler at htrap
    rw [hk, Option.bind_some, hfound _ hin, Option.bind_some, hops] at htrap
    dsimp only at htrap
    have hlt : pgoffset vma a.addr + vma.fpgOff < ino.fMap.pages.length :=
      lt_of_lt_of_le (hinside.slot hlow hin) (Nat.min_le_right _ _)
    have hslot := h.slot hfile hino (pgoffset vma a.addr)
    rw [List.getElem?_eq_getElem hlt] at hslot ⊢
    cases hpage : ino.fMap.pages[pgoffset vma a.addr + vma.fpgOff] with
    | none => rfl
    | some page =>
        rw [hpage] at hslot
        unfold ramfsVmaFault at htrap
        rw [hslot, Option.bind_some, Option.bind_some] at htrap
        dsimp only at htrap
        split_ifs at htrap <;> simp [System.mapPage_eq] at htrap

/-- The pages that `alloc_pages` is known to return are enough for the access. -/
def UserRun.Room (pages : Nat → Nat) (frames : Frames) (limit frameLimit k : Nat) (u : UserRun) (a : Access) : Prop :=
  ∀ u' ∈ u.step pages frames k a, u'.sys.tables.next ≤ limit ∧ u'.sys.heap.next ≤ frameLimit

instance (u : UserRun) (a : Access) : Decidable (u.Room pages frames limit frameLimit k a) :=
  inferInstanceAs (Decidable (∀ u' ∈ _, _))

theorem Untouched.step (hp : Supply pages limit) (hf : FrameSupply frames frameLimit)
    (haligned : vma.start % pageSize = 0) (hlow : vma.endAddr ≤ x86Limit) (hfile : vma.file = some file)
    (hino : s₀.inodes[file.ino]? = some ino) (hops : vma.vmOps = .ramfs) (hpriv : vma.flags.priv = true)
    (h : Untouched pages frames limit frameLimit s₀ k vma ino u) {a : Access} (hin : vma.Contains a.addr)
    (hroom : u.Room pages frames limit frameLimit k a) (hsafe : SafeAccess vma ino.fMap k u a)
    (hstep : u.step pages frames k a = some u') :
    Untouched pages frames limit frameLimit s₀ k vma ino u' := by
  obtain ⟨htables, hframes⟩ := hroom u' hstep
  obtain ⟨mm, hk, -⟩ := h.space
  have hwalk := h.grounded.walk_permits hk (contains_user hlow hin) a.isWrite
  unfold UserRun.step at hstep
  rw [hwalk] at hstep
  by_cases hpermits : Permits a.isWrite (u.sys.leaf k a.addr)
  · rw [if_pos hpermits] at hstep
    cases a with
    | read addr =>
        obtain rfl := Option.some.inj hstep
        exact h
    | write addr byte =>
        obtain ⟨p, hpage, rfl⟩ := Option.map_eq_some_iff.mp hstep
        refine h.store hf haligned hlow hin hpermits ?_ hpage
        intro huser
        have hbyte := hsafe hpermits.1
        rwa [if_pos huser] at hbyte
  · rw [if_neg hpermits] at hstep
    obtain ⟨s', htrap, rfl⟩ := Option.map_eq_some_iff.mp hstep
    refine h.trap hp hf haligned hlow hfile hino hops hpriv hin hpermits ?_ htrap htables hframes
    intro hwrite hpresent hkernel hmay
    cases a with
    | read addr => contradiction
    | write addr byte =>
        have hcounter := hsafe hpresent
        rw [if_neg (by rw [hkernel]; decide)] at hcounter
        exact hcounter hmay

end accesses

/-! ### Runs -/

section runs
variable {pages : Nat → Nat} {frames : Frames} {limit frameLimit : Nat} {s₀ s : System} {k : Nat} {c : MmapCall}
  {mm : ProcMm} {file : File} {ino : Inode}

theorem doMmap_areas (hk : s₀.procs[k]? = some mm) (hpopulated : c.flags.populate = true → c.length < pageSize)
    {start : Nat} (hmap : doMmap pages frames s₀ k c = some (start, s)) :
    ∃ areas, s = { s₀ with procs := s₀.procs.set k { mm with vmAreas := areas } } := by
  unfold doMmap at hmap
  rw [hk, Option.bind_some] at hmap
  obtain ⟨⟨start', areas⟩, -, hmap⟩ := Option.bind_eq_some_iff.mp hmap
  refine ⟨areas, ?_⟩
  dsimp only at hmap
  split at hmap
  case isTrue hpop =>
    obtain ⟨s', hpopulate, hpair⟩ := Option.map_eq_some_iff.mp hmap
    have hnone : (c.area mm.vmAreas).length / pageSize = 0 := Nat.div_eq_of_lt (hpopulated hpop)
    unfold vmaPopulate at hpopulate
    rw [hnone] at hpopulate
    rw [← (Prod.mk.inj hpair).2, ← Option.some.inj hpopulate]
  case isFalse => exact (Prod.mk.inj (Option.some.inj hmap)).2.symm

theorem PrivateMapping.start (h : PrivateMapping pages frames limit frameLimit s₀ k c mm file ino s)
    (hplaced : WellPlaced k c (c.area mm.vmAreas) ino.fMap s) :
    Untouched pages frames limit frameLimit s₀ k (c.area mm.vmAreas) ino ⟨s, []⟩ := by
  obtain ⟨areas, rfl⟩ := doMmap_areas h.space hplaced.populated h.mapped
  have hlt := (List.getElem?_eq_some_iff.mp h.space).1
  have hk : (s₀.procs.set k { mm with vmAreas := areas })[k]? = some { mm with vmAreas := areas } :=
    List.getElem?_set_self hlt
  have hroots : (s₀.procs.set k { mm with vmAreas := areas }).map ProcMm.pgtable =
      s₀.procs.map ProcMm.pgtable := by
    rw [List.map_set]
    apply List.ext_getElem?
    intro i
    by_cases hi : i = k
    · subst hi
      rw [List.getElem?_set_self (by rw [List.length_map]; exact hlt), List.getElem?_map, h.space]
      rfl
    · rw [List.getElem?_set_ne (Ne.symm hi)]
  refine ⟨?_, h.few, ⟨_, hk, hplaced.found _ hk⟩, rfl, ?_, ?_, ?_⟩
  · obtain ⟨htables, hdistinct⟩ := h.grounded
    rw [← hroots] at htables hdistinct
    exact ⟨htables, hdistinct⟩
  · intro p hp
    exact ⟨(h.cached p hp).1, (h.cached p hp).2, rfl⟩
  · intro addr hin hpresent
    rw [System.leaf_eq hk] at hpresent
    have hold := h.fresh addr hin
    rw [System.leaf_eq h.space] at hold
    exact absurd hpresent hold
  · intro w hw
    contradiction

/-- In every run of user accesses to a private mapping that is well placed, without a write to a
page that is mapped, the pages of the file keep their contents, a read returns the last byte
that the process has written there or else that of the file, and an access is stopped only at an
empty slot. -/
theorem run_private_mapping (hp : Supply pages limit) (hf : FrameSupply frames frameLimit)
    (h : PrivateMapping pages frames limit frameLimit s₀ k c mm file ino s)
    (hplaced : WellPlaced k c (c.area mm.vmAreas) ino.fMap s) {accesses : List Access} {t : UserRun}
    (hg : Guarded (UserRun.step pages frames k) (fun u a => (c.area mm.vmAreas).Contains a.addr ∧
      u.Room pages frames limit frameLimit k a ∧ SafeAccess (c.area mm.vmAreas) ino.fMap k u a)
      ⟨s, []⟩ accesses)
    (hrun : run (UserRun.step pages frames k) ⟨s, []⟩ accesses = some t) :
    t.sys.inodes = s₀.inodes ∧
      (∀ p, ino.fMap.Owns p → t.sys.freed p = false ∧
        (t.sys.heap.pages p).bytes = (s₀.heap.pages p).bytes) ∧
      (∀ addr, (c.area mm.vmAreas).Contains addr → ∀ byte ∈ t.sys.load frames k addr,
        byte = (t.written.lookup addr).getD ((c.area mm.vmAreas).fileByte s₀.heap ino.fMap addr)) ∧
      ∀ a : Access, (c.area mm.vmAreas).Contains a.addr → t.step pages frames k a = none →
        ino.fMap.pages[pgoffset (c.area mm.vmAreas) a.addr + (c.area mm.vmAreas).fpgOff]? = some none := by
  have hops : (c.area mm.vmAreas).vmOps = .ramfs := by
    unfold MmapCall.area
    dsimp only
    rw [h.opened, Option.bind_some, h.ramfs]
    rfl
  have hend : Untouched pages frames limit frameLimit s₀ k (c.area mm.vmAreas) ino t := by
    refine run_guarded _ ?_ (h.start hplaced) hg hrun
    rintro u a u' hu ⟨hin, hroom, hsafe⟩ hstep
    exact hu.step hp hf hplaced.aligned hplaced.low h.opened h.inode hops h.priv hin hroom hsafe hstep
  refine ⟨hend.inodes, ?_, ?_, ?_⟩
  · intro p hp
    exact (hend.kept p hp).2
  · intro addr hin byte hload
    exact hend.load hf hplaced.aligned hplaced.low hin hload
  · intro a hin hnone
    exact hend.stops hf hplaced.low h.opened h.inode hops hplaced.inside hin hnone

end runs

/-! ### A page of a file that the process may write to -/

/-- A private mapping of the first file at 4 MiB, readable and writable by the user. -/
def privateCall : MmapCall where
  file := some ⟨1, 0, some .ramfs⟩
  addr := 0x400000
  length := 0x1000
  prot := ⟨true, true, false, true, false, 0⟩
  flags := ⟨false, true, false, 0⟩
  type := 0
  pgoff := 0
  object := clearedObject
  addr_lt := by decide
  length_pos := by decide
  length_lt := by decide

theorem privateCall_area : privateCall.area [] = privateArea ⟨true, false, false, true, true, 0⟩ := by
  decide +kernel

/-- The system after the call. -/
def privateSpace : System := oneFile [privateArea ⟨true, false, false, true, true, 0⟩]

theorem privateCall_mapping : PrivateMapping lowPages lowFrames (2 ^ 30) (2 ^ 30) (oneFile []) 0 privateCall
    ⟨lowPages 0, []⟩ ⟨1, 0, some .ramfs⟩ onePage privateSpace where
  grounded := (oneFile_counted []).grounded
  few := Nat.one_le_two_pow
  space := rfl
  opened := rfl
  ramfs := rfl
  inode := rfl
  cached := by
    rintro p ⟨i, hi⟩
    have hmem : some p ∈ [some 0] := List.mem_of_getElem? hi
    obtain rfl : p = 0 := by simpa using hmem
    exact ⟨Nat.one_pos, rfl⟩
  priv := rfl
  mapped := by
    have hplace : mapArea [] privateCall = some (0x400000, [privateCall.area []]) := by decide +kernel
    unfold doMmap
    rw [show (oneFile []).procs[0]? = some ⟨lowPages 0, []⟩ from rfl, Option.bind_some]
    dsimp only
    rw [hplace, Option.bind_some, privateCall_area]
    rfl
  fresh := by
    intro addr _
    rw [show (oneFile []).leaf 0 addr = 0 from newSpace_leaf ..]
    decide

theorem privateCall_placed : WellPlaced 0 privateCall (privateCall.area []) onePage.fMap privateSpace where
  populated := nofun
  inside := by decide +kernel
  aligned := by decide +kernel
  low := by decide +kernel
  found := by
    intro mm hmm addr hin
    obtain rfl := Option.some.inj hmm
    unfold findVmaForAddress
    rw [privateCall_area] at hin ⊢
    rw [List.find?_cons_of_pos]
    exact decide_eq_true hin

/-- A write that traps, a read, and a write of the byte that the file has there. -/
theorem run_private_mapping_read :
    ∃ t byte, run (UserRun.step lowPages lowFrames 0) ⟨privateSpace, []⟩
        [.write 0x400004 7, .read 0x400004, .write 0x400004 0] = some t ∧
      (t.sys.heap.pages 0).bytes = ((oneFile []).heap.pages 0).bytes ∧
      t.sys.load lowFrames 0 0x400004 = some byte ∧ byte = (t.written.lookup 0x400004).getD
        ((privateCall.area []).fileByte (oneFile []).heap onePage.fMap 0x400004) := by
  have hdefined : ((run (UserRun.step lowPages lowFrames 0) ⟨privateSpace, []⟩
      [.write 0x400004 7, .read 0x400004, .write 0x400004 0]).bind
        fun t => t.sys.load lowFrames 0 0x400004).isSome := by decide +kernel
  obtain ⟨byte, hbyte⟩ := Option.isSome_iff_exists.mp hdefined
  obtain ⟨t, hrun, hload⟩ := Option.bind_eq_some_iff.mp hbyte
  have hguarded : Guarded (UserRun.step lowPages lowFrames 0)
      (fun u a => (privateCall.area []).Contains a.addr ∧ u.Room lowPages lowFrames (2 ^ 30) (2 ^ 30) 0 a ∧
        SafeAccess (privateCall.area []) onePage.fMap 0 u a) ⟨privateSpace, []⟩
      [.write 0x400004 7, .read 0x400004, .write 0x400004 0] := by decide +kernel
  obtain ⟨-, hkept, hread, -⟩ := run_private_mapping lowPages_supply lowFrames_supply privateCall_mapping
    privateCall_placed hguarded hrun
  exact ⟨t, byte, hrun, (hkept 0 ⟨0, rfl⟩).2, hload, hread 0x400004 (by decide +kernel) byte hload⟩

/-- A read maps the page of the file, and the write that follows changes it. -/
theorem private_write_reaches_file :
    ∃ t, PrivateMapping lowPages lowFrames (2 ^ 30) (2 ^ 30) (oneFile []) 0 privateCall ⟨lowPages 0, []⟩
        ⟨1, 0, some .ramfs⟩ onePage privateSpace ∧
      WellPlaced 0 privateCall (privateCall.area []) onePage.fMap privateSpace ∧
      Guarded (UserRun.step lowPages lowFrames 0) (fun u a => (privateCall.area []).Contains a.addr ∧
        u.Room lowPages lowFrames (2 ^ 30) (2 ^ 30) 0 a) ⟨privateSpace, []⟩
        [.read 0x400004, .write 0x400004 7] ∧
      run (UserRun.step lowPages lowFrames 0) ⟨privateSpace, []⟩ [.read 0x400004, .write 0x400004 7] = some t ∧
      onePage.fMap.Owns 0 ∧ ((oneFile []).heap.pages 0).bytes 4 = 0 ∧ (t.sys.heap.pages 0).bytes 4 = 7 := by
  have hbyte : (run (UserRun.step lowPages lowFrames 0) ⟨privateSpace, []⟩
      [.read 0x400004, .write 0x400004 7]).map (fun t => (t.sys.heap.pages 0).bytes 4) = some 7 := by
    decide +kernel
  obtain ⟨t, hrun, hseven⟩ := Option.map_eq_some_iff.mp hbyte
  exact ⟨t, privateCall_mapping, privateCall_placed, by decide +kernel, hrun, ⟨0, rfl⟩, rfl, hseven⟩

end Lucix.Mm
