import Lucix.Vma
import Lucix.FileIo

/-!
# Page faults, `mm/page_fault.c`, with `vma_populate` and the fault operation of ramfs

Pages of user memory and of page caches are named in the order in which `alloc_pages`
hands them out; what the allocator says of a page and of a physical address is a
parameter, as are the pages that it returns for tables. A function returns `none` where the
source stops the machine, follows a pointer that is not valid, or indexes behind the end of
an array; `faultOutcome` tells the last of these from the others.
-/
namespace Lucix.Mm
open PageTable FileIo PagedBytes

/-- The `PGFAULT_*` bits that describe an access. -/
structure FaultFlags where
  protection : Bool
  write : Bool
  usr : Bool
  instruction : Bool
  deriving DecidableEq, Repr

structure ProcMm where
  pgtable : Nat
  vmAreas : List VmArea

/-- Page tables, pages and which of them were freed, address spaces and inodes. -/
structure System where
  tables : Tables
  heap : PageHeap
  freed : Nat → Bool
  procs : List ProcMm
  inodes : List Inode

/-- The decrement of a `uint32_t`. -/
def pred32 (n : Nat) : Nat := if n = 0 then 2 ^ 32 - 1 else n - 1

theorem pred32_of_pos {n : Nat} (hpos : 0 < n) : pred32 n = n - 1 := if_neg (by omega)

/-- The usage `PAGE_USAGE_ANON`. -/
def pageUsageAnon : Nat := 2

def System.allocPage (s : System) : Nat × System :=
  (s.heap.allocPage.1, { s with
    heap := s.heap.allocPage.2
    freed := Function.update s.freed s.heap.allocPage.1 false })

def System.pageRef (s : System) (p : Nat) : System := { s with heap := s.heap.pageRef p }

def System.pageUnref (s : System) (p : Nat) : System :=
  let refcnt := pred32 (s.heap.pages p).refcnt
  { s with
    heap := s.heap.setPage p { s.heap.pages p with refcnt := refcnt }
    freed := if refcnt = 0 then Function.update s.freed p true else s.freed }

/-- The copy of a page by `memcpy`. -/
def System.copyPage (s : System) (dst src : Nat) : System :=
  { s with heap := s.heap.setPage dst { s.heap.pages dst with
      bytes := overwrite (s.heap.pages dst).bytes 0 (s.heap.pages src).bytes pageSize } }

def System.pageSetUsage (s : System) (p usage : Nat) : System :=
  { s with heap := s.heap.pageSetUsage p usage }

/-- The functions `get_phys_addr_from_page` and `get_page_from_paddr`. -/
structure Frames where
  addr : Nat → Nat
  page : Nat → Option Nat

instance : CoeFun Frames fun _ => Nat → Nat := ⟨Frames.addr⟩

variable (pages : Nat → Nat) (frames : Frames)

/-- The call of `cpu_mm_map_page` on a page table. -/
def System.mapPage (s : System) (pgtable phys vaddr : Nat) (prot : Prot) : Option System :=
  (cpuMmMapPage pages s.tables pgtable phys vaddr prot).map fun tables => { s with tables := tables }

/-- The function `anonymous_page_handler`: the value of `vm_fault->new_page`. -/
def anonymousPageHandler (s : System) (pgtable : Nat) (vma : VmArea) (addr : Nat) (flags : FaultFlags) :
    Option (Option Nat × System) :=
  if flags.protection then
    if flags.write then
      let pagePhys := cpuMmGetPhysAddress s.tables pgtable addr
      if !vma.prot.mayWrite && !vma.prot.write then none
      else if pagePhys &&& 1 ≠ 0 then none
      else
        (frames.page pagePhys).bind fun page =>
          if vma.prot.mayWrite then
            if 1 < (s.heap.pages page).refcnt then
              let (newPage, s) := s.allocPage
              let s := ((s.copyPage newPage page).pageRef newPage).pageUnref page
              some (some newPage, s.pageSetUsage newPage pageUsageAnon)
            else some (some page, s)
          else some (none, s)
    else none
  else
    let (newPage, s) := s.allocPage
    some (some newPage, s.pageRef newPage)

/-- The value of `vm_fault->pgoffset`. -/
def pgoffset (vma : VmArea) (addr : Nat) : Nat := sub64 addr vma.start / pageSize

/-- The entry of `f_map->pages` of the mapped file. -/
def System.cacheSlot (s : System) (vma : VmArea) (i : Nat) : Option (Option Nat) :=
  vma.file.bind fun file => s.inodes[file.ino]?.bind fun ino => ino.fMap.pages[i + vma.fpgOff]?

def ramfsVmaFault (s : System) (vma : VmArea) (addr : Nat) (flags : FaultFlags) :
    Option (Option Nat × System) :=
  (s.cacheSlot vma (pgoffset vma addr)).bind fun slot => slot.bind fun page =>
    if flags.protection then
      if flags.write && vma.prot.mayWrite then
        if vma.flags.priv then
          let (newPage, s) := s.allocPage
          some (some newPage, ((s.pageRef newPage).pageUnref page).copyPage newPage page)
        else some (some page, s.pageRef page)
      else some (none, s)
    else some (some page, s.pageRef page)

/-- The handler that `kernel_page_fault` calls. -/
def faultHandler (s : System) (pgtable : Nat) (vma : VmArea) (addr : Nat) (flags : FaultFlags) :
    Option (Option Nat × System) :=
  match vma.vmOps with
  | .ramfs => ramfsVmaFault s vma addr flags
  | .null => anonymousPageHandler frames s pgtable vma addr flags
  | .stale _ => none

/-- The protection that `kernel_page_fault` maps a page with. -/
def faultProt (vma : VmArea) (flags : FaultFlags) : Prot :=
  if flags.protection && flags.write && vma.prot.mayWrite then { vma.prot with write := true }
  else vma.prot

/-- The function `kernel_page_fault` in the task whose address space has number `k`. No handler
sets `vm_fault.pfn`. -/
def kernelPageFault (s : System) (k addr : Nat) (flags : FaultFlags) : Option System :=
  s.procs[k]?.bind fun mm => (findVmaForAddress addr mm.vmAreas).bind fun vma =>
    (faultHandler frames s mm.pgtable vma addr flags).bind fun (newPage, s) =>
      match newPage with
      | some p => s.mapPage pages mm.pgtable (frames p) (pageFrame addr) (faultProt vma flags)
      | none => some s

/-- The slots that are counted and that the array has. -/
def slotCount (map : PageMapping) : Nat := min map.nrPages map.pages.length

/-- The mapped file has a slot for page `i` of the area. -/
def System.HasSlot (s : System) (vma : VmArea) (i : Nat) : Prop :=
  ∃ file ∈ vma.file, ∃ ino ∈ s.inodes[file.ino]?, i + vma.fpgOff < slotCount ino.fMap

instance (s : System) (vma : VmArea) (i : Nat) : Decidable (s.HasSlot vma i) :=
  inferInstanceAs (Decidable (∃ file ∈ _, ∃ ino ∈ _, _))

/-- A file that has no slot for the address: `ramfs_vma_fault` goes on with what it reads behind the
slots of `f_map->pages`. -/
def System.Wild (s : System) (vma : VmArea) (addr : Nat) : Prop :=
  vma.vmOps = .ramfs ∧ ¬ s.HasSlot vma (pgoffset vma addr)

instance (s : System) (vma : VmArea) (addr : Nat) : Decidable (s.Wild vma addr) :=
  inferInstanceAs (Decidable (_ ∧ _))

/-- A fault of the task whose address space has number `k`. -/
def System.WildFault (s : System) (k addr : Nat) : Prop :=
  ∃ mm ∈ s.procs[k]?, ∃ vma ∈ findVmaForAddress addr mm.vmAreas, s.Wild vma addr

instance (s : System) (k addr : Nat) : Decidable (s.WildFault k addr) :=
  inferInstanceAs (Decidable (∃ mm ∈ _, _))

/-- What a page fault comes to: 0 is returned, the machine is stopped, or memory behind the slots of
`f_map->pages` is taken for a page. -/
inductive FaultOutcome where
  | returned (s : System)
  | stopped
  | wild

def faultOutcome (s : System) (k addr : Nat) (flags : FaultFlags) : FaultOutcome :=
  if s.WildFault k addr then .wild
  else match kernelPageFault pages frames s k addr flags with
    | some s => .returned s
    | none => .stopped

/-- The page in a slot of the mapped file, a new one if the slot is empty. -/
def System.populateSlot (s : System) (vma : VmArea) (i : Nat) : Option (Nat × System) :=
  vma.file.bind fun file => s.inodes[file.ino]?.bind fun ino =>
    ino.fMap.pages[i + vma.fpgOff]?.bind fun slot =>
      match slot with
      | some p => some (p, s)
      | none =>
          let (p, s) := s.allocPage
          let heap := s.heap.setPage p { s.heap.pages p with flags := pageUsageCache }
          (ino.fMap.setPage (i + vma.fpgOff) p).map fun map =>
            (p, { s with heap := heap, inodes := s.inodes.set file.ino { ino with fMap := map } })

/-- The body of the loop of `vma_populate`; `phys` stays 0 for a file. -/
def populateBody (pgtable : Nat) (vma : VmArea) (s : System) (i : Nat) : Option System :=
  let vaddr := wrap64 (vma.start + i * pageSize)
  (if vma.flags.anon then
    let (p, s) := s.allocPage
    some (p, frames p, s)
  else (s.populateSlot vma i).map fun (p, s) => (p, 0, s)).bind fun (p, phys, s) =>
    (s.pageRef p).mapPage pages pgtable phys (pageFrame vaddr) vma.prot

/-- One iteration. The product `i * PAGE_SIZE` is an `int`. -/
def populatePage (pgtable : Nat) (vma : VmArea) (s : System) (i : Nat) : Option System :=
  if i * pageSize < 2 ^ 31 then populateBody pages frames pgtable vma s i else none

/-- The first `n` iterations. -/
def populatePages (pgtable : Nat) (vma : VmArea) : Nat → System → Option System
  | 0, s => some s
  | n + 1, s => (populatePages pgtable vma n s).bind fun s => populatePage pages frames pgtable vma s n

/-- The function `vma_populate`. -/
def vmaPopulate (s : System) (pgtable : Nat) (vma : VmArea) : Option System :=
  populatePages pages frames pgtable vma (vma.length / pageSize) s

/-- The function `do_mmap` on the address space with number `k`. -/
def doMmap (s : System) (k : Nat) (c : MmapCall) : Option (Nat × System) :=
  s.procs[k]?.bind fun mm => (mapArea mm.vmAreas c).bind fun (start, areas) =>
    let s := { s with procs := s.procs.set k { mm with vmAreas := areas } }
    if c.flags.populate then
      (vmaPopulate pages frames s mm.pgtable (c.area mm.vmAreas)).map fun s => (start, s)
    else some (start, s)

end Lucix.Mm
