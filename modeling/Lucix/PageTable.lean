import Lucix.Paging
import Lucix.Word
import Lucix.RadixTable

/-!
# Page tables, `arch/x86_64/paging.c`

Tables are named by the virtual address that `get_page_vaddr` returns for their
page. `alloc_pages` clears the page it returns; which pages it will return is a
parameter. The flag words that `map_contiguous` computes from its last argument are
not used by it: the bits of an entry are those written here.
-/
namespace Lucix.PageTable
open RadixTable

/-- The macros `PML4_PRESENT_FLAG`, `PDPT_PRESENT_FLAG`, `PDET_PRESENT_FLAG` and
`PTE_PRESENT_FLAG`, which are the same bit. -/
def presentFlag : Nat := 0x1

/-- The macros `PML4_RW_FLAG`, `PDPT_RW_FLAG`, `PDET_RW_FLAG` and `PTE_RW_FLAG`. -/
def rwFlag : Nat := 0x2

/-- The macros `PML4_USER`, `PDPT_USER`, `PDET_USER` and `PTE_USER`. -/
def userFlag : Nat := 0x4

/-- The macro `PDET_PAGE_SIZE`. -/
def pdetPageSize : Nat := 0x80

/-- The macro `PAGE_FRAME`. -/
def pageFrame (pa : Nat) : Nat := pa &&& 0x0000fffffffff000

def pml4FromVa (va : Nat) : Nat := (va &&& 0x0000ff8000000000) >>> 39
def pdptFromVa (va : Nat) : Nat := (va &&& 0x0000007fc0000000) >>> 30
def pdetFromVa (va : Nat) : Nat := (va &&& 0x000000003fe00000) >>> 21
def pteFromVa (va : Nat) : Nat := (va &&& 0x00000000001ff000) >>> 12

/-- The macro `PAGE_SIZE_BIG`. -/
def pageSizeBig : Nat := 0x200000

/-- The `VM_*` bits of an area or a mapping, and its other bits. -/
structure Prot where
  read : Bool
  write : Bool
  exec : Bool
  user : Bool
  mayWrite : Bool
  rest : Nat
  deriving DecidableEq, Repr

/-- The entries of all tables, and how many pages `alloc_pages` has handed out. -/
structure Tables where
  mem : Nat → Nat → Nat
  next : Nat

variable (pages : Nat → Nat)

def Tables.allocPage (s : Tables) : Nat × Tables :=
  (pages s.next, ⟨Function.update s.mem (pages s.next) fun _ => 0, s.next + 1⟩)

def Tables.set (s : Tables) (table i entry : Nat) : Tables := { s with mem := store s.mem table i entry }

/-- The block that `map_contiguous` has at each of the three upper levels: the table behind an
entry, allocated and linked if the entry is not present. -/
def Tables.tableAt (s : Tables) (table i : Nat) : Nat × Tables :=
  if s.mem table i &&& presentFlag = 0 then
    let (page, s) := s.allocPage pages
    (page, s.set table i (pageFrame (va2pa page) ||| presentFlag ||| rwFlag ||| userFlag))
  else (pa2va (pageFrame (s.mem table i)), s)

/-- The loop `for (; i < i + n && cond; i++)`. -/
def forWhile {σ : Type} (cond : σ → Bool) (body : Nat → σ → σ) : Nat → Nat → σ → σ
  | 0, _, s => s
  | n + 1, i, s => if cond s then forWhile cond body n (i + 1) (body i s) else s

/-- The locals of `map_contiguous` that its loops change. -/
structure MapLoop where
  tables : Tables
  pageCount : Nat
  pdpti : Nat
  pdeti : Nat
  ptei : Nat

/-- The arguments that stay fixed. -/
structure MapArgs where
  physAddr : Nat
  size : Nat
  big : Bool
  prot : Prot

def MapArgs.pgsize (a : MapArgs) : Nat := if a.big then pageSizeBig else pageSize

def MapArgs.numPages (a : MapArgs) : Nat :=
  a.size / a.pgsize + if a.size % a.pgsize ≠ 0 then 1 else 0

def MapArgs.more (a : MapArgs) (s : MapLoop) : Bool := decide (s.pageCount < a.numPages)

/-- The frame of the page that comes next. -/
def MapArgs.frame (a : MapArgs) (s : MapLoop) : Nat :=
  pageFrame (wrap64 (a.physAddr + s.pageCount * a.pgsize))

def mapPte (a : MapArgs) (pte ptei : Nat) (s : MapLoop) : MapLoop :=
  { s with
    tables := s.tables.set pte ptei
      (a.frame s ||| presentFlag ||| rwFlag ||| if a.prot.user then userFlag else 0)
    pageCount := s.pageCount + 1 }

def mapPdet (a : MapArgs) (pdet pdeti : Nat) (s : MapLoop) : MapLoop :=
  if a.big then
    { s with
      tables := s.tables.set pdet pdeti
        (a.frame s ||| presentFlag ||| rwFlag ||| pdetPageSize ||| userFlag)
      pageCount := s.pageCount + 1 }
  else
    let (pte, tables) := s.tables.tableAt pages pdet pdeti
    { forWhile a.more (mapPte a pte) (512 - s.ptei) s.ptei { s with tables := tables } with ptei := 0 }

def mapPdpt (a : MapArgs) (pdpt pdpti : Nat) (s : MapLoop) : MapLoop :=
  let (pdet, tables) := s.tables.tableAt pages pdpt pdpti
  { forWhile a.more (mapPdet pages a pdet) (512 - s.pdeti) s.pdeti { s with tables := tables } with
    pdeti := 0 }

def mapPml4 (a : MapArgs) (pml4 pml4i : Nat) (s : MapLoop) : MapLoop :=
  let (pdpt, tables) := s.tables.tableAt pages pml4 pml4i
  { forWhile a.more (mapPdpt pages a pdpt) (512 - s.pdpti) s.pdpti { s with tables := tables } with
    pdpti := 0 }

/-- The function `map_contiguous`; `none` when it leaves the top-level table. -/
def mapContiguous (s : Tables) (pgtable physAddr vaddr size : Nat) (big : Bool) (prot : Prot) :
    Option Tables :=
  let a : MapArgs := ⟨physAddr, size, big, prot⟩
  if pml4FromVa vaddr + pml4FromVa size < 512 then
    some (forWhile (fun _ => true) (mapPml4 pages a pgtable) (pml4FromVa size + 1) (pml4FromVa vaddr)
      ⟨s, 0, pdptFromVa vaddr, pdetFromVa vaddr, pteFromVa vaddr⟩).tables
  else none

def cpuMmMapPage (s : Tables) (pgtable physAddr vaddr : Nat) (prot : Prot) : Option Tables :=
  mapContiguous pages s pgtable physAddr vaddr pageSize false prot

/-- The macro `BASE_KERNEL_VA`. -/
def baseKernelVa : Nat := 0xffffffff80000000

/-- The value that `limine_start.c` gives `g_kernel_reserved_size`. -/
def kernelReservedSize : Nat := 0x1000000

/-- The flags `VM_WRITE | VM_READ | VM_EXEC`. -/
def kernelProt : Prot := ⟨true, true, true, false, false, 0⟩

/-- The function `paging_init`; its argument is `g_kernel_phys_base`. -/
def pagingInit (s : Tables) (kernelPhysBase : Nat) : Option (Nat × Tables) :=
  let (kernelPgtable, s) := s.allocPage pages
  (mapContiguous pages s kernelPgtable 0 identityBase 0x10000000000 true kernelProt).bind fun s =>
    (mapContiguous pages s kernelPgtable kernelPhysBase baseKernelVa kernelReservedSize false
      kernelProt).map fun s => (kernelPgtable, s)

/-- The function `cpu_mm_create_page_table`: the new table is a copy of the kernel's. -/
def cpuMmCreatePageTable (s : Tables) (kernelPgtable : Nat) : Nat × Tables :=
  let (page, s) := s.allocPage pages
  (page, { s with mem := Function.update s.mem page (s.mem kernelPgtable) })

/-- The function `cpu_mm_get_phys_address`. -/
def cpuMmGetPhysAddress (s : Tables) (pgtable vaddr : Nat) : Nat :=
  let entry := s.mem pgtable (pml4FromVa vaddr)
  if entry &&& presentFlag = 0 then 0xfff else
  let entry := s.mem (pa2va (pageFrame entry)) (pdptFromVa vaddr)
  if entry &&& presentFlag = 0 then 0xfff else
  let entry := s.mem (pa2va (pageFrame entry)) (pdetFromVa vaddr)
  if entry &&& presentFlag = 0 then 0xfff else
  if entry &&& pdetPageSize ≠ 0 then pageFrame entry else
  let entry := s.mem (pa2va (pageFrame entry)) (pteFromVa vaddr)
  if entry &&& presentFlag = 0 then 0xfff else pageFrame entry

end Lucix.PageTable
