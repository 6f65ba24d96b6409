import Lucix.PageTable

/-!
# Areas of an address space, `mm/mmap.c`, `mm/vma.c` and `arch/x86_64/vma.c`

The list `vm_areas` is a list of areas. The object that `mem_cache_alloc_obj` returns
is not cleared, so its old contents are an argument. Taking a node off the list
poisons its links; a loop that then visits the node leaves the list, and what it does
there is not modelled.
-/
namespace Lucix.Mm
open PageTable

/-- The macro `X86_LIMIT`. -/
def x86Limit : Nat := 0x800000000000

/-- The macro `X86_LOW_LIMIT`. -/
def x86LowLimit : Nat := 0x400000

/-- The `VM_FLAG_*` bits of an area, and its other bits. -/
structure VmFlags where
  anon : Bool
  priv : Bool
  populate : Bool
  rest : Nat
  deriving DecidableEq, Repr

/-- The pointer `vm_ops`: null, `&ramfs_vma_ops`, or what an uncleared object holds. -/
inductive VmOps where
  | null
  | ramfs
  | stale (word : Nat)
  deriving DecidableEq, Repr

/-- An open file: its address, its inode, and the `vm_ops` that its `mmap` operation stores, if
it has one. -/
structure File where
  addr : Nat
  ino : Nat
  mmap : Option VmOps
  deriving DecidableEq, Repr

/-- The struct `vm_area`, less its links and the address space it is in. -/
structure VmArea where
  start : Nat
  endAddr : Nat
  length : Nat
  prot : Prot
  flags : VmFlags
  file : Option File
  type : Nat
  fpgOff : Nat
  vmOps : VmOps
  deriving DecidableEq, Repr

/-! ### Placing an area -/

def isValidVaddrForVma (areas : List VmArea) (addr length : Nat) : Bool :=
  areas.all fun area =>
    if area.start ≥ addr ∧ area.endAddr ≤ wrap64 (addr + length) then false
    else if addr ≥ area.start ∧ addr < area.endAddr then false
    else if wrap64 (addr + length) > area.start ∧ wrap64 (addr + length) < area.endAddr then false
    else true

/-- The addresses of an area of `len` bytes, one page behind the start of a gap. -/
def placeInGap (gapStart len : Nat) : Nat × Nat :=
  (wrap64 (gapStart + pageSize), wrap64 (wrap64 (gapStart + pageSize) + len))

/-- The loop of `cpu_assign_vma_vaddr`, from an area and the end of the one before it on. -/
def assignVmaVaddr (len : Nat) : Nat → List VmArea → Option (Nat × Nat)
  | _, [] => none
  | prevEmptyStart, area :: rest =>
      let prevEmptyEnd := area.start
      let nextEmptyStart := area.endAddr
      let nextEmptyEnd := match rest with
        | [] => x86Limit
        | next :: _ => next.start
      if sub64 prevEmptyEnd prevEmptyStart > wrap64 (len + pageSize * 2) then
        some (placeInGap prevEmptyStart len)
      else if sub64 nextEmptyEnd nextEmptyStart > wrap64 (len + pageSize * 2) then
        some (placeInGap nextEmptyStart len)
      else assignVmaVaddr len area.endAddr rest

/-- The function `cpu_assign_vma_vaddr`; `none` when it returns 1. -/
def cpuAssignVmaVaddr (areas : List VmArea) (len : Nat) : Option (Nat × Nat) :=
  assignVmaVaddr len x86LowLimit areas

/-! ### The list of areas -/

def findVmaForAddress (addr : Nat) (areas : List VmArea) : Option VmArea :=
  areas.find? fun area => decide (addr ≥ area.start ∧ addr < area.endAddr)

/-- The condition under which `try_join` joins two neighbours. -/
def VmArea.Joins (current next : VmArea) : Prop :=
  current.endAddr = next.start ∧ current.file = next.file ∧ current.flags = next.flags ∧
    current.prot = next.prot ∧ current.vmOps = next.vmOps

instance (current next : VmArea) : Decidable (current.Joins next) :=
  inferInstanceAs (Decidable (_ ∧ _))

/-- The function `try_join`: the areas, and the removed node that the loop goes on to. The
cursor of `list_for_each_safe` is saved before the body, so that is the node that the first join
has just taken off the list. -/
def tryJoin : List VmArea → List VmArea × Option VmArea
  | current :: next :: rest =>
      if current.Joins next then ({ current with endAddr := next.endAddr } :: rest, some next)
      else
        let (areas, removed) := tryJoin (next :: rest)
        (current :: areas, removed)
  | areas => (areas, none)

/-- The loop of `insert_vma` with the two calls of `list_add_tail`. -/
def insertSorted (vma : VmArea) : List VmArea → List VmArea
  | [] => [vma]
  | area :: rest => if vma.start < area.start then vma :: area :: rest else area :: insertSorted vma rest

def insertVma (areas : List VmArea) (vma : VmArea) : List VmArea × Option VmArea :=
  if areas = [] then ([vma], none) else tryJoin (insertSorted vma areas)

/-! ### The function `do_mmap` -/

/-- The arguments of `do_mmap`, and the old contents of the object it takes from `vm_area_cache`. -/
structure MmapCall where
  file : Option File
  addr : Nat
  length : Nat
  prot : Prot
  flags : VmFlags
  type : Nat
  pgoff : Nat
  object : VmArea
  addr_lt : addr < 2 ^ 64
  length_pos : 0 < length
  length_lt : length < 2 ^ 64

/-- The value of `num_pages * PAGE_SIZE`. -/
def MmapCall.rounded (c : MmapCall) : Nat :=
  wrap64 ((c.length / pageSize + if c.length % pageSize ≠ 0 then 1 else 0) * pageSize)

/-- A private mapping that asks for `VM_WRITE` gets `VM_MAYWRITE` instead. -/
def MmapCall.storedProt (c : MmapCall) : Prot :=
  if c.prot.write then
    if c.flags.priv then { c.prot with write := false, mayWrite := true } else c.prot
  else c.prot

/-- The `start` and `end` that the new area gets; they are the old ones when no place is found,
as `do_mmap` does not look at what `cpu_assign_vma_vaddr` returns. -/
def MmapCall.place (c : MmapCall) (areas : List VmArea) : Nat × Nat :=
  if c.addr ≠ 0 ∧ isValidVaddrForVma areas c.addr c.rounded = true then
    (c.addr, wrap64 (c.addr + c.rounded))
  else (cpuAssignVmaVaddr areas c.rounded).getD (c.object.start, c.object.endAddr)

/-- The new area, as it is inserted. -/
def MmapCall.area (c : MmapCall) (areas : List VmArea) : VmArea where
  start := (c.place areas).1
  endAddr := (c.place areas).2
  length := c.length
  prot := c.storedProt
  flags := c.flags
  file := c.file
  type := c.type
  fpgOff := c.pgoff
  vmOps := ((c.file.bind File.mmap).getD c.object.vmOps)

/-- The function `do_mmap` up to `vma_populate`, which does not change the list: the address it
returns and the new list. `none` when `try_join` visits a removed node. -/
def mapArea (areas : List VmArea) (c : MmapCall) : Option (Nat × List VmArea) :=
  match insertVma areas (c.area areas) with
  | (areas', none) => some ((c.area areas).start, areas')
  | (_, some _) => none

end Lucix.Mm
