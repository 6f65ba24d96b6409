import Lucix.ListHead
import Lucix.Paging
import Lucix.Execution
import Lucix.Buddy

/-!
# The physical page allocator, `mm/page_alloc.c`

A zone keeps one intrusive list of free blocks for each order, threaded through
its array of page structs, and a bitmap with one bit for each pair of sibling
blocks. A function returns `none` where the source would leave the objects it
owns: a null pointer, a bitmap word beyond the reserved bytes, a page struct
beyond the array, or a `memset` over the allocator's own data.
-/
namespace Lucix.PageAlloc
open Ring Execution

def maxPgOrder : Nat := 10

def numPgOrders : Nat := maxPgOrder + 1

def maxMemZones : Nat := 64

/-- The size of `mem_map_t`: a list head, three words, padding and a pointer. -/
def memMapSize : Nat := 40

def pgallocKernel : Nat := 1

def memzoneIdentityMapped : Nat := 1

/-- A usable entry of the boot loader's memory map: page aligned, and its end is an address. -/
structure MemZoneInfo where
  physBase : Nat
  length : Nat
  base_aligned : physBase % pageSize = 0
  length_aligned : length % pageSize = 0
  fits : physBase + length < 2 ^ 64

structure CpuMemoryInfo where
  numMemZones : Nat
  zones : Nat → MemZoneInfo
  bounded : numMemZones ≤ maxMemZones

/-- The list nodes of a zone: the head of a free area or the node of a page struct. -/
inductive ZoneNode where
  | area (order : Nat)
  | page (pfn : Nat)
  deriving DecidableEq, Repr

/-- The fields of a zone that `mem_init` sets once and for all. -/
structure ZoneLayout where
  map : Nat → Nat
  physBase : Nat
  absPfnBase : Nat
  absPfnStart : Nat
  absNumPages : Nat
  usableNumPages : Nat
  maxOrder : Nat
  bitmapSizes : Nat → Nat
  memMap : Nat
  flags : Nat

/-- A zone with the memory it manages its pages in: the links of its list nodes, the
words of its bitmaps, and the flags and reference counts of its page structs. -/
structure MemoryZone extends ZoneLayout where
  links : Links ZoneNode
  words : Nat → Nat → BitVec 32
  availablePages : Nat
  pageFlags : Nat → Nat
  pageRefcnt : Nat → Nat

structure AllocState where
  numZones : Nat
  zones : Nat → MemoryZone
  biggestMappedIdx : Nat
  totalSystemMemory : Nat
  totalSystemMemoryPages : Nat
  allocatorMaintenanceMemory : Nat
  totalMaintenanceUsed : Nat

def AllocState.setZone (st : AllocState) (z : Nat) (zone : MemoryZone) : AllocState :=
  { st with zones := Function.update st.zones z zone }

/-- What memory holds before `mem_init`: the 32-bit word at each physical address, and
for each zone the stale contents of its list nodes and page structs. -/
structure PhysMem where
  word : Nat → BitVec 32
  links : Nat → Links ZoneNode
  pageFlags : Nat → Nat → Nat
  pageRefcnt : Nat → Nat → Nat

/-- The loop of `__get_max_order` from index `i` on. -/
def getMaxOrderFrom (usablePages : Nat) : Nat → Nat → Nat
  | 0, _ => maxPgOrder
  | fuel + 1, i =>
      if usablePages >>> i = 0 then
        if usablePages % 2 ^ i ≠ 0 then i - 1 else i
      else getMaxOrderFrom usablePages fuel (i + 1)

def getMaxOrder (usablePages : Nat) : Nat := getMaxOrderFrom usablePages numPgOrders 0

def initMemmap (zone : MemoryZone) : MemoryZone :=
  loop (fun page zone => { zone with
    links := initListHead zone.links (.page page)
    pageFlags := Function.update zone.pageFlags page 0 }) zone.usableNumPages zone

/-- The bit of a sibling pair, as it stands in the bitmap of its order. -/
def MemoryZone.bit (zone : MemoryZone) (order pair : Nat) : Bool :=
  (zone.words order (pair / 32)).getLsbD (pair % 32)

/-- Flip the bit of the pair of `pfn` and return its new value. The map of an order is
null until `__initialize_offsets` sets it, and holds `bitmap_sizes[order]` bytes. -/
def toggleBitPfnZone (pfn : Nat) (zone : MemoryZone) (order : Nat) :
    Option (Bool × MemoryZone) :=
  let totalBitOffset := pfn >>> (order + 1)
  let bitmapOffset := totalBitOffset / 32
  let bitOffset := totalBitOffset % 32
  if zone.map order = 0 then none
  else if 4 * bitmapOffset + 4 ≤ zone.bitmapSizes order then
    let word := zone.words order bitmapOffset ^^^ (1#32 <<< bitOffset)
    some (decide (word &&& (1#32 <<< bitOffset) ≠ 0#32), { zone with
      words := Function.update zone.words order
        (Function.update (zone.words order) bitmapOffset word) })
  else none

/-- The address of entry `pfn` of a zone's `mem_map`. -/
def ZoneLayout.pageAddr (zone : ZoneLayout) (pfn : Nat) : Nat := zone.memMap + memMapSize * pfn

/-- The test that the page struct at `p` belongs to the zone. -/
def ZoneLayout.holds (zone : ZoneLayout) (p : Nat) : Bool :=
  decide (va2pa zone.memMap ≤ va2pa p ∧
    va2pa p < va2pa zone.memMap + memMapSize * zone.usableNumPages)

def getZoneAndPfnFromPage (st : AllocState) (p : Nat) : Option (Nat × Nat) :=
  ((List.range st.numZones).find? fun z => (st.zones z).holds p).map fun z =>
    (z, (va2pa p - va2pa (st.zones z).memMap) / memMapSize)

def getPhysAddrFromPage (st : AllocState) (p : Nat) : Option Nat :=
  (getZoneAndPfnFromPage st p).map fun (z, pfn) => ((st.zones z).absPfnStart + pfn) * pageSize

def toggleBitPage (st : AllocState) (p order : Nat) : Option (Bool × AllocState) := do
  let (z, pfn) ← getZoneAndPfnFromPage st p
  let (bit, zone) ← toggleBitPfnZone pfn (st.zones z) order
  some (bit, st.setZone z zone)

/-- One round of the bitmap loop of `__initialize_offsets`; the second component is the
running `bitmap_offset`, the third `total_maintenance_used`. -/
def placeBitmap (phys : PhysMem) (order : Nat) :
    MemoryZone × Nat × Nat → MemoryZone × Nat × Nat
  | (zone, bitmapOffset, used) =>
      if order < maxPgOrder then
        let toadd := zone.bitmapSizes order / 4 % 2 ^ 32
        ({ zone with
            map := Function.update zone.map order bitmapOffset
            words := Function.update zone.words order
              fun w => phys.word (va2pa bitmapOffset + 4 * w) },
          bitmapOffset + 4 * toadd, used + toadd * 4)
      else (zone, bitmapOffset, used)

/-- The body of `__initialize_offsets`, with the updated `total_maintenance_used`. -/
def placeZone (phys : PhysMem) (biggestBase used : Nat) (zone : MemoryZone) :
    MemoryZone × Nat :=
  let maxOrder := getMaxOrder (zone.usableNumPages % 2 ^ 32)
  let usable := zone.usableNumPages >>> maxOrder <<< maxOrder
  let zone := { zone with
    maxOrder := maxOrder
    usableNumPages := usable
    memMap := biggestBase + used }
  let used := used + memMapSize * usable
  let (zone, _, used) :=
    loop (placeBitmap phys) (maxOrder + 1) (zone, biggestBase + used, used)
  (initMemmap zone, used)

def initializeOffsets (phys : PhysMem) (z : Nat) (st : AllocState) : AllocState :=
  let biggestBase := pa2va (st.zones st.biggestMappedIdx).physBase
  let (zone, used) := placeZone phys biggestBase st.totalMaintenanceUsed (st.zones z)
  { st.setZone z zone with totalMaintenanceUsed := used }

/-- The pages `__init_maintenance_zone` sets aside for the metadata. -/
def maintenancePages (maintenanceMemory : Nat) : Nat :=
  maintenanceMemory / pageSize + if maintenanceMemory % pageSize ≠ 0 then 1 else 0

def initMaintenanceZone (phys : PhysMem) (z : Nat) (st : AllocState) : AllocState :=
  let zone := st.zones z
  let reserved := maintenancePages st.allocatorMaintenanceMemory
  initializeOffsets phys z (st.setZone z { zone with
    absPfnStart := reserved
    usableNumPages := (zone.absNumPages + 2 ^ 64 - reserved) % 2 ^ 64 })

def initFreeLists (zone : MemoryZone) : MemoryZone :=
  let numBigPages := zone.usableNumPages >>> zone.maxOrder
  let links := loop (fun o links => initListHead links (.area o)) (zone.maxOrder + 1) zone.links
  let links := loop (fun p links =>
    listAddTail links (.page (p <<< zone.maxOrder)) (.area zone.maxOrder)) numBigPages links
  { zone with links := links }

/-- The bytes of the bitmap of order `i`: one bit for each pair of blocks, rounded up to
whole words, and never empty. -/
def bitmapSize (absNumPages i : Nat) : Nat :=
  let size := absNumPages / (8 * (2 <<< i))
  let size := if size % 4 ≠ 0 then size + (4 - size % 4) else size
  if size = 0 then 4 else size

/-- One round of the first loop of `mem_init`; the second component is the index that
`biggest_mapped` points at. -/
def scanZone (info : CpuMemoryInfo) (z : Nat) :
    AllocState × Option Nat → AllocState × Option Nat
  | (st, biggestMapped) =>
      let zoneInfo := info.zones z
      let absNumPages := zoneInfo.length / pageSize
      let mapped := decide (zoneInfo.physBase + zoneInfo.length < 0x100000000)
      let bigger := match biggestMapped with
        | none => true
        | some b => decide ((info.zones b).length < zoneInfo.length)
      let zone := { st.zones z with
        physBase := zoneInfo.physBase
        absNumPages := absNumPages
        bitmapSizes := bitmapSize absNumPages
        flags := if mapped then memzoneIdentityMapped else (st.zones z).flags
        absPfnStart := zoneInfo.physBase / pageSize
        absPfnBase := zoneInfo.physBase / pageSize }
      ({ st.setZone z zone with
          totalSystemMemory := (st.totalSystemMemory + zoneInfo.length) % 2 ^ 64
          allocatorMaintenanceMemory :=
            loop (fun i m => (m + bitmapSize absNumPages i) % 2 ^ 64) maxPgOrder
              st.allocatorMaintenanceMemory
          biggestMappedIdx := if mapped && bigger then z else st.biggestMappedIdx },
        if mapped && bigger then some z else biggestMapped)

/-- A zone of the static `state` before `mem_init`: every field zero, and memory as it was. -/
def bootZone (phys : PhysMem) (z : Nat) : MemoryZone where
  map _ := 0
  physBase := 0
  absPfnBase := 0
  absPfnStart := 0
  absNumPages := 0
  usableNumPages := 0
  maxOrder := 0
  bitmapSizes _ := 0
  memMap := 0
  flags := 0
  links := phys.links z
  words _ _ := 0#32
  availablePages := 0
  pageFlags := phys.pageFlags z
  pageRefcnt := phys.pageRefcnt z

def bootState (phys : PhysMem) (info : CpuMemoryInfo) : AllocState where
  numZones := info.numMemZones
  zones := bootZone phys
  biggestMappedIdx := 0
  totalSystemMemory := 0
  totalSystemMemoryPages := 0
  allocatorMaintenanceMemory := 0
  totalMaintenanceUsed := 0

/-- The state after the first loop and the two totals that follow it. -/
def measured (phys : PhysMem) (info : CpuMemoryInfo) : AllocState × Option Nat :=
  let (st, biggestMapped) := loop (scanZone info) info.numMemZones (bootState phys info, none)
  let pages := st.totalSystemMemory / pageSize
  ({ st with
      totalSystemMemoryPages := pages
      allocatorMaintenanceMemory :=
        (st.allocatorMaintenanceMemory + pages * memMapSize) % 2 ^ 64 }, biggestMapped)

/-- The loop that lays out every zone but the one that holds the metadata. -/
def layoutZone (phys : PhysMem) (z : Nat) (st : AllocState) : AllocState :=
  if z = st.biggestMappedIdx then st
  else initializeOffsets phys z
    (st.setZone z { st.zones z with usableNumPages := (st.zones z).absNumPages })

def openZone (z : Nat) (st : AllocState) : AllocState :=
  st.setZone z (initFreeLists { st.zones z with availablePages := (st.zones z).usableNumPages })

/-- A map without a zone below 4 GiB makes `mem_init` read through a null pointer, and one
whose biggest such zone is too short for the metadata stops it with `hlt`. -/
def memInit (phys : PhysMem) (info : CpuMemoryInfo) : Option AllocState :=
  match measured phys info with
  | (_, none) => none
  | (st, some biggest) =>
      if (info.zones biggest).length < st.allocatorMaintenanceMemory then none
      else
        let st := loop (layoutZone phys) st.numZones st
        let st := initMaintenanceZone phys st.biggestMappedIdx st
        some (loop openZone st.numZones st)

/-- The page struct a list node belongs to; a list head belongs to none. -/
def ZoneNode.pfn? : ZoneNode → Option Nat
  | .page pfn => some pfn
  | .area _ => none

def MemoryZone.setLinks (zone : MemoryZone) (links : Links ZoneNode) : MemoryZone :=
  { zone with links := links }

/-- The recursion of `__alloc_from_zone`. A page of the zone is named by its index in
`mem_map`; the inner `none` is the null result. -/
def allocFromZone : Nat → AllocState → Nat → Nat → Option (Option Nat × AllocState)
  | 0, _, _, _ => none
  | fuel + 1, st, z, order =>
      let zone := st.zones z
      let free := ZoneNode.area order
      if order = zone.maxOrder then
        if listEmpty zone.links free then some (none, st)
        else do
          let page ← (zone.links.next free).pfn?
          some (some page, st.setZone z (zone.setLinks (listDelInit zone.links (.page page))))
      else if !listEmpty zone.links free then do
        let page ← (zone.links.next free).pfn?
        let st := st.setZone z (zone.setLinks (listDelInit zone.links (.page page)))
        let (_, st) ← toggleBitPage st (zone.pageAddr page) order
        some (some page, st)
      else do
        match ← allocFromZone fuel st z (order + 1) with
        | (none, st) => some (none, st)
        | (some page, st) =>
            let zone := st.zones z
            let st := st.setZone z (zone.setLinks
              (listAddTail zone.links free (.page (page + 2 ^ order))))
            let (_, st) ← toggleBitPage st (zone.pageAddr page) order
            some (some page, st)

/-- The tests a zone has to pass before `alloc_pages` tries it. -/
def eligible (zone : MemoryZone) (flags order : Nat) : Bool :=
  decide (flags &&& pgallocKernel ≠ 0 ∧ zone.flags &&& memzoneIdentityMapped ≠ 0) &&
    !decide (zone.maxOrder < order ∨ zone.availablePages < 2 ^ order)

/-- The zone loop of `alloc_pages`, with `n` zones left from zone `z` on. -/
def allocFromZones (flags order : Nat) :
    Nat → Nat → AllocState → Option (Option (Nat × Nat) × AllocState)
  | 0, _, st => some (none, st)
  | n + 1, z, st =>
      if eligible (st.zones z) flags order then do
        match ← allocFromZone numPgOrders st z order with
        | (some page, st) =>
            let zone := st.zones z
            some (some (z, page),
              st.setZone z { zone with availablePages := zone.availablePages - 2 ^ order })
        | (none, st) => allocFromZones flags order n (z + 1) st
      else allocFromZones flags order n (z + 1) st

/-- Whether the bytes from physical address `a` on overlap the page structs and bitmaps,
which fill the start of the biggest mapped zone. -/
def AllocState.inMetadata (st : AllocState) (a len : Nat) : Bool :=
  let base := (st.zones st.biggestMappedIdx).physBase
  decide (a < base + st.totalMaintenanceUsed ∧ base < a + len)

/-- `getPageVaddr` stands for `get_page_vaddr` of `lucix/page.h`, which the repository
does not contain. The result is the address of the first page struct of the block. -/
def allocPages (getPageVaddr : Nat → Nat) (st : AllocState) (flags order : Nat) :
    Option (Nat × AllocState) := do
  match ← allocFromZones flags order st.numZones 0 st with
  | (none, _) => none
  | (some (z, page), st) =>
      let zone := st.zones z
      let p := zone.pageAddr page
      if st.inMetadata (va2pa (getPageVaddr p)) (pageSize * 2 ^ order) then none
      else some (p, st.setZone z
        { zone with pageRefcnt := Function.update zone.pageRefcnt page 0 })

/-- The recursion of `free_pages`; the index that should name the lower sibling is
computed as the source computes it. -/
def freePages : Nat → AllocState → Nat → Nat → Option AllocState
  | 0, _, _, _ => none
  | fuel + 1, st, p, order =>
      match getZoneAndPfnFromPage st p with
      | none => some st
      | some (z, pfn) =>
          let zone := st.zones z
          if zone.maxOrder < order then some st
          else if pfn % 2 ^ order ≠ 0 then some st
          else do
            let zone := { zone with
              availablePages := (zone.availablePages + 2 ^ order) % 2 ^ 64 }
            let (bit, zone) ← toggleBitPfnZone pfn zone order
            if bit then
              some (st.setZone z (zone.setLinks (listAdd zone.links (.area order) (.page pfn))))
            else
              let buddyPfn := pfn >>> (order + 1)
              if buddyPfn + 2 ^ order < zone.usableNumPages then
                let links := listDelInit zone.links (.page buddyPfn)
                let links := listDelInit links (.page (buddyPfn + 2 ^ order))
                freePages fuel (st.setZone z (zone.setLinks links)) (zone.pageAddr buddyPfn)
                  (order + 1)
              else none

/-- The block starts reachable from the head of a free area, in list order. -/
def MemoryZone.freeList (zone : MemoryZone) (order : Nat) : List Nat :=
  if order ≤ zone.maxOrder then
    ((zone.links.walk (.area order) (zone.usableNumPages + 1) (.area order)).getD []).filterMap
      ZoneNode.pfn?
  else []

/-- The buddy system a zone represents. -/
def MemoryZone.buddy (zone : MemoryZone) : Buddy.State := ⟨zone.freeList, zone.bit⟩

end Lucix.PageAlloc
