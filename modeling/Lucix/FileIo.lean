import Lucix.Paging
import Lucix.Word
import Lucix.Execution
import Lucix.PagedBytes

/-!
# Reading and writing files, `fs/read_write.c`

The loops of `generic_file_read` and `generic_file_write` with the mapping
operations of `fs/ramfs/ramfs.c`. Every page is an object of its own, and the array
`pages` of a mapping has the slots it was allocated with; a function returns `none`
where the source would touch memory outside such an object. `size_t` and `int64_t`
values are kept modulo `2 ^ 64`.
-/
namespace Lucix.FileIo
open Execution PagedBytes

/-- The usage `PAGE_USAGE_CACHE`. -/
def pageUsageCache : Nat := 1

/-- The flag `PAGE_CACHE_FLAG_DIRTY`. -/
def pageCacheFlagDirty : Nat := 0x100

structure Page where
  bytes : Nat → UInt8
  usage : Nat
  flags : Nat
  refcnt : Nat

/-- All pages, named in the order in which `alloc_pages` hands them out. -/
structure PageHeap where
  pages : Nat → Page
  next : Nat

def PageHeap.setPage (heap : PageHeap) (p : Nat) (page : Page) : PageHeap :=
  { heap with pages := Function.update heap.pages p page }

/-- The function `alloc_pages` for one page: it clears the page. -/
def PageHeap.allocPage (heap : PageHeap) : Nat × PageHeap :=
  (heap.next, { (heap.setPage heap.next
    { heap.pages heap.next with bytes := fun _ => 0, refcnt := 0 }) with next := heap.next + 1 })

def PageHeap.pageRef (heap : PageHeap) (p : Nat) : PageHeap :=
  heap.setPage p { heap.pages p with refcnt := ((heap.pages p).refcnt + 1) % 2 ^ 32 }

def PageHeap.pageSetUsage (heap : PageHeap) (p usage : Nat) : PageHeap :=
  heap.setPage p { heap.pages p with usage := usage }

def PageHeap.pageMkDirty (heap : PageHeap) (p : Nat) : PageHeap :=
  heap.setPage p { heap.pages p with flags := (heap.pages p).flags ||| pageCacheFlagDirty }

structure PageMapping where
  pages : List (Option Nat)
  nrPages : Nat
  deriving DecidableEq, Repr

/-- The struct `inode`, less its operation tables and the fields that nothing reads. -/
structure Inode where
  id : Nat
  mode : Nat
  size : Nat
  dev : Nat
  blocks : Nat
  blockSize : Nat
  refcnt : Nat
  fMap : PageMapping
  deriving DecidableEq, Repr

/-- The store `mapping->pages[i] = page`. -/
def PageMapping.setPage (map : PageMapping) (i p : Nat) : Option PageMapping :=
  if i < map.pages.length then some { map with pages := map.pages.set i (some p) } else none

/-- The store of `n` bytes into a page by `memcpy`. -/
def PageHeap.copyIn (heap : PageHeap) (p off : Nat) (src : Nat → UInt8) (n : Nat) :
    Option PageHeap :=
  if off + n ≤ pageSize then
    some (heap.setPage p { heap.pages p with bytes := overwrite (heap.pages p).bytes off src n })
  else none

/-- The `n` bytes of a page from `off` on, as `memcpy` reads them. -/
def PageHeap.copyOut (heap : PageHeap) (p : Nat) (off : Int) (n : Nat) : Option (List UInt8) :=
  if n = 0 then some []
  else if 0 ≤ off ∧ off + n ≤ pageSize then
    some ((List.range n).map fun i => (heap.pages p).bytes (off.toNat + i))
  else none

/-- A cleared page in the cache of the mapping. -/
def newCachePage (heap : PageHeap) (map : PageMapping) (i : Nat) :
    Option (Nat × PageHeap × PageMapping) := do
  let (p, heap) := heap.allocPage
  let heap := (heap.pageRef p).pageSetUsage p pageUsageCache
  let map ← map.setPage i p
  some (p, heap, map)

/-- The page in slot `i`, new if the slot is empty. Both loops have this block; `readpage` of
ramfs leaves a new page as it is. -/
def cachePage (heap : PageHeap) (map : PageMapping) (i : Nat) :
    Option (Nat × PageHeap × PageMapping) :=
  match map.pages[i]? with
  | some (some p) => some (p, heap, map)
  | some none => newCachePage heap map i
  | none => none

def ramfsMappingWriteBegin (heap : PageHeap) (map : PageMapping) (pos : Nat) :
    Option (Nat × PageHeap × PageMapping) := do
  let pgIndex := pos / pageSize
  let (heap, map) ←
    if map.nrPages ≤ pgIndex then do
      -- the larger array is filled but never becomes `mapping->pages`
      let (p, heap) := heap.allocPage
      let map ← { map with nrPages := map.nrPages + 1 }.setPage map.nrPages p
      some (heap.pageRef p, map)
    else some (heap, map)
  cachePage heap map pgIndex

def ramfsMappingWriteEnd (heap : PageHeap) (ino : Inode) (pos copied p : Nat) : PageHeap × Inode :=
  let size := if ino.size ≤ wrap64 (pos + copied) then wrap64 (pos + copied) else ino.size
  (heap.pageMkDirty p, { ino with
    size := size
    blocks := (size / pageSize + if size % pageSize ≠ 0 then 1 else 0) % 2 ^ 32 })

/-- The locals of `generic_file_write`; `pos` is `*pos` and `src` how far the source pointer
has moved. -/
structure WriteLoop where
  heap : PageHeap
  ino : Inode
  pos : Nat
  total : Nat
  src : Nat
  idx : Nat

/-- The value of `to_write`. -/
def toWrite (count total pos : Nat) : Nat :=
  let remaining := sub64 count total
  if pageSize ≤ remaining then pageSize - pos % pageSize else remaining

/-- The end of an iteration that has written `n` bytes. -/
def WriteLoop.advance (s : WriteLoop) (file : PageHeap × Inode) (n : Nat) : WriteLoop where
  heap := file.1
  ino := file.2
  pos := wrap64 (s.pos + n)
  total := wrap64 (s.total + n)
  src := s.src + n
  idx := wrap64 (s.idx + n)

def WriteLoop.body (src : Nat → UInt8) (count : Nat) (s : WriteLoop) : Option WriteLoop := do
  let n := toWrite count s.total s.pos
  let (dst, heap, map) ← ramfsMappingWriteBegin s.heap s.ino.fMap s.pos
  let heap ← heap.copyIn dst (s.pos % pageSize) (fun i => src (s.src + i)) n
  some (s.advance (ramfsMappingWriteEnd (heap.pageMkDirty dst) { s.ino with fMap := map } s.pos n dst) n)

/-- The function `generic_file_write`: it returns `total` and stores `pos`. -/
def genericFileWrite (fuel : Nat) (heap : PageHeap) (ino : Inode) (src : Nat → UInt8)
    (count pos : Nat) : Outcome WriteLoop :=
  whileFuel (fun s => decide (s.idx < wrap64 (pos + count))) (WriteLoop.body src count) fuel
    ⟨heap, ino, pos, 0, 0, pos⟩

/-- The locals of `generic_file_read`; `out` is what has been stored from `dst` on. -/
structure ReadLoop where
  heap : PageHeap
  ino : Inode
  pos : Nat
  total : Nat
  out : List UInt8
  idx : Nat

/-- The page at a signed index. -/
def readCachePage (heap : PageHeap) (map : PageMapping) (pgIndex : Int) :
    Option (Nat × PageHeap × PageMapping) :=
  if pgIndex < 0 then none else cachePage heap map pgIndex.toNat

/-- The value of `to_read`, kept below the end of the file. -/
def toRead (size count total pos idx : Nat) : Nat :=
  let remainingBytes := sub64 count total
  let n := if (pageSize : Int) ≤ toInt64 remainingBytes then
      (pageSize - (toInt64 idx).tmod pageSize).toNat
    else remainingBytes
  if size < wrap64 (pos + n) then sub64 size pos else n

/-- The end of an iteration that has read `bytes`. -/
def ReadLoop.advance (s : ReadLoop) (heap : PageHeap) (map : PageMapping) (bytes : List UInt8)
    (n : Nat) : ReadLoop where
  heap := heap
  ino := { s.ino with fMap := map }
  pos := wrap64 (s.pos + n)
  total := wrap64 (s.total + n)
  out := s.out ++ bytes
  idx := wrap64 (s.idx + n)

def ReadLoop.body (count : Nat) (s : ReadLoop) : Option ReadLoop := do
  let n := toRead s.ino.size count s.total s.pos s.idx
  let (p, heap, map) ← readCachePage s.heap s.ino.fMap ((toInt64 s.idx).tdiv pageSize)
  let bytes ← heap.copyOut p ((toInt64 s.idx).tmod pageSize) n
  some (s.advance heap map bytes n)

/-- The function `generic_file_read`: it returns `total` and stores `pos`. -/
def genericFileRead (fuel : Nat) (heap : PageHeap) (ino : Inode) (count pos : Nat) :
    Outcome ReadLoop :=
  if ino.size ≤ pos then .done ⟨heap, ino, pos, 0, [], pos⟩
  else whileFuel (fun s => decide (s.idx < wrap64 (count + pos))) (ReadLoop.body count) fuel
    ⟨heap, ino, pos, 0, [], pos⟩

end Lucix.FileIo
