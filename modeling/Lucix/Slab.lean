import Lucix.ListHead
import Lucix.Paging
import Lucix.Execution
import Lucix.IndexChain

/-!
# The object caches, `kernel/slab.c`

A cache carves blocks of pages into objects of one size. Each block has a
descriptor, in the block itself for small objects and in a `kmalloc` object for
large ones, and each page of the block names the cache and the descriptor in its
list node. Pointers are addresses. The blocks that `alloc_pages` returns are an
input of every call, in the order in which the call asks for them. A function
returns `none` where the source would follow a pointer that names no object.
-/
namespace Lucix.ObjCache
open Ring Execution

/-- The macro `FREE_LIST_END`. -/
def freeListEnd : Nat := 0xdeadbeef

/-- The size of `slab_t`; the index array of a slab follows its descriptor. -/
def slabSize : Nat := 32

/-- The flag `OBJMEM_CACHE_SLAB_META_IN_BLOCK`. -/
def slabMetaInBlock : Nat := 1

structure ObjMemCache where
  flags : Nat
  objectSize : Nat
  objsPerSlab : Nat
  pageOrder : Nat
  deriving DecidableEq, Repr

/-- The bytes of one slab. -/
def ObjMemCache.slabBytes (cache : ObjMemCache) : Nat := pageSize <<< cache.pageOrder

def ObjMemCache.inBlock (cache : ObjMemCache) : Bool := decide (cache.flags &&& slabMetaInBlock ≠ 0)

/-- The counting loop of `__calc_num_objects` from `count` on; `none` when the loop ends
without an assignment. -/
def countObjects (bytes objectSize : Nat) : Nat → Nat → Option Nat
  | 0, _ => none
  | fuel + 1, count =>
      if count + 1 < bytes then
        if bytes < slabSize + (count + 1) * 4 + objectSize * (count + 1) then some count
        else countObjects bytes objectSize fuel (count + 1)
      else none

def calcNumObjects (cache : ObjMemCache) : ObjMemCache :=
  let bytes := cache.slabBytes
  if cache.inBlock then
    match countObjects bytes cache.objectSize bytes 0 with
    | some n => { cache with objsPerSlab := n }
    | none => cache
  else { cache with objsPerSlab := bytes / cache.objectSize }

def initializeCache (cache : ObjMemCache) (objectSize pageOrder : Nat) : ObjMemCache :=
  let cache := { cache with objectSize := objectSize, pageOrder := pageOrder, flags := 0 }
  calcNumObjects
    (if objectSize ≤ cache.slabBytes / 8 then { cache with flags := cache.flags ||| slabMetaInBlock }
    else cache)

/-- The table `malloc_sizes`: object size and page order of each `kmalloc` cache. -/
def mallocSizes : List (Nat × Nat) :=
  [(32, 0), (64, 0), (128, 0), (256, 1), (512, 1), (1024, 1), (2048, 1), (4096, 1), (8192, 2),
    (16 * 1024, 4), (32 * 1024, 4)]

/-- The three lists of a cache: `slabs_free`, `slabs_full` and, as `mixed`, the slabs that are
neither. -/
inductive Shelf where
  | free
  | full
  | mixed
  deriving DecidableEq, Repr

/-- The list nodes: the heads of a cache, the node of a descriptor, and whatever a pointer
that is not a list node points at. -/
inductive SlabNode where
  | head (shelf : Shelf) (cache : Nat)
  | slab (addr : Nat)
  | invalid
  deriving DecidableEq, Repr

structure Slab where
  mem : Nat
  inUse : Nat
  nextFree : Nat
  freeList : Nat → Nat

/-- A slab that has been made: its cache, its descriptor and its first page. -/
structure SlabInfo where
  cache : Nat
  addr : Nat
  base : Nat
  deriving DecidableEq, Repr

/-- `pageCache` and `pageSlab` are the two link fields of the page struct of each page
number. The kernel keeps no list like `made`; it records the calls of `__new_slab`. -/
structure SlabState where
  caches : Nat → ObjMemCache
  mallocCache : Nat → Nat
  links : Links SlabNode
  slabs : Nat → Slab
  pageCache : Nat → Nat
  pageSlab : Nat → Nat
  made : List SlabInfo

def SlabState.setSlab (st : SlabState) (addr : Nat) (slab : Slab) : SlabState :=
  { st with slabs := Function.update st.slabs addr slab }

/-- Unlinking a node that was never on a list writes through a wild pointer. -/
def unlink (L : Links SlabNode) (n : SlabNode) : Option (Links SlabNode) :=
  if L.next n = .invalid ∨ L.prev n = .invalid then none else some (listDelInit L n)

def SlabNode.addr? : SlabNode → Option Nat
  | .slab addr => some addr
  | _ => none

/-- The result of an allocation: the object or a null pointer, and the blocks not asked for. -/
abbrev AllocResult := Option Nat × SlabState × List Nat

/-- The first cache of `malloc_sizes` whose objects are large enough. -/
def kmallocWith (alloc : SlabState → List Nat → Nat → Option AllocResult) (st : SlabState)
    (supply : List Nat) (size : Nat) : Option AllocResult :=
  match mallocSizes.findIdx? fun e => decide (size ≤ e.1) with
  | some i => alloc st supply (st.mallocCache i)
  | none => some (none, st, supply)

/-- The loop of `__new_slab` over the pages of the block. -/
def tagPages (st : SlabState) (base order cache slab : Nat) : SlabState :=
  loop (fun p st => { st with
    pageCache := Function.update st.pageCache (base / pageSize + p) cache
    pageSlab := Function.update st.pageSlab (base / pageSize + p) slab }) (1 <<< order) st

/-- The index array after the loop of `__new_slab` and the store that follows it. -/
def freshList (objs : Nat) (old : Nat → Nat) : Nat → Nat := fun i =>
  if i + 1 = objs then freeListEnd else if i < objs then i + 1 else old i

def newSlab (alloc : SlabState → List Nat → Nat → Option AllocResult) (st : SlabState)
    (supply : List Nat) (c : Nat) : Option (Nat × SlabState × List Nat) :=
  match supply with
  | [] => none
  | base :: supply => do
      let cache := st.caches c
      let (slab, memOffset, st, supply) ←
        if cache.inBlock then some (base, slabSize + 4 * cache.objsPerSlab, st, supply)
        else match ← kmallocWith alloc st supply (slabSize + 4 * cache.objsPerSlab) with
          | (some slab, st, supply) => some (slab, 0, st, supply)
          | (none, _, _) => none
      let st := tagPages st base cache.pageOrder c slab
      if cache.objsPerSlab = 0 then none
      else some (slab, { st.setSlab slab
        { mem := base + memOffset
          inUse := 0
          nextFree := 0
          freeList := freshList cache.objsPerSlab (st.slabs slab).freeList } with
        made := ⟨c, slab, base⟩ :: st.made }, supply)

def allocFromSlab (st : SlabState) (addr : Nat) : Option (Option Nat × SlabState) :=
  let slab := st.slabs addr
  let c := st.pageCache (slab.mem / pageSize)
  if slab.nextFree = freeListEnd then some (none, st)
  else do
    let objp := slab.mem + slab.nextFree * (st.caches c).objectSize
    let next := slab.freeList slab.nextFree
    let links ←
      if next = freeListEnd then
        (unlink st.links (.slab addr)).map fun L => listAdd L (.slab addr) (.head .full c)
      else some st.links
    some (some objp, { st.setSlab addr
      { slab with nextFree := next, inUse := (slab.inUse + 1) % 2 ^ 32 } with links := links })

/-- The function `mem_cache_alloc_obj`; `fuel` bounds the nesting of `kmalloc` calls for
descriptors outside their block. -/
def memCacheAllocObj : Nat → SlabState → List Nat → Nat → Option AllocResult
  | 0, _, _, _ => none
  | fuel + 1, st, supply, c =>
      if !listEmpty st.links (.head .mixed c) then do
        let addr ← (st.links.next (.head .mixed c)).addr?
        let (objp, st) ← allocFromSlab st addr
        some (objp, st, supply)
      else if !listEmpty st.links (.head .free c) then do
        let addr ← (st.links.next (.head .free c)).addr?
        let (objp, st) ← allocFromSlab st addr
        let links ← unlink st.links (.slab addr)
        some (objp, { st with links := listAdd links (.slab addr) (.head .mixed c) }, supply)
      else do
        let (addr, st, supply) ← newSlab (memCacheAllocObj fuel) st supply c
        let (objp, st) ← allocFromSlab st addr
        some (objp, { st with links := listAdd st.links (.slab addr) (.head .mixed c) }, supply)

def freeFromSlab (slab : Slab) (offset : Nat) : Slab :=
  { slab with
    freeList := Function.update slab.freeList offset slab.nextFree
    nextFree := offset
    inUse := (slab.inUse + 2 ^ 32 - 1) % 2 ^ 32 }

def memCacheFreeObj (st : SlabState) (c obj : Nat) : Option SlabState :=
  let addr := st.pageSlab (obj / pageSize)
  let slab := st.slabs addr
  let size := (st.caches c).objectSize
  if size = 0 then none
  else
    let offset := (va2pa obj + 2 ^ 64 - va2pa slab.mem) % 2 ^ 64 / size % 2 ^ 32
    let slab := freeFromSlab slab offset
    let st := st.setSlab addr slab
    if slab.inUse = 0 then
      if st.links.next (.slab addr) = .invalid ∨ st.links.prev (.slab addr) = .invalid then none
      else
        let links := listDel st.links (.slab addr) .invalid .invalid
        some { st with links := listAdd links (.slab addr) (.head .free c) }
    else some st

/-- The addresses of the slabs on a list of a cache, in list order. -/
def SlabState.shelf (st : SlabState) (shelf : Shelf) (c : Nat) : List Nat :=
  ((st.links.walk (.head shelf c) (st.made.length + 1) (.head shelf c)).getD []).filterMap
    SlabNode.addr?

end Lucix.ObjCache
