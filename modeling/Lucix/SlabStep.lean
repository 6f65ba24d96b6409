import Lucix.Slab

/-! One call of the object caches. The invariant `Inv` relates the lists, index
chains and page tags of all caches to the objects in use; each call of
`mem_cache_alloc_obj` and `mem_cache_free_obj` keeps it. -/
namespace Lucix.ObjCache
open Ring Execution IndexChain

/-! ### Capacities -/

section capacity
variable {bytes size : Nat}

/-- `n` objects fit into the bytes of a slab beside the descriptor and its indices. -/
def Fits (bytes size n : Nat) : Prop := slabSize + n * 4 + size * n ≤ bytes

/-- The counting loop stops at the last count that fits. -/
theorem countObjects_spec (hsize : 0 < size) (fuel count : Nat) (hfits : Fits bytes size count)
    (hfuel : bytes ≤ count + fuel) :
    ∃ n, countObjects bytes size fuel count = some n ∧ Fits bytes size n ∧
      ¬ Fits bytes size (n + 1) := by
  have hmul : ∀ n, n ≤ size * n := fun n => Nat.le_mul_of_pos_left n hsize
  induction fuel generalizing count with
  | zero =>
      have := hmul count
      simp only [Fits, slabSize] at hfits
      omega
  | succ fuel ih =>
      have hmore : count + 1 < bytes := by
        have := hmul count
        simp only [Fits, slabSize] at hfits
        omega
      by_cases hover : bytes < slabSize + (count + 1) * 4 + size * (count + 1)
      · refine ⟨count, by simp only [countObjects, if_pos hmore, if_pos hover], hfits, ?_⟩
        exact Nat.not_le.mpr hover
      · obtain ⟨n, hn, hrest⟩ := ih (count + 1) (Nat.le_of_not_lt hover) (by omega)
        exact ⟨n, by simp only [countObjects, if_pos hmore, if_neg hover, hn], hrest⟩

end capacity

/-- Caches as `__initialize_cache` builds them, and the caches of `malloc_sizes` among them. -/
structure CacheTable where
  caches : Nat → ObjMemCache
  mallocCache : Nat → Nat
  built : ∀ c, ∃ old size order, 0 < size ∧ order ≤ 10 ∧ caches c = initializeCache old size order
  malloc : ∀ i e, mallocSizes[i]? = some e →
    ∃ old, caches (mallocCache i) = initializeCache old e.1 e.2

/-- Where the objects of a slab begin. -/
def ObjMemCache.memOffset (cache : ObjMemCache) : Nat :=
  if cache.inBlock then slabSize + 4 * cache.objsPerSlab else 0

/-- What the code relies on in a cache. -/
structure ObjMemCache.Sized (cache : ObjMemCache) : Prop where
  size_pos : 0 < cache.objectSize
  bytes_eq : cache.slabBytes = pageSize * 2 ^ cache.pageOrder
  order_le : cache.pageOrder ≤ 10
  fits : cache.memOffset + cache.objsPerSlab * cache.objectSize ≤ cache.slabBytes
  few : cache.inBlock = false → cache.objsPerSlab ≤ 7

theorem inBlock_of_one {cache : ObjMemCache} (h : cache.flags = 1) : cache.inBlock = true := by
  simp [ObjMemCache.inBlock, slabMetaInBlock, h]

theorem inBlock_of_zero {cache : ObjMemCache} (h : cache.flags = 0) : cache.inBlock = false := by
  simp [ObjMemCache.inBlock, slabMetaInBlock, h]

theorem initializeCache_small (old : ObjMemCache) {size order : Nat}
    (h : size ≤ pageSize <<< order / 8) :
    initializeCache old size order = calcNumObjects ⟨1, size, old.objsPerSlab, order⟩ := by
  have h' : size ≤ (⟨0, size, old.objsPerSlab, order⟩ : ObjMemCache).slabBytes / 8 := h
  simp only [initializeCache, if_pos h', slabMetaInBlock, Nat.zero_or]

theorem initializeCache_large (old : ObjMemCache) {size order : Nat}
    (h : ¬ size ≤ pageSize <<< order / 8) :
    initializeCache old size order = ⟨0, size, pageSize <<< order / size, order⟩ := by
  have h' : ¬ size ≤ (⟨0, size, old.objsPerSlab, order⟩ : ObjMemCache).slabBytes / 8 := h
  have hflag : (⟨0, size, old.objsPerSlab, order⟩ : ObjMemCache).inBlock = false :=
    inBlock_of_zero rfl
  simp only [initializeCache, if_neg h', calcNumObjects, hflag, Bool.false_eq_true, if_false]
  rfl

theorem initializeCache_counted (old : ObjMemCache) {size order : Nat} (hsize : 0 < size)
    (h : size ≤ pageSize <<< order / 8) :
    ∃ n, initializeCache old size order = ⟨1, size, n, order⟩ ∧ Fits (pageSize <<< order) size n ∧
      ¬ Fits (pageSize <<< order) size (n + 1) := by
  have hbytes : pageSize <<< order = pageSize * 2 ^ order := Nat.shiftLeft_eq _ _
  have hpos := Nat.two_pow_pos order
  obtain ⟨n, hn, hfits⟩ := countObjects_spec hsize (pageSize <<< order) 0
    (show Fits (pageSize <<< order) size 0 by simp only [Fits, slabSize, pageSize] at *; omega)
    (Nat.le_of_eq (Nat.zero_add _).symm)
  refine ⟨n, ?_, hfits⟩
  have hflag : (⟨1, size, old.objsPerSlab, order⟩ : ObjMemCache).inBlock = true := inBlock_of_one rfl
  rw [initializeCache_small old h]
  simp only [calcNumObjects, hflag, if_true, ObjMemCache.slabBytes, hn]

theorem initializeCache_sized (old : ObjMemCache) {size order : Nat} (hsize : 0 < size)
    (horder : order ≤ 10) : (initializeCache old size order).Sized ∧
      (initializeCache old size order).objectSize = size ∧
      (initializeCache old size order).pageOrder = order := by
  have hbytes : pageSize <<< order = pageSize * 2 ^ order := Nat.shiftLeft_eq _ _
  by_cases hin : size ≤ pageSize <<< order / 8
  · obtain ⟨n, heq, hfits, -⟩ := initializeCache_counted old hsize hin
    have hflag : (⟨1, size, n, order⟩ : ObjMemCache).inBlock = true := inBlock_of_one rfl
    rw [heq]
    refine ⟨⟨hsize, hbytes, horder, ?_, fun h => absurd (hflag.symm.trans h) (by decide)⟩, rfl, rfl⟩
    rw [Fits, Nat.mul_comm size n] at hfits
    simp only [ObjMemCache.memOffset, hflag, if_true, ObjMemCache.slabBytes]
    omega
  · rw [initializeCache_large old hin]
    have hflag : (⟨0, size, pageSize <<< order / size, order⟩ : ObjMemCache).inBlock = false := inBlock_of_zero rfl
    refine ⟨⟨hsize, hbytes, horder, ?_, fun _ => ?_⟩, rfl, rfl⟩
    · simp only [ObjMemCache.memOffset, hflag, Bool.false_eq_true, if_false, Nat.zero_add]
      exact Nat.div_mul_le_self _ _
    · exact Nat.le_of_lt_succ ((Nat.div_lt_iff_lt_mul hsize).mpr (by omega))

theorem CacheTable.sized (t : CacheTable) (c : Nat) : (t.caches c).Sized := by
  obtain ⟨old, size, order, hsize, horder, heq⟩ := t.built c
  rw [heq]
  exact (initializeCache_sized old hsize horder).1

/-- The cache that descriptors outside their block come from. -/
def CacheTable.descCache (t : CacheTable) : Nat := t.mallocCache 1

/-- Its own descriptors are in their blocks, so making one needs no further `kmalloc`. -/
theorem CacheTable.desc_inBlock (t : CacheTable) :
    (t.caches t.descCache).inBlock = true ∧ 2 ≤ (t.caches t.descCache).objsPerSlab ∧
      (t.caches t.descCache).pageOrder = 0 := by
  obtain ⟨old, heq⟩ := t.malloc 1 (64, 0) rfl
  have hcount : countObjects 4096 64 4096 0 = some 59 := by decide +kernel
  have hcalc : initializeCache old 64 0 = ⟨1, 64, 59, 0⟩ := by
    rw [initializeCache_small old (by decide)]
    have hflag : (⟨1, 64, old.objsPerSlab, 0⟩ : ObjMemCache).inBlock = true := inBlock_of_one rfl
    have hbytes : (⟨1, 64, old.objsPerSlab, 0⟩ : ObjMemCache).slabBytes = 4096 := rfl
    simp only [calcNumObjects, hflag, if_true, hbytes, hcount]
  rw [CacheTable.descCache, heq, hcalc]
  exact ⟨inBlock_of_one rfl, by decide, rfl⟩

theorem kmallocWith_desc {alloc : SlabState → List Nat → Nat → Option AllocResult} {st : SlabState}
    {supply : List Nat} {n : Nat} (hlo : 1 ≤ n) (hhi : n ≤ 7) :
    kmallocWith alloc st supply (slabSize + 4 * n) = alloc st supply (st.mallocCache 1) := by
  have hidx : mallocSizes.findIdx? (fun e => decide (slabSize + 4 * n ≤ e.1)) = some 1 := by
    have h0 : ¬ slabSize + 4 * n ≤ 32 := by simp only [slabSize]; omega
    have h1 : slabSize + 4 * n ≤ 64 := by simp only [slabSize]; omega
    simp [mallocSizes, List.findIdx?_cons, h0, h1]
  simp only [kmallocWith, hidx]

/-! ### The invariant -/

section layout
variable (t : CacheTable)

/-- The address of the first object of a slab. -/
def SlabInfo.mem (info : SlabInfo) : Nat := info.base + (t.caches info.cache).memOffset

def SlabInfo.object (info : SlabInfo) (i : Nat) : Nat :=
  info.mem t + i * (t.caches info.cache).objectSize

def SlabInfo.objs (info : SlabInfo) : Nat := (t.caches info.cache).objsPerSlab

/-- The address after the last byte of the block. -/
def SlabInfo.stop (info : SlabInfo) : Nat := info.base + (t.caches info.cache).slabBytes

def SlabInfo.Apart (info info' : SlabInfo) : Prop :=
  info.stop t ≤ info'.base ∨ info'.stop t ≤ info.base

/-- A block is page aligned and lies in the identity map. -/
def SlabInfo.Mapped (info : SlabInfo) : Prop :=
  info.base % pageSize = 0 ∧ identityBase ≤ info.base ∧ info.stop t ≤ identityBase + 2 ^ 47

end layout

/-- How many objects of a slab may be in use on each list. A slab stays on `slabs_full`
when one of its objects is released; `exact` says that this has not happened. -/
def Level (exact : Prop) : Shelf → Nat → Nat → Prop
  | .free, inUse, _ => inUse = 0
  | .mixed, inUse, objs => 0 < inUse ∧ inUse < objs
  | .full, inUse, objs => 0 < inUse ∧ (exact → inUse = objs)

/-- The lists of all caches, as sequences of descriptors. -/
abbrev Shelves := Shelf × Nat → List Nat

/-- The links hold the lists. -/
def Shelved (L : Links SlabNode) (sh : Shelves) : Prop :=
  L.Rings (fun k : Shelf × Nat => SlabNode.head k.1 k.2) fun k => (sh k).map SlabNode.slab

/-- The objects in use are `all`, as pairs of a cache and an address, descriptors included. -/
structure Inv (t : CacheTable) (exact : Prop) (st : SlabState) (all : List (Nat × Nat))
    (sh : Shelves) : Prop where
  caches_eq : st.caches = t.caches
  malloc_eq : st.mallocCache = t.mallocCache
  capacity : ∀ info ∈ st.made, 2 ≤ info.objs t
  apart : st.made.Pairwise (SlabInfo.Apart t)
  mapped : ∀ info ∈ st.made, info.Mapped t
  tagged : ∀ info ∈ st.made, ∀ p < 2 ^ (t.caches info.cache).pageOrder,
    st.pageCache (info.base / pageSize + p) = info.cache ∧
      st.pageSlab (info.base / pageSize + p) = info.addr
  mem_eq : ∀ info ∈ st.made, (st.slabs info.addr).mem = info.mem t
  inner : ∀ info ∈ st.made, (t.caches info.cache).inBlock = true → info.addr = info.base
  outer : ∀ info ∈ st.made, (t.caches info.cache).inBlock = false → (t.descCache, info.addr) ∈ all
  addrs : (st.made.map SlabInfo.addr).Nodup
  pool : ∀ info ∈ st.made, ∃ xs, Pool (info.objs t) freeListEnd (st.slabs info.addr).freeList
    (st.slabs info.addr).nextFree (fun i => (info.cache, info.object t i) ∈ all) xs ∧
      (st.slabs info.addr).inUse + xs.length = info.objs t
  nodup : all.Nodup
  origin : ∀ e ∈ all, ∃ info ∈ st.made, info.cache = e.1 ∧ ∃ i < info.objs t, e.2 = info.object t i
  shelved : Shelved st.links sh
  onShelf : ∀ info ∈ st.made, ∃ shelf, info.addr ∈ sh (shelf, info.cache)
  members : ∀ k, ∀ a ∈ sh k, ∃ info ∈ st.made, info.cache = k.2 ∧ info.addr = a ∧
    Level exact k.1 (st.slabs a).inUse (info.objs t)

/-! ### Objects and their blocks -/

section objects
variable {t : CacheTable} {info info' : SlabInfo} {i j : Nat}

theorem SlabInfo.objs_lt_end (t : CacheTable) (info : SlabInfo) : info.objs t < freeListEnd := by
  obtain ⟨hsize, hbytes, horder, hfits, -⟩ := t.sized info.cache
  have hpow : 2 ^ (t.caches info.cache).pageOrder ≤ 2 ^ 10 := Nat.pow_le_pow_right (by norm_num) horder
  have hle : (t.caches info.cache).objsPerSlab ≤
      (t.caches info.cache).objsPerSlab * (t.caches info.cache).objectSize :=
    Nat.le_mul_of_pos_right _ hsize
  simp only [SlabInfo.objs, freeListEnd]
  simp only [pageSize] at hbytes
  omega

/-- The objects of a slab lie one behind the other between the descriptor, where it is in
the block, and the end of the block. -/
theorem SlabInfo.object_range (t : CacheTable) (info : SlabInfo) (hi : i < info.objs t) :
    info.base + (t.caches info.cache).memOffset ≤ info.object t i ∧
      info.object t i + (t.caches info.cache).objectSize ≤ info.stop t := by
  have hfits := (t.sized info.cache).fits
  have hmul : (i + 1) * (t.caches info.cache).objectSize ≤
      (t.caches info.cache).objsPerSlab * (t.caches info.cache).objectSize :=
    Nat.mul_le_mul_right _ hi
  rw [Nat.succ_mul] at hmul
  simp only [SlabInfo.object, SlabInfo.mem, SlabInfo.stop]
  omega

theorem SlabInfo.page_of_mem {a : Nat} (hm : info.Mapped t) (hlo : info.base ≤ a)
    (hhi : a < info.stop t) :
    ∃ p < 2 ^ (t.caches info.cache).pageOrder, a / pageSize = info.base / pageSize + p := by
  have hbytes := (t.sized info.cache).bytes_eq
  obtain ⟨hal, -, -⟩ := hm
  refine ⟨a / pageSize - info.base / pageSize, ?_, ?_⟩
  · simp only [SlabInfo.stop, hbytes, pageSize] at *
    omega
  · simp only [pageSize] at *
    omega

theorem SlabInfo.object_inj (h : info.object t i = info.object t j) : i = j := by
  simp only [SlabInfo.object] at h
  exact Nat.eq_of_mul_eq_mul_right (t.sized info.cache).size_pos (by omega)

end objects

section inv
variable {t : CacheTable} {exact : Prop} {st : SlabState} {all : List (Nat × Nat)} {sh : Shelves}

theorem Inv.eq_of_mem (h : Inv t exact st all sh) {info info' : SlabInfo} (hi : info ∈ st.made)
    (hi' : info' ∈ st.made) {a : Nat} (hlo : info.base ≤ a) (hhi : a < info.stop t)
    (hlo' : info'.base ≤ a) (hhi' : a < info'.stop t) : info = info' := by
  by_contra hne
  have hsymm : Std.Symm (SlabInfo.Apart t) := ⟨fun _ _ => Or.symm⟩
  have := h.apart.forall hi hi' hne
  simp only [SlabInfo.Apart] at this
  omega

theorem Inv.eq_of_object (h : Inv t exact st all sh) {info info' : SlabInfo} (hi : info ∈ st.made)
    (hi' : info' ∈ st.made) {i j : Nat} (hlt : i < info.objs t) (hlt' : j < info'.objs t)
    (heq : info.object t i = info'.object t j) : info = info' ∧ i = j := by
  have hr := info.object_range t hlt
  have hr' := info'.object_range t hlt'
  have hs := (t.sized info.cache).size_pos
  have hs' := (t.sized info'.cache).size_pos
  have hinfo := h.eq_of_mem hi hi' (a := info.object t i) (by omega) (by omega) (by omega) (by omega)
  subst hinfo
  exact ⟨rfl, SlabInfo.object_inj heq⟩

theorem Inv.eq_of_addr (h : Inv t exact st all sh) {info info' : SlabInfo} (hi : info ∈ st.made)
    (hi' : info' ∈ st.made) (heq : info.addr = info'.addr) : info = info' :=
  List.inj_on_of_nodup_map h.addrs hi hi' heq

theorem Inv.tags (h : Inv t exact st all sh) {info : SlabInfo} (hi : info ∈ st.made) {i : Nat}
    (hlt : i < info.objs t) :
    st.pageCache (info.object t i / pageSize) = info.cache ∧
      st.pageSlab (info.object t i / pageSize) = info.addr := by
  have hr := info.object_range t hlt
  have hs := (t.sized info.cache).size_pos
  obtain ⟨p, hp, heq⟩ := SlabInfo.page_of_mem (h.mapped info hi) (a := info.object t i)
    (by omega) (by omega)
  rw [heq]
  exact h.tagged info hi p hp

theorem Inv.perm (h : Inv t exact st all sh) {all' : List (Nat × Nat)} (hp : all.Perm all') :
    Inv t exact st all' sh := by
  refine { h with
    outer := fun info hi hb => hp.mem_iff.mp (h.outer info hi hb)
    pool := fun info hi => ?_
    nodup := hp.nodup_iff.mp h.nodup
    origin := fun e he => h.origin e (hp.mem_iff.mpr he) }
  obtain ⟨xs, hpool, hlen⟩ := h.pool info hi
  exact ⟨xs, hpool.congr (fun _ _ => rfl) (fun i _ => hp.mem_iff.symm), hlen⟩

end inv

/-! ### The lists of slabs -/

section shelves
variable {L : Links SlabNode} {sh : Shelves} {a : Nat} {k : Shelf × Nat}

theorem slab_injective : Function.Injective SlabNode.slab := fun _ _ h => SlabNode.slab.inj h

theorem slab_mem_ring {head : Shelf × Nat} {xs : List Nat} :
    SlabNode.slab a ∈ SlabNode.head head.1 head.2 :: xs.map .slab ↔ a ∈ xs := by
  simp

theorem map_update (sh : Shelves) (k : Shelf × Nat) (xs : List Nat) :
    Function.update (fun k => (sh k).map SlabNode.slab) k (xs.map .slab) =
      fun j => (Function.update sh k xs j).map SlabNode.slab := by
  funext j
  by_cases hj : j = k
  · subst hj
    simp
  · simp [hj]

theorem Shelved.unlink (h : Shelved L sh) (ha : a ∈ sh k) :
    unlink L (.slab a) = some (listDelInit L (.slab a)) ∧
      Shelved (listDelInit L (.slab a)) (Function.update sh k ((sh k).erase a)) ∧
      ∀ j, a ∉ Function.update sh k ((sh k).erase a) j := by
  have hmem : SlabNode.slab a ∈ (sh k).map SlabNode.slab := List.mem_map_of_mem ha
  have hvalid : ∀ n ∈ SlabNode.head k.1 k.2 :: (sh k).map SlabNode.slab, n ≠ .invalid := by
    intro n hn
    rcases List.mem_cons.mp hn with rfl | hn
    · simp
    · obtain ⟨b, _, rfl⟩ := List.mem_map.mp hn
      simp
  have hnext := hvalid _ ((h.ring k).next_mem (List.mem_cons_of_mem _ hmem))
  have hprev := hvalid _ ((h.ring k).prev_mem (List.mem_cons_of_mem _ hmem))
  obtain ⟨hrings, hout⟩ := rings_listDelInit (i := k) h hmem
  rw [← List.map_erase slab_injective, map_update] at hrings
  refine ⟨by simp [ObjCache.unlink, hnext, hprev], hrings, fun j hj => hout j ?_⟩
  rw [← List.map_erase slab_injective, map_update]
  exact slab_mem_ring.mpr hj

theorem Shelved.add (h : Shelved L sh) (hout : ∀ j, a ∉ sh j) (k : Shelf × Nat) :
    Shelved (listAdd L (.slab a) (.head k.1 k.2)) (Function.update sh k (a :: sh k)) := by
  have hadd := rings_listAdd h (fun j hj => hout j (slab_mem_ring.mp hj)) k
  rw [← List.map_cons, map_update] at hadd
  exact hadd

/-- The lists after a slab has been moved to the front of another one. -/
def moveTo (sh : Shelves) (a : Nat) (k k' : Shelf × Nat) : Shelves :=
  let sh := Function.update sh k ((sh k).erase a)
  Function.update sh k' (a :: sh k')

theorem Shelved.move (h : Shelved L sh) (ha : a ∈ sh k) (k' : Shelf × Nat) :
    Shelved (listAdd (listDelInit L (.slab a)) (.slab a) (.head k'.1 k'.2)) (moveTo sh a k k') := by
  obtain ⟨-, hdel, hout⟩ := h.unlink ha
  exact hdel.add hout k'

theorem Shelved.unique (h : Shelved L sh) {j : Shelf × Nat} (ha : a ∈ sh k) (ha' : a ∈ sh j) :
    k = j :=
  h.apart k j (.slab a) (slab_mem_ring.mpr ha) (slab_mem_ring.mpr ha')

theorem Shelved.mem_moveTo (h : Shelved L sh) (ha : a ∈ sh k) {k' j : Shelf × Nat} {b : Nat} :
    b ∈ moveTo sh a k k' j ↔ b = a ∧ j = k' ∨ b ≠ a ∧ b ∈ sh j := by
  obtain ⟨-, -, hout⟩ := h.unlink ha
  have hrest : ∀ i, b ∈ Function.update sh k ((sh k).erase a) i ↔ b ≠ a ∧ b ∈ sh i := by
    intro i
    by_cases hba : b = a
    · subst hba
      simpa using hout i
    · by_cases hik : i = k
      · subst hik
        simp [hba, List.mem_erase_of_ne hba]
      · simp [hba, hik]
  by_cases hj : j = k'
  · subst hj
    simp only [moveTo, Function.update_self, List.mem_cons, hrest j, and_true]
  · simp only [moveTo, Function.update_of_ne hj, hrest j, hj, and_false, false_or]

end shelves

/-! ### Changing one slab -/

section update
variable {t : CacheTable} {exact : Prop} {st : SlabState} {all all' : List (Nat × Nat)}
  {sh sh' : Shelves}

/-- A call that changes the contents of one slab, the lists and the objects in use of that
slab keeps the invariant if the slab itself does. -/
theorem Inv.setSlab (h : Inv t exact st all sh) {info : SlabInfo} (hi : info ∈ st.made)
    (slab : Slab) (links : Links SlabNode) (hmem : slab.mem = info.mem t)
    (hpool : ∃ xs, Pool (info.objs t) freeListEnd slab.freeList slab.nextFree
      (fun i => (info.cache, info.object t i) ∈ all') xs ∧ slab.inUse + xs.length = info.objs t)
    (hall : ∀ info' ∈ st.made, info' ≠ info → ∀ i < info'.objs t,
      ((info'.cache, info'.object t i) ∈ all' ↔ (info'.cache, info'.object t i) ∈ all))
    (houter : ∀ info ∈ st.made, (t.caches info.cache).inBlock = false →
      (t.descCache, info.addr) ∈ all')
    (hnodup : all'.Nodup)
    (horigin : ∀ e ∈ all', ∃ info ∈ st.made, info.cache = e.1 ∧
      ∃ i < info.objs t, e.2 = info.object t i)
    (hshelved : Shelved links sh')
    (hkeep : ∀ k, ∀ a ≠ info.addr, a ∈ sh' k ↔ a ∈ sh k)
    (hplace : ∃ shelf, ∀ k, info.addr ∈ sh' k ↔ k = (shelf, info.cache))
    (hlevel : ∀ shelf, info.addr ∈ sh' (shelf, info.cache) →
      Level exact shelf slab.inUse (info.objs t)) :
    Inv t exact { st.setSlab info.addr slab with links := links } all' sh' := by
  have hother : ∀ info' ∈ st.made, info' ≠ info →
      ({ st.setSlab info.addr slab with links := links } : SlabState).slabs info'.addr =
        st.slabs info'.addr := by
    intro info' hi' hne
    exact Function.update_of_ne (fun e => hne (h.eq_of_addr hi' hi e)) _ _
  have hself : ({ st.setSlab info.addr slab with links := links } : SlabState).slabs info.addr =
      slab := Function.update_self _ _ _
  refine { h with
    mem_eq := fun info' hi' => ?_
    outer := houter
    pool := fun info' hi' => ?_
    nodup := hnodup
    origin := horigin
    shelved := hshelved
    onShelf := fun info' hi' => ?_
    members := fun k a ha => ?_ }
  · by_cases hne : info' = info
    · rw [hne, hself, hmem]
    · rw [hother info' hi' hne, h.mem_eq info' hi']
  · by_cases hne : info' = info
    · rw [hne, hself]
      exact hpool
    · rw [hother info' hi' hne]
      obtain ⟨xs, hxs, hlen⟩ := h.pool info' hi'
      exact ⟨xs, hxs.congr (fun _ _ => rfl) fun i hlt => hall info' hi' hne i hlt, hlen⟩
  · by_cases hne : info' = info
    · obtain ⟨shelf, hs⟩ := hplace
      exact ⟨shelf, hne ▸ (hs _).mpr rfl⟩
    · obtain ⟨shelf, hs⟩ := h.onShelf info' hi'
      exact ⟨shelf, (hkeep _ _ fun e => hne (h.eq_of_addr hi' hi e)).mpr hs⟩
  · by_cases hne : a = info.addr
    · obtain ⟨shelf, hs⟩ := hplace
      have hk := (hs k).mp (hne ▸ ha)
      subst hk
      refine ⟨info, hi, rfl, hne.symm, ?_⟩
      rw [hne, hself]
      exact hlevel shelf (hne ▸ ha)
    · obtain ⟨info', hi', hc, haddr, hlev⟩ := h.members k a ((hkeep k a hne).mp ha)
      refine ⟨info', hi', hc, haddr, ?_⟩
      rw [← haddr, hother info' hi' (fun e => hne (haddr ▸ e ▸ rfl)), haddr]
      exact hlev

end update

/-! ### Allocation from a slab -/

/-- A slab after its first free index has been taken. -/
def takenSlab (slab : Slab) : Slab :=
  { slab with nextFree := slab.freeList slab.nextFree, inUse := (slab.inUse + 1) % 2 ^ 32 }

theorem allocFromSlab_eq {st : SlabState} {addr c x : Nat} {xs : List Nat}
    (hcache : st.pageCache ((st.slabs addr).mem / pageSize) = c)
    (hchain : Chain (st.slabs addr).freeList freeListEnd (st.slabs addr).nextFree (x :: xs)) :
    allocFromSlab st addr =
      (if xs = [] then
        (unlink st.links (.slab addr)).map fun L => listAdd L (.slab addr) (.head .full c)
      else some st.links).map fun links =>
        (some ((st.slabs addr).mem + x * (st.caches c).objectSize),
          { st.setSlab addr (takenSlab (st.slabs addr)) with links := links }) := by
  obtain ⟨hx, hne, hrest⟩ := hchain
  have hnext := hrest.eq_stop_iff
  simp only [allocFromSlab, hcache, hx, if_neg hne, hnext, takenSlab]
  split_ifs with hnil
  · cases unlink st.links (.slab addr) <;> rfl
  · rfl

section alloc
variable {t : CacheTable} {exact : Prop} {st : SlabState} {all : List (Nat × Nat)} {sh : Shelves}

theorem Inv.inUse_lt (h : Inv t exact st all sh) {info : SlabInfo} (hi : info ∈ st.made) :
    (st.slabs info.addr).inUse < 2 ^ 32 - 1 := by
  obtain ⟨xs, -, hlen⟩ := h.pool info hi
  have := info.objs_lt_end t
  simp only [freeListEnd] at this
  omega

/-- The cache that the page of a slab's first object names. -/
theorem Inv.cache_of_mem (h : Inv t exact st all sh) {info : SlabInfo} (hi : info ∈ st.made) :
    st.pageCache ((st.slabs info.addr).mem / pageSize) = info.cache := by
  have hcap := h.capacity info hi
  have htags := h.tags hi (show 0 < info.objs t by omega)
  rw [SlabInfo.object, Nat.zero_mul, Nat.add_zero] at htags
  rw [h.mem_eq info hi]
  exact htags.1

theorem Inv.place (h : Inv t exact st all sh) {a : Nat} {k : Shelf × Nat} (ha : a ∈ sh k)
    (j : Shelf × Nat) : a ∈ sh j ↔ j = k :=
  ⟨fun ha' => h.shelved.unique ha' ha, fun e => e ▸ ha⟩

theorem Inv.take (h : Inv t exact st all sh) {info : SlabInfo} (hi : info ∈ st.made) {x : Nat}
    {xs : List Nat}
    (hpool : Pool (info.objs t) freeListEnd (st.slabs info.addr).freeList
      (st.slabs info.addr).nextFree (fun i => (info.cache, info.object t i) ∈ all) (x :: xs))
    (hlen : (st.slabs info.addr).inUse + (x :: xs).length = info.objs t)
    (links : Links SlabNode) (sh' : Shelves) (hshelved : Shelved links sh')
    (hkeep : ∀ k, ∀ a ≠ info.addr, a ∈ sh' k ↔ a ∈ sh k)
    (hplace : ∃ shelf, ∀ k, info.addr ∈ sh' k ↔ k = (shelf, info.cache))
    (hlevel : ∀ shelf, info.addr ∈ sh' (shelf, info.cache) →
      Level exact shelf ((st.slabs info.addr).inUse + 1) (info.objs t)) :
    Inv t exact { st.setSlab info.addr (takenSlab (st.slabs info.addr)) with links := links }
      ((info.cache, info.object t x) :: all) sh' := by
  have huse := h.inUse_lt hi
  have hcount : (takenSlab (st.slabs info.addr)).inUse = (st.slabs info.addr).inUse + 1 :=
    Nat.mod_eq_of_lt (by omega)
  obtain ⟨hx, hfresh⟩ := (hpool.mem_iff x).mp (by simp)
  refine h.setSlab hi (takenSlab (st.slabs info.addr)) links (h.mem_eq info hi) ⟨xs, ?_, ?_⟩ ?_ ?_ ?_
    ?_ hshelved hkeep hplace ?_
  · refine hpool.take fun i => ?_
    rw [List.mem_cons, Prod.mk.injEq, or_comm]
    exact or_congr_right ⟨fun e => SlabInfo.object_inj e.2, fun e => ⟨rfl, by rw [e]⟩⟩
  · rw [hcount]
    simp only [List.length_cons] at hlen
    omega
  · intro info' hi' hne i hlt
    rw [List.mem_cons, or_iff_right]
    exact fun e => hne (h.eq_of_object hi' hi hlt hx (Prod.mk.inj e).2).1
  · exact fun info' hi' hb => List.mem_cons_of_mem _ (h.outer info' hi' hb)
  · exact List.nodup_cons.mpr ⟨hfresh, h.nodup⟩
  · intro e he
    rcases List.mem_cons.mp he with rfl | he
    · exact ⟨info, hi, rfl, x, hx, rfl⟩
    · exact h.origin e he
  · rw [hcount]
    exact hlevel

theorem Inv.alloc_mixed (h : Inv t exact st all sh) {a c : Nat} (ha : a ∈ sh (.mixed, c)) :
    ∃ obj st' sh', allocFromSlab st a = some (some obj, st') ∧ st'.made = st.made ∧
      Inv t exact st' ((c, obj) :: all) sh' := by
  obtain ⟨info, hi, rfl, rfl, hlevel⟩ := h.members _ a ha
  obtain ⟨hpos, hless⟩ := hlevel
  obtain ⟨xs, hpool, hlen⟩ := h.pool info hi
  obtain ⟨x, xs, rfl⟩ : ∃ x ys, xs = x :: ys := List.exists_cons_of_length_pos (by omega)
  have heq := allocFromSlab_eq (h.cache_of_mem hi) hpool.chain
  rw [h.caches_eq, h.mem_eq info hi] at heq
  by_cases hnil : xs = []
  · -- the last free object: the slab moves to the full list
    subst hnil
    obtain ⟨hunlink, -, -⟩ := h.shelved.unlink ha
    rw [if_pos rfl, hunlink] at heq
    refine ⟨_, _, moveTo sh info.addr (.mixed, info.cache) (.full, info.cache), heq, rfl,
      h.take hi hpool hlen _ _ (h.shelved.move ha (.full, info.cache)) ?_ ⟨.full, ?_⟩ ?_⟩
    · intro k b hb
      rw [h.shelved.mem_moveTo ha]
      simp [hb]
    · intro k
      rw [h.shelved.mem_moveTo ha]
      simp
    · intro shelf hm
      rw [h.shelved.mem_moveTo ha] at hm
      obtain rfl : shelf = .full := by simpa using hm
      exact ⟨by omega, fun _ => by simpa using hlen⟩
  · have hlen' : 0 < xs.length := List.length_pos_iff.mpr hnil
    rw [if_neg hnil] at heq
    refine ⟨_, _, sh, heq, rfl, h.take hi hpool hlen _ _ h.shelved (fun _ _ _ => Iff.rfl)
      ⟨.mixed, h.place ha⟩ fun shelf hm => ?_⟩
    obtain rfl : shelf = .mixed := congrArg Prod.fst ((h.place ha _).mp hm)
    simp only [List.length_cons] at hlen
    exact ⟨by omega, by omega⟩

theorem Inv.alloc_free (h : Inv t exact st all sh) {a c : Nat} (ha : a ∈ sh (.free, c)) :
    ∃ obj st' links sh', allocFromSlab st a = some (some obj, st') ∧ st'.made = st.made ∧
      unlink st'.links (.slab a) = some links ∧
      Inv t exact { st' with links := listAdd links (.slab a) (.head .mixed c) }
        ((c, obj) :: all) sh' := by
  obtain ⟨info, hi, rfl, rfl, hlevel⟩ := h.members _ a ha
  have hzero : (st.slabs info.addr).inUse = 0 := hlevel
  have hcap := h.capacity info hi
  obtain ⟨xs, hpool, hlen⟩ := h.pool info hi
  obtain ⟨x, y, xs, rfl⟩ : ∃ x y ys, xs = x :: y :: ys := by
    match xs, hlen with
    | x :: y :: ys, _ => exact ⟨x, y, ys, rfl⟩
    | [_], hlen => simp only [List.length_singleton] at hlen; omega
    | [], hlen => simp only [List.length_nil] at hlen; omega
  have heq := allocFromSlab_eq (h.cache_of_mem hi) hpool.chain
  rw [h.caches_eq, h.mem_eq info hi, if_neg (List.cons_ne_nil _ _)] at heq
  obtain ⟨hunlink, -, -⟩ := h.shelved.unlink ha
  refine ⟨_, _, _, moveTo sh info.addr (.free, info.cache) (.mixed, info.cache), heq, rfl, hunlink,
    h.take hi hpool hlen _ _ (h.shelved.move ha (.mixed, info.cache)) ?_ ⟨.mixed, ?_⟩ ?_⟩
  · intro k b hb
    rw [h.shelved.mem_moveTo ha]
    simp [hb]
  · intro k
    rw [h.shelved.mem_moveTo ha]
    simp
  · intro shelf hm
    rw [h.shelved.mem_moveTo ha] at hm
    obtain rfl : shelf = .mixed := by simpa using hm
    exact ⟨by omega, by omega⟩

end alloc

/-! ### A new slab -/

/-- The page numbers of a block. -/
def onPages (base order n : Nat) : Prop := base / pageSize ≤ n ∧ n < base / pageSize + 2 ^ order

instance (base order n : Nat) : Decidable (onPages base order n) := inferInstanceAs (Decidable (_ ∧ _))

theorem tagPages_eq (st : SlabState) (base order cache slab : Nat) :
    tagPages st base order cache slab = { st with
      pageCache := fun n => if onPages base order n then cache else st.pageCache n
      pageSlab := fun n => if onPages base order n then slab else st.pageSlab n } := by
  have h := loop_invariant (n := 1 <<< order) (s := st) (f := fun p (st : SlabState) => { st with
      pageCache := Function.update st.pageCache (base / pageSize + p) cache
      pageSlab := Function.update st.pageSlab (base / pageSize + p) slab })
    (fun k u => u = { st with
      pageCache := fun n => if base / pageSize ≤ n ∧ n < base / pageSize + k then cache
        else st.pageCache n
      pageSlab := fun n => if base / pageSize ≤ n ∧ n < base / pageSize + k then slab
        else st.pageSlab n }) ?_ ?_
  · rw [tagPages, h, Nat.one_shiftLeft]
    rfl
  · have hno : ∀ n, ¬ (base / pageSize ≤ n ∧ n < base / pageSize + 0) := by omega
    simp only [hno, if_false]
  · rintro k _ u rfl
    have hsplit : ∀ n, (base / pageSize ≤ n ∧ n < base / pageSize + (k + 1)) ↔
        n = base / pageSize + k ∨ base / pageSize ≤ n ∧ n < base / pageSize + k := by omega
    congr 1
    · funext n
      by_cases hn : n = base / pageSize + k <;> simp [hsplit, hn]
    · funext n
      by_cases hn : n = base / pageSize + k <;> simp [hsplit, hn]

/-- A slab none of whose objects is in use. -/
def freshSlab (cache : ObjMemCache) (base : Nat) (old : Nat → Nat) : Slab where
  mem := base + cache.memOffset
  inUse := 0
  nextFree := 0
  freeList := freshList cache.objsPerSlab old

/-- The state in which `__new_slab` returns. -/
def withSlab (st : SlabState) (info : SlabInfo) : SlabState :=
  { st with
    slabs := Function.update st.slabs info.addr
      (freshSlab (st.caches info.cache) info.base (st.slabs info.addr).freeList)
    pageCache := fun n => if onPages info.base (st.caches info.cache).pageOrder n then info.cache
      else st.pageCache n
    pageSlab := fun n => if onPages info.base (st.caches info.cache).pageOrder n then info.addr
      else st.pageSlab n
    made := info :: st.made }

theorem newSlab_inner {alloc : SlabState → List Nat → Nat → Option AllocResult} {st : SlabState}
    {base c : Nat} {supply : List Nat} (hin : (st.caches c).inBlock = true)
    (hobjs : (st.caches c).objsPerSlab ≠ 0) :
    newSlab alloc st (base :: supply) c = some (base, withSlab st ⟨c, base, base⟩, supply) := by
  simp only [newSlab, hin, if_true, Option.bind_eq_bind, Option.bind_some, if_neg hobjs, withSlab,
    freshSlab, ObjMemCache.memOffset, tagPages_eq, SlabState.setSlab]

theorem newSlab_outer {alloc : SlabState → List Nat → Nat → Option AllocResult} {st st' : SlabState}
    {base c addr : Nat} {supply supply' : List Nat} (hin : (st.caches c).inBlock = false)
    (hlo : 1 ≤ (st.caches c).objsPerSlab) (hhi : (st.caches c).objsPerSlab ≤ 7)
    (hcall : alloc st supply (st.mallocCache 1) = some (some addr, st', supply'))
    (hcaches : st'.caches = st.caches) :
    newSlab alloc st (base :: supply) c = some (addr, withSlab st' ⟨c, addr, base⟩, supply') := by
  have hobjs : (st.caches c).objsPerSlab ≠ 0 := by omega
  simp only [newSlab, hin, Bool.false_eq_true, if_false, kmallocWith_desc hlo hhi, hcall,
    Option.bind_eq_bind, Option.bind_some, if_neg hobjs, withSlab, freshSlab,
    ObjMemCache.memOffset, tagPages_eq, SlabState.setSlab, hcaches]

/-- A block that overlaps no slab made so far. -/
structure FreshBlock (t : CacheTable) (made : List SlabInfo) (info : SlabInfo) : Prop where
  mapped : info.Mapped t
  apart : ∀ info' ∈ made, info.Apart t info'

section insert
variable {t : CacheTable} {exact : Prop} {st : SlabState} {all : List (Nat × Nat)} {sh : Shelves}

theorem Inv.not_mem_fresh (h : Inv t exact st all sh) {info : SlabInfo}
    (hfresh : FreshBlock t st.made info) {e : Nat × Nat} (he : e ∈ all) :
    ¬ (info.base ≤ e.2 ∧ e.2 < info.stop t) := by
  obtain ⟨info', hi', -, i, hlt, heq⟩ := h.origin e he
  have hr := info'.object_range t hlt
  have hs := (t.sized info'.cache).size_pos
  have hap := hfresh.apart info' hi'
  simp only [SlabInfo.Apart] at hap
  omega

theorem Inv.pool_fresh (h : Inv t exact st all sh) {info : SlabInfo}
    (hfresh : FreshBlock t st.made info) (hcap : 2 ≤ info.objs t) (old : Nat → Nat) :
    Pool (info.objs t) freeListEnd (freshSlab (t.caches info.cache) info.base old).freeList 0
      (fun i => (info.cache, info.object t i) ∈ all) (List.range' 0 (info.objs t)) := by
  have hend := info.objs_lt_end t
  refine Pool.initial (by omega) (Nat.le_of_lt hend) (fun j hj => ?_) ?_ fun i hi he => ?_
  · have hne : ¬ j + 1 = (t.caches info.cache).objsPerSlab := by simp only [SlabInfo.objs] at hj; omega
    have hlt : j < (t.caches info.cache).objsPerSlab := by simp only [SlabInfo.objs] at hj; omega
    simp only [freshSlab, freshList, if_neg hne, if_pos hlt]
  · have heq : info.objs t - 1 + 1 = (t.caches info.cache).objsPerSlab := by
      simp only [SlabInfo.objs] at hcap ⊢
      omega
    simp only [freshSlab, freshList, if_pos heq]
  · have hr := info.object_range t hi
    have hs := (t.sized info.cache).size_pos
    exact h.not_mem_fresh hfresh he ⟨by simp only; omega, by simp only; omega⟩

/-- The pages of a fresh block belong to no other slab. -/
theorem FreshBlock.not_onPages {made : List SlabInfo} {info info' : SlabInfo}
    (hfresh : FreshBlock t made info) (hi' : info' ∈ made) (hm' : info'.Mapped t) {p : Nat}
    (hp : p < 2 ^ (t.caches info'.cache).pageOrder) :
    ¬ onPages info.base (t.caches info.cache).pageOrder (info'.base / pageSize + p) := by
  have hap := hfresh.apart info' hi'
  have hb := (t.sized info.cache).bytes_eq
  have hb' := (t.sized info'.cache).bytes_eq
  have hal := hfresh.mapped.1
  have hal' := hm'.1
  simp only [SlabInfo.Apart, SlabInfo.stop, hb, hb', pageSize, onPages] at *
  omega

theorem FreshBlock.object_ne {made : List SlabInfo} {info info' : SlabInfo}
    (hfresh : FreshBlock t made info) (hi' : info' ∈ made) {i j : Nat} (hi : i < info.objs t)
    (hj : j < info'.objs t) : info'.object t j ≠ info.object t i := by
  have hr := info.object_range t hi
  have hr' := info'.object_range t hj
  have hs := (t.sized info.cache).size_pos
  have hs' := (t.sized info'.cache).size_pos
  have hap := hfresh.apart info' hi'
  simp only [SlabInfo.Apart] at hap
  omega

theorem onPages_self {base order p : Nat} (hp : p < 2 ^ order) : onPages base order (base / pageSize + p) :=
  ⟨by omega, by omega⟩

theorem Inv.withSlab_cache (h : Inv t exact st all sh) {info : SlabInfo}
    (hfresh : FreshBlock t st.made info) (hcap : 2 ≤ info.objs t) :
    (withSlab st info).pageCache (info.object t 0 / pageSize) = info.cache := by
  have hr := info.object_range t (show 0 < info.objs t by omega)
  have hs := (t.sized info.cache).size_pos
  obtain ⟨p, hp, heq⟩ := SlabInfo.page_of_mem hfresh.mapped (a := info.object t 0) (by omega) (by omega)
  rw [heq]
  simp only [withSlab, h.caches_eq]
  exact if_pos (onPages_self hp)

theorem mem_shelves_cons {a b : Nat} {j k : Shelf × Nat} :
    b ∈ Function.update sh k (a :: sh k) j ↔ b = a ∧ j = k ∨ b ∈ sh j := by
  by_cases hjk : j = k
  · subst hjk
    simp
  · simp [hjk]

/-- The free list of a slab that is just made starts with its first object. -/
theorem Inv.pool_first (h : Inv t exact st all sh) {info : SlabInfo}
    (hfresh : FreshBlock t st.made info) (hcap : 2 ≤ info.objs t) (old : Nat → Nat) :
    ∃ n, info.objs t = n + 2 ∧
      Pool (info.objs t) freeListEnd (freshSlab (t.caches info.cache) info.base old).freeList 0
        (fun i => (info.cache, info.object t i) ∈ all) (0 :: List.range' 1 (n + 1)) := by
  obtain ⟨n, hn⟩ : ∃ n, info.objs t = n + 2 := ⟨info.objs t - 2, by omega⟩
  have hrange : List.range' 0 (info.objs t) = 0 :: List.range' 1 (n + 1) := by
    rw [hn, List.range'_succ]
  exact ⟨n, hn, hrange ▸ h.pool_fresh hfresh hcap old⟩

theorem Inv.alloc_first (h : Inv t exact st all sh) {info : SlabInfo}
    (hfresh : FreshBlock t st.made info) (hcap : 2 ≤ info.objs t) :
    allocFromSlab (withSlab st info) info.addr = some (some (info.object t 0),
      (withSlab st info).setSlab info.addr
        (takenSlab (freshSlab (t.caches info.cache) info.base (st.slabs info.addr).freeList))) := by
  obtain ⟨n, -, hpool⟩ := h.pool_first hfresh hcap (st.slabs info.addr).freeList
  have hslab : (withSlab st info).slabs info.addr =
      freshSlab (t.caches info.cache) info.base (st.slabs info.addr).freeList := by
    simp only [withSlab, Function.update_self, h.caches_eq]
  have hobj : info.object t 0 =
      ((withSlab st info).slabs info.addr).mem + 0 * (t.caches info.cache).objectSize := by
    rw [hslab]
    rfl
  have hcache : (withSlab st info).pageCache (((withSlab st info).slabs info.addr).mem / pageSize) =
      info.cache := by
    rw [Nat.zero_mul, Nat.add_zero] at hobj
    rw [← hobj]
    exact h.withSlab_cache hfresh hcap
  have hchain : Chain ((withSlab st info).slabs info.addr).freeList freeListEnd
      ((withSlab st info).slabs info.addr).nextFree (0 :: List.range' 1 (n + 1)) := by
    rw [hslab]
    exact hpool.chain
  have hcaches : (withSlab st info).caches = t.caches := h.caches_eq
  rw [allocFromSlab_eq hcache hchain, if_neg (by simp), hcaches, ← hobj, hslab]
  rfl

theorem Inv.pool_kept (h : Inv t exact st all sh) {info : SlabInfo} (hfresh : FreshBlock t st.made info)
    (hcap : 2 ≤ info.objs t) {info' : SlabInfo} (hi' : info' ∈ st.made) :
    ∃ xs, Pool (info'.objs t) freeListEnd (st.slabs info'.addr).freeList (st.slabs info'.addr).nextFree
      (fun i => (info'.cache, info'.object t i) ∈ (info.cache, info.object t 0) :: all) xs ∧
        (st.slabs info'.addr).inUse + xs.length = info'.objs t := by
  obtain ⟨xs, hxs, hlen⟩ := h.pool info' hi'
  refine ⟨xs, hxs.congr (fun _ _ => rfl) fun i hlt => ?_, hlen⟩
  rw [List.mem_cons, or_iff_right]
  intro e
  exact hfresh.object_ne hi' (show 0 < info.objs t by omega) hlt (Prod.mk.inj e).2

theorem Inv.insert (h : Inv t exact st all sh) {info : SlabInfo}
    (hfresh : FreshBlock t st.made info) (hcap : 2 ≤ info.objs t)
    (haddr : ∀ info' ∈ st.made, info'.addr ≠ info.addr)
    (hinner : (t.caches info.cache).inBlock = true → info.addr = info.base)
    (houter : (t.caches info.cache).inBlock = false → (t.descCache, info.addr) ∈ all) :
    ∃ obj st', allocFromSlab (withSlab st info) info.addr = some (some obj, st') ∧
      st'.made = info :: st.made ∧
      Inv t exact { st' with links := listAdd st'.links (.slab info.addr) (.head .mixed info.cache) }
        ((info.cache, obj) :: all)
        (Function.update sh (.mixed, info.cache) (info.addr :: sh (.mixed, info.cache))) := by
  obtain ⟨n, hn, hpool⟩ := h.pool_first hfresh hcap (st.slabs info.addr).freeList
  refine ⟨_, _, h.alloc_first hfresh hcap, rfl, ?_⟩
  set slab := freshSlab (t.caches info.cache) info.base (st.slabs info.addr).freeList
  have hout : ∀ k, info.addr ∉ sh k := by
    intro k hk
    obtain ⟨info', hi', -, ha, -⟩ := h.members k _ hk
    exact haddr info' hi' ha
  obtain ⟨-, hnot⟩ := (hpool.mem_iff 0).mp (by simp)
  -- slabs made before keep their contents and their tags
  have hold : ∀ info' ∈ st.made, ((withSlab st info).setSlab info.addr (takenSlab slab)).slabs
      info'.addr = st.slabs info'.addr := by
    intro info' hi'
    have hne := haddr info' hi'
    simp only [withSlab, SlabState.setSlab, Function.update_of_ne hne]
  have hnew : ((withSlab st info).setSlab info.addr (takenSlab slab)).slabs info.addr =
      takenSlab slab := Function.update_self _ _ _
  have htaken : (takenSlab slab).inUse = 1 := rfl
  constructor
  case caches_eq => exact h.caches_eq
  case malloc_eq => exact h.malloc_eq
  case capacity => exact List.forall_mem_cons.mpr ⟨hcap, h.capacity⟩
  case apart => exact List.pairwise_cons.mpr ⟨hfresh.apart, h.apart⟩
  case mapped => exact List.forall_mem_cons.mpr ⟨hfresh.mapped, h.mapped⟩
  case tagged =>
    refine List.forall_mem_cons.mpr ⟨fun p hp => ?_, fun info' hi' p hp => ?_⟩
    · simp only [withSlab, SlabState.setSlab, h.caches_eq, if_pos (onPages_self hp), and_self]
    · simp only [withSlab, SlabState.setSlab, h.caches_eq,
        if_neg (hfresh.not_onPages hi' (h.mapped info' hi') hp)]
      exact h.tagged info' hi' p hp
  case mem_eq =>
    refine List.forall_mem_cons.mpr ⟨?_, fun info' hi' => ?_⟩
    · simp only [hnew]
      rfl
    · simp only [hold info' hi']
      exact h.mem_eq info' hi'
  case inner => exact List.forall_mem_cons.mpr ⟨hinner, h.inner⟩
  case outer =>
    exact List.forall_mem_cons.mpr ⟨fun hb => List.mem_cons_of_mem _ (houter hb),
      fun info' hi' hb => List.mem_cons_of_mem _ (h.outer info' hi' hb)⟩
  case addrs =>
    refine List.nodup_cons.mpr ⟨fun hm => ?_, h.addrs⟩
    obtain ⟨info', hi', ha⟩ := List.mem_map.mp hm
    exact haddr info' hi' ha
  case pool =>
    refine List.forall_mem_cons.mpr ⟨?_, fun info' hi' => ?_⟩
    · simp only [hnew]
      refine ⟨List.range' 1 (n + 1), hpool.take fun i => ?_, ?_⟩
      · rw [List.mem_cons, Prod.mk.injEq, or_comm]
        exact or_congr_right ⟨fun e => SlabInfo.object_inj e.2, fun e => ⟨rfl, by rw [e]⟩⟩
      · rw [htaken, List.length_range', hn]
        omega
    · simp only [hold info' hi']
      exact h.pool_kept hfresh hcap hi'
  case nodup => exact List.nodup_cons.mpr ⟨hnot, h.nodup⟩
  case origin =>
    refine List.forall_mem_cons.mpr ⟨⟨info, List.mem_cons_self, rfl, 0, by omega, rfl⟩, fun e he => ?_⟩
    obtain ⟨info', hi', hrest⟩ := h.origin e he
    exact ⟨info', List.mem_cons_of_mem _ hi', hrest⟩
  case shelved => exact h.shelved.add hout (.mixed, info.cache)
  case onShelf =>
    refine List.forall_mem_cons.mpr ⟨⟨.mixed, mem_shelves_cons.mpr (.inl ⟨rfl, rfl⟩)⟩, fun info' hi' => ?_⟩
    obtain ⟨shelf, hs⟩ := h.onShelf info' hi'
    exact ⟨shelf, mem_shelves_cons.mpr (.inr hs)⟩
  case members =>
    intro k a ha
    rcases mem_shelves_cons.mp ha with ⟨rfl, rfl⟩ | ha
    · refine ⟨info, List.mem_cons_self, rfl, rfl, ?_⟩
      simp only [hnew, htaken]
      exact ⟨by omega, by omega⟩
    · obtain ⟨info', hi', hc, haddr', hlev⟩ := h.members k a ha
      refine ⟨info', List.mem_cons_of_mem _ hi', hc, haddr', ?_⟩
      rw [← haddr'] at hlev ⊢
      simp only [hold info' hi']
      exact hlev

end insert
end Lucix.ObjCache
