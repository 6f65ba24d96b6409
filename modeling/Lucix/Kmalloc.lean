import Lucix.KmallocInit

/-! `kmalloc` and `kfree` in runs. An object in use is recorded with the slab and the index at
which it was handed out; `kfree`, which starts from the page of a pointer, comes back to both. -/
namespace Lucix.ObjCache
open Ring Execution IndexChain

/-- The place in `malloc_sizes` of the first class that is large enough. -/
def sizeClass (size : Nat) : Option Nat := mallocSizes.findIdx? fun e => decide (size ≤ e.1)

def kmalloc (st : SlabState) (supply : List Nat) (size : Nat) : Option AllocResult :=
  kmallocWith (memCacheAllocObj allocFuel) st supply size

def kfree (st : SlabState) (ptr : Nat) : Option SlabState :=
  memCacheFreeObj st (st.pageCache (ptr / pageSize)) ptr

/-- An object in use, with the slab and the index at which it was handed out. -/
structure Handout where
  cache : Nat
  ptr : Nat
  slab : Nat
  index : Nat
  deriving DecidableEq, Repr

/-- The record of a call of `kmalloc` that returns `ptr`: the slab that the call takes the object from
and its `next_free` at that point. -/
def handOut (st : SlabState) (supply : List Nat) (size ptr : Nat) : Option Handout :=
  (sizeClass size).bind fun i => (slabFor 1 st supply (st.mallocCache i)).map fun (_, addr, st₁, _) =>
    ⟨st.mallocCache i, ptr, addr, (st₁.slabs addr).nextFree⟩

inductive KCall where
  | kmalloc (size : Nat) (supply : List Nat)
  | kfree (ptr : Nat)
  deriving DecidableEq, Repr

structure KSys where
  state : SlabState
  live : List Handout

def KSys.step (s : KSys) : KCall → Option KSys
  | .kmalloc size supply => (kmalloc s.state supply size).bind fun (obj, st, _) =>
      match obj with
      | none => some ⟨st, s.live⟩
      | some ptr => (handOut s.state supply size ptr).map fun h => ⟨st, h :: s.live⟩
  | .kfree ptr => (kfree s.state ptr).map fun st => ⟨st, s.live.filter fun h => decide (h.ptr ≠ ptr)⟩

/-- The blocks that `alloc_pages` returns are fresh, and only pointers in use are given back. -/
def KLegal (t : CacheTable) (s : KSys) : KCall → Prop
  | .kmalloc size supply => ∀ i, sizeClass size = some i → FreshSupply t s.state.made (t.mallocCache i) supply
  | .kfree ptr => ∃ h ∈ s.live, h.ptr = ptr

/-- The object is the one at its index in its slab, which is a slab of its cache. -/
def HandedOut (t : CacheTable) (made : List SlabInfo) (h : Handout) : Prop :=
  ∃ info ∈ made, info.cache = h.cache ∧ info.addr = h.slab ∧ h.index < info.objs t ∧
    h.ptr = info.object t h.index

/-- The smallest size class for `size`. -/
structure SmallestClass (size i : Nat) (e : Nat × Nat) : Prop where
  entry : mallocSizes[i]? = some e
  fits : size ≤ e.1
  smallest : ∀ e' ∈ mallocSizes, size ≤ e'.1 → e.1 ≤ e'.1

/-- A call of `kmalloc` that returns an object of size class `i`. -/
structure Served (t : CacheTable) (s : KSys) (size i : Nat) (e : Nat × Nat) (st' : SlabState)
    (h : Handout) : Prop where
  class_eq : SmallestClass size i e
  cache_eq : h.cache = s.state.mallocCache i
  size_eq : (s.state.caches h.cache).objectSize = e.1
  placed : HandedOut t st'.made h
  unused : ∀ h' ∈ s.live, h'.ptr ≠ h.ptr

/-- The call gives back index `h.index` of slab `h.slab` and changes no other slab. -/
structure GivesBack (st : SlabState) (h : Handout) (st' : SlabState) : Prop where
  given : Given (st.slabs h.slab) (st'.slabs h.slab) h.index
  others : ∀ a, a ≠ h.slab → st'.slabs a = st.slabs a
  made_eq : st'.made = st.made
  caches_eq : st'.caches = st.caches ∧ st'.mallocCache = st.mallocCache
  tags_eq : st'.pageCache = st.pageCache ∧ st'.pageSlab = st.pageSlab

/-- What `kmalloc` and `kfree` do next in a state. -/
structure KmallocMeets (t : CacheTable) (s : KSys) : Prop where
  small : ∀ size ≤ 32768, ∀ supply, KLegal t s (.kmalloc size supply) →
    ∃ i e st' supply' h, kmalloc s.state supply size = some (some h.ptr, st', supply') ∧
      handOut s.state supply size h.ptr = some h ∧ Served t s size i e st' h
  large : ∀ size, 32768 < size → ∀ supply, kmalloc s.state supply size = some (none, s.state, supply)
  free : ∀ h ∈ s.live, ∃ st', kfree s.state h.ptr = some st' ∧ GivesBack s.state h st'

/-! ### The index of an object -/

section handout
variable {t : CacheTable} {exact : Prop} {st st₁ st' : SlabState} {all all' : List (Nat × Nat)} {sh sh' : Shelves}
  {alloc : SlabState → List Nat → Nat → Option AllocResult} {supply supply₁ supply' : List Nat}
  {c addr obj fuel : Nat} {o : Option Nat} {shelf : Option Shelf}

/-- An allocation function keeps the slabs that have been made. -/
def Grows (alloc : SlabState → List Nat → Nat → Option AllocResult) : Prop :=
  ∀ st supply c o st' supply', alloc st supply c = some (o, st', supply') → st.made ⊆ st'.made

theorem kmallocWith_made (hgrows : Grows alloc) {size : Nat}
    (h : kmallocWith alloc st supply size = some (o, st', supply')) : st.made ⊆ st'.made := by
  rw [kmallocWith] at h
  split at h
  · exact hgrows _ _ _ _ _ _ h
  · rw [← (Prod.mk.inj (Prod.mk.inj (Option.some.inj h)).2).1]
    exact List.Subset.refl _

theorem descFor_made (hgrows : Grows alloc) {base : Nat}
    (h : descFor alloc st base supply c = some (addr, st', supply')) : st.made ⊆ st'.made := by
  rw [descFor] at h
  split at h
  · obtain ⟨-, rfl, -⟩ : _ ∧ _ ∧ _ := by simpa using h
    exact List.Subset.refl _
  · obtain ⟨⟨o, st₁, supply₁⟩, hdesc, h⟩ := Option.bind_eq_some_iff.mp h
    obtain ⟨slab, -, heq⟩ := Option.map_eq_some_iff.mp h
    obtain ⟨-, rfl, -⟩ : _ ∧ _ ∧ _ := by simpa using heq
    exact kmallocWith_made hgrows hdesc

theorem slabFor_made (hgrows : Grows (memCacheAllocObj fuel))
    (h : slabFor fuel st supply c = some (shelf, addr, st₁, supply₁)) : st.made ⊆ st₁.made := by
  rcases slabFor_cases h with ⟨k, -, -, -, rfl, -⟩ | ⟨-, hnew⟩
  · exact List.Subset.refl _
  · obtain ⟨base, rest, st₀, rfl, hdesc, -, rfl⟩ := newSlab_cases hnew
    exact List.subset_cons_of_subset _ (descFor_made hgrows hdesc)

theorem allocFromSlab_made (h : allocFromSlab st addr = some (o, st')) : st'.made = st.made := by
  rcases allocFromSlab_cases h with ⟨-, -, rfl⟩ | ⟨-, -, links, -, rfl⟩
  · rfl
  · rfl

theorem memCacheAllocObj_grows (fuel : Nat) : Grows (memCacheAllocObj fuel) := by
  induction fuel with
  | zero =>
      intro st supply c o st' supply' h
      contradiction
  | succ fuel ih =>
      intro st supply c o st' supply' h
      obtain ⟨shelf, addr, st₁, st₂, links, hslab, htake, -, rfl⟩ := memCacheAllocObj_cases h
      show st.made ⊆ st₂.made
      rw [allocFromSlab_made htake]
      exact slabFor_made ih hslab

theorem Inv.slabFor_spec (h : Inv t exact st all sh)
    (hslab : slabFor fuel st supply c = some (shelf, addr, st₁, supply₁))
    (hsome : (st₁.slabs addr).nextFree ≠ freeListEnd) :
    ∃ info ∈ st₁.made, info.cache = c ∧ info.addr = addr ∧
      ((st₁.slabs addr).nextFree < info.objs t ∨ (st₁.slabs addr).nextFree = 0) := by
  rcases slabFor_cases hslab with ⟨k, -, hne, haddr, rfl, -⟩ | ⟨-, hnew⟩
  · obtain ⟨info, hi, hc, rfl⟩ := h.front hne haddr
    obtain ⟨xs, hpool, -⟩ := h.pool info hi
    have hchain := hpool.chain
    refine ⟨info, hi, hc, rfl, .inl ?_⟩
    cases xs with
    | nil => exact absurd hchain hsome
    | cons x xs => exact ((hpool.mem_iff _).mp (by rw [hchain.1]; exact List.mem_cons_self)).1
  · obtain ⟨base, rest, st₀, rfl, -, -, rfl⟩ := newSlab_cases hnew
    refine ⟨⟨c, addr, base⟩, List.mem_cons_self, rfl, rfl, .inr ?_⟩
    rw [placeSlab_self (st.caches c) st₀ ⟨c, addr, base⟩]
    rfl

theorem Inv.alloc_index (h : Inv t exact st all sh) (h' : Inv t exact st' all' sh')
    (hcall : memCacheAllocObj (fuel + 1) st supply c = some (some obj, st', supply')) :
    ∃ shelf addr st₁, slabFor fuel st supply c = some (shelf, addr, st₁, supply') ∧
      HandedOut t st'.made ⟨c, obj, addr, (st₁.slabs addr).nextFree⟩ := by
  obtain ⟨shelf, addr, st₁, st₂, links, hslab, htake, -, rfl⟩ := memCacheAllocObj_cases hcall
  rcases allocFromSlab_cases htake with ⟨-, hnone, -⟩ | ⟨hsome, hobj, links', -, rfl⟩
  · contradiction
  obtain ⟨info, hi, hc, ha, hindex⟩ := h.slabFor_spec hslab hsome
  refine ⟨shelf, addr, st₁, hslab, info, hi, hc, ha, ?_, ?_⟩
  · have hcap := h'.capacity info hi
    dsimp only
    omega
  · -- the state after the call still has the slab's memory and the tags of its pages
    have hself : (Function.update st₁.slabs addr (takenSlab (st₁.slabs addr)) addr).mem = (st₁.slabs addr).mem := by
      rw [Function.update_self]
      rfl
    have hmem : (st₁.slabs addr).mem = info.mem t := by
      have hmem' := h'.mem_eq info hi
      rw [ha] at hmem'
      exact hself.symm.trans hmem'
    have hcache : st₁.pageCache ((st₁.slabs addr).mem / pageSize) = info.cache := by
      have hcache' := h'.cache_of_mem hi
      rw [h'.mem_eq info hi] at hcache'
      rw [hmem]
      exact hcache'
    have hcaches : st₁.caches = t.caches := h'.caches_eq
    rw [hcache, hcaches, hmem] at hobj
    exact Option.some.inj hobj

end handout

/-! ### Size classes -/

theorem sizeClass_small {size : Nat} (hs : size ≤ 32768) :
    ∃ i e, sizeClass size = some i ∧ SmallestClass size i e := by
  have hsome : (sizeClass size).isSome := by
    rw [sizeClass, List.findIdx?_isSome]
    exact List.any_eq_true.mpr ⟨(32 * 1024, 4), by decide, decide_eq_true hs⟩
  obtain ⟨i, hi⟩ := Option.isSome_iff_exists.mp hsome
  obtain ⟨hlt, hfits, hbefore⟩ := List.findIdx?_eq_some_iff_getElem.mp hi
  have hsorted : mallocSizes.Pairwise fun e e' => e.1 ≤ e'.1 := by decide
  refine ⟨i, mallocSizes[i], hi, List.getElem?_eq_getElem hlt, of_decide_eq_true hfits, fun e' he' hle => ?_⟩
  obtain ⟨j, hj, rfl⟩ := List.getElem_of_mem he'
  have hij : i ≤ j := by
    by_contra hji
    exact hbefore j (by omega) (decide_eq_true hle)
  rcases Nat.eq_or_lt_of_le hij with rfl | hlt'
  · exact Nat.le_refl _
  · exact List.pairwise_iff_getElem.mp hsorted i j hlt hj hlt'

theorem sizeClass_large {size : Nat} (hs : 32768 < size) : sizeClass size = none := by
  have hmax : ∀ e ∈ mallocSizes, e.1 ≤ 32768 := by decide
  refine List.findIdx?_eq_none_iff.mpr fun e he => decide_eq_false ?_
  have := hmax e he
  omega

theorem kmalloc_class {size i : Nat} (hi : sizeClass size = some i) (st : SlabState) (supply : List Nat) :
    kmalloc st supply size = memCacheAllocObj allocFuel st supply (st.mallocCache i) := by
  rw [sizeClass] at hi
  rw [kmalloc, kmallocWith, hi]

theorem kmalloc_large {size : Nat} (hs : 32768 < size) (st : SlabState) (supply : List Nat) :
    kmalloc st supply size = some (none, st, supply) := by
  have hnone := sizeClass_large hs
  rw [sizeClass] at hnone
  rw [kmalloc, kmallocWith, hnone]

theorem initializeCache_roomy (old : ObjMemCache) {size order : Nat} (hsize : 0 < size)
    (hfit : 2 * size ≤ pageSize <<< order) : 2 ≤ (initializeCache old size order).objsPerSlab := by
  by_cases hin : size ≤ pageSize <<< order / 8
  · obtain ⟨n, heq, -, hfull⟩ := initializeCache_counted old hsize hin
    have hbytes : pageSize <<< order = pageSize * 2 ^ order := Nat.shiftLeft_eq _ _
    have hpos := Nat.two_pow_pos order
    rw [heq]
    by_contra hless
    have hone : n + 1 ≤ 2 := by
      dsimp only at hless
      omega
    have hmul := Nat.mul_le_mul_left size hone
    simp only [Fits, slabSize, pageSize] at *
    omega
  · rw [initializeCache_large old hin]
    exact (Nat.le_div_iff_mul_le hsize).mpr hfit

/-- The cache of a size class has objects of that size, and at least two of them in a slab. -/
theorem CacheTable.class_cache (t : CacheTable) {i : Nat} {e : Nat × Nat} (he : mallocSizes[i]? = some e) :
    2 ≤ (t.caches (t.mallocCache i)).objsPerSlab ∧ (t.caches (t.mallocCache i)).objectSize = e.1 := by
  have hsizes : ∀ e ∈ mallocSizes, 0 < e.1 ∧ e.2 ≤ 10 ∧ 2 * e.1 ≤ pageSize <<< e.2 := by decide
  obtain ⟨hsize, horder, hfit⟩ := hsizes e (List.mem_of_getElem? he)
  obtain ⟨old, heq⟩ := t.malloc i e he
  rw [heq]
  exact ⟨initializeCache_roomy old hsize hfit, (initializeCache_sized old hsize horder).2.1⟩

/-! ### Runs -/

section runs
variable {t : CacheTable} {live : List Nat} {roots : List (Nat × Nat)} {s : KSys}

/-- The objects in use: those of the callers of `kmalloc`, the caches and the descriptors. -/
def KSys.objects (t : CacheTable) (roots : List (Nat × Nat)) (s : KSys) : List (Nat × Nat) :=
  (s.live.map fun h => (h.cache, h.ptr)) ++ (roots ++ held t s.state.made)

/-- The invariant of a run. The state need only agree with one that meets the invariant of the caches. -/
structure KKept (t : CacheTable) (live : List Nat) (roots : List (Nat × Nat)) (s : KSys) : Prop where
  inv : ∃ st₀ sh, Agree live s.state st₀ ∧ Inv t False st₀ (s.objects t roots) sh
  placed : ∀ h ∈ s.live, h.cache ∈ live ∧ HandedOut t s.state.made h

theorem Inv.eq_of_ptr {exact : Prop} {st : SlabState} {all : List (Nat × Nat)} {sh : Shelves}
    (h : Inv t exact st all sh) {e e' : Nat × Nat} (he : e ∈ all) (he' : e' ∈ all) (heq : e.2 = e'.2) : e = e' := by
  obtain ⟨info, hi, hc, i, hlt, ho⟩ := h.origin e he
  obtain ⟨info', hi', hc', i', hlt', ho'⟩ := h.origin e' he'
  obtain ⟨rfl, -⟩ := h.eq_of_object hi hi' hlt hlt' (by rw [← ho, ← ho', heq])
  exact Prod.ext (hc.symm.trans hc') heq

theorem FreshSupply.aligned {made : List SlabInfo} {c : Nat} {supply : List Nat}
    (h : FreshSupply t made c supply) : ∀ base ∈ supply.take 2, base % pageSize = 0 := by
  match supply, h with
  | p :: q :: rest, ⟨hp, hq, _⟩ =>
      intro base hbase
      rcases List.mem_cons.mp hbase with rfl | hbase
      · exact hp.mapped.1
      · rw [List.mem_singleton.mp hbase]
        exact hq.mapped.1

theorem KSys.mem_objects {h : Handout} (hh : h ∈ s.live) : (h.cache, h.ptr) ∈ s.objects t roots :=
  List.mem_append_left _ (List.mem_map_of_mem hh)

theorem HandedOut.mono {made made' : List SlabInfo} {h : Handout} (hh : HandedOut t made h) (hsub : made ⊆ made') :
    HandedOut t made' h := by
  obtain ⟨info, hi, hrest⟩ := hh
  exact ⟨info, hsub hi, hrest⟩

theorem KKept.serve (h : KKept t live roots s) (hmalloc : ∀ i < 11, t.mallocCache i ∈ live) {size : Nat}
    (hs : size ≤ 32768) {supply : List Nat} (hlegal : KLegal t s (.kmalloc size supply)) :
    ∃ i e st' supply' hd, kmalloc s.state supply size = some (some hd.ptr, st', supply') ∧
      handOut s.state supply size hd.ptr = some hd ∧ Served t s size i e st' hd ∧
      KKept t live roots ⟨st', hd :: s.live⟩ := by
  obtain ⟨⟨st₀, sh, hagree, hinv⟩, hplaced⟩ := h
  obtain ⟨i, e, hi, hclass⟩ := sizeClass_small hs
  obtain ⟨hcap, hsize⟩ := t.class_cache hclass.entry
  have hlive := hmalloc i (List.getElem?_eq_some_iff.mp hclass.entry).1
  have hmalloc₀ : MallocLive live st₀ := by
    rw [MallocLive, hinv.malloc_eq]
    exact hmalloc
  have hmc : s.state.mallocCache i = t.mallocCache i := by rw [hagree.malloc_eq, hinv.malloc_eq]
  have hfresh := hlegal i hi
  have haligned := hfresh.aligned
  rw [hagree.made_eq] at hfresh
  obtain ⟨obj, st₀', supply', sh', descs, hcall₀, hinv', hheld, -⟩ := hinv.alloc 0 hcap hfresh
  obtain ⟨st', hcall, hagree'⟩ := hagree.follows hinv hmalloc₀ 2 _ hlive _ _ _ _ haligned hcall₀
  obtain ⟨shelf, addr, st₁, hslab₀, hhanded⟩ := hinv.alloc_index hinv' hcall₀
  obtain ⟨st₁', hslab, hagree₁⟩ := hagree.slabFor hmalloc₀ hlive (hagree.follows hinv hmalloc₀ 1) haligned hslab₀
  have hgrown : s.state.made ⊆ st'.made := memCacheAllocObj_grows 2 _ _ _ _ _ _ hcall
  rw [← hagree'.made_eq] at hhanded
  refine ⟨i, e, st', supply', ⟨t.mallocCache i, obj, addr, (st₁.slabs addr).nextFree⟩, ?_, ?_,
    ⟨hclass, hmc.symm, ?_, hhanded, ?_⟩, ⟨st₀', sh', hagree', ?_⟩, ?_⟩
  · rw [kmalloc_class hi, hmc]
    exact hcall
  · rw [handOut, hi, Option.bind_some, hmc, hslab, Option.map_some, ← hagree₁.slabs_eq]
  · rw [hagree.caches_eq _ hlive, hinv.caches_eq]
    exact hsize
  · intro h' hh' heq
    have hmem : (h'.cache, h'.ptr) ∈ descs ++ s.objects t roots := List.mem_append_right _ (KSys.mem_objects hh')
    have hsame := hinv'.eq_of_ptr (List.mem_cons_of_mem _ hmem) List.mem_cons_self heq
    rw [hsame] at hmem
    exact (List.nodup_cons.mp hinv'.nodup).1 hmem
  · refine hinv'.perm ?_
    simp only [KSys.objects, hagree'.made_eq, hheld, ← hagree.made_eq, List.map_cons, List.cons_append]
    exact ((List.perm_append_comm_assoc descs _ _).trans
      ((List.perm_append_comm_assoc descs roots _).append_left _)).cons _
  · refine List.forall_mem_cons.mpr ⟨⟨hlive, hhanded⟩, fun h' hh' => ?_⟩
    obtain ⟨hlive', hhanded'⟩ := hplaced h' hh'
    exact ⟨hlive', hhanded'.mono hgrown⟩

theorem KSys.objects_erase {exact : Prop} {st : SlabState} {sh : Shelves}
    (hinv : Inv t exact st (s.objects t roots) sh) {hd : Handout} (hh : hd ∈ s.live) {st' : SlabState} (hmade : st'.made = s.state.made) :
    ((s.objects t roots).erase (hd.cache, hd.ptr)).Perm
      (KSys.objects t roots ⟨st', s.live.filter fun h => decide (h.ptr ≠ hd.ptr)⟩) := by
  have hmem : (hd.cache, hd.ptr) ∈ s.live.map fun h => (h.cache, h.ptr) := List.mem_map_of_mem hh
  have hnodup : (s.live.map fun h => (h.cache, h.ptr)).Nodup := (List.nodup_append.mp hinv.nodup).1
  rw [KSys.objects, KSys.objects, List.erase_append_left _ hmem, hmade]
  refine List.Perm.append_right _ ((List.perm_ext_iff_of_nodup (hnodup.erase _)
    (hnodup.sublist (List.filter_sublist.map _))).mpr fun e => ?_)
  rw [hnodup.mem_erase_iff, List.mem_map, List.mem_map]
  constructor
  · rintro ⟨hne, h, hl, rfl⟩
    refine ⟨h, List.mem_filter.mpr ⟨hl, decide_eq_true fun heq => hne ?_⟩, rfl⟩
    exact hinv.eq_of_ptr (KSys.mem_objects hl) (KSys.mem_objects hh) heq
  · rintro ⟨h, hl, rfl⟩
    obtain ⟨hl, hne⟩ := List.mem_filter.mp hl
    exact ⟨fun heq => of_decide_eq_true hne (Prod.mk.inj heq).2, h, hl, rfl⟩

theorem KKept.release (h : KKept t live roots s) {hd : Handout} (hh : hd ∈ s.live) :
    ∃ st', kfree s.state hd.ptr = some st' ∧ GivesBack s.state hd st' ∧
      KKept t live roots ⟨st', s.live.filter fun h => decide (h.ptr ≠ hd.ptr)⟩ := by
  obtain ⟨⟨st₀, sh, hagree, hinv⟩, hplaced⟩ := h
  obtain ⟨hlive, info, hi, hc, ha, hlt, hptr⟩ := hplaced hd hh
  rw [hagree.made_eq] at hi
  have hmem : (hd.cache, hd.ptr) ∈ s.objects t roots := KSys.mem_objects hh
  have hdesc : (hd.cache, hd.ptr) ∉ held t st₀.made := by
    intro hheld
    refine List.disjoint_of_nodup_append hinv.nodup (List.mem_map_of_mem hh) (List.mem_append_right _ ?_)
    rw [hagree.made_eq]
    exact hheld
  have htag : s.state.pageCache (hd.ptr / pageSize) = hd.cache := by
    rw [hagree.pageCache_eq, hptr, ← hc]
    exact (hinv.tags hi hlt).1
  obtain ⟨slab', hgiven, hcall₀⟩ := hinv.freeObj_eq hi hlt (by rw [hc, ← hptr]; exact hmem)
  rw [hc, ← hptr] at hcall₀
  obtain ⟨st₀', sh', hcall₁, hmade, hinv'⟩ := hinv.free hmem hdesc False.elim
  obtain ⟨st', hcall, hagree', hcaches⟩ := hagree.memCacheFreeObj hlive hcall₁
  obtain rfl := Option.some.inj (hcall₁.symm.trans hcall₀)
  have hmade' : st'.made = s.state.made := by rw [hagree'.made_eq, hmade, hagree.made_eq]
  refine ⟨st', by rw [kfree, htag]; exact hcall, ⟨?_, ?_, hmade', ⟨hcaches, ?_⟩, ?_, ?_⟩,
    ⟨_, sh', hagree', hinv'.perm (KSys.objects_erase hinv hh hmade')⟩, ?_⟩
  · rw [hagree'.slabs_eq, hagree.slabs_eq, ← ha]
    show Given (st₀.slabs info.addr) (Function.update st₀.slabs info.addr slab' info.addr) hd.index
    rw [Function.update_self]
    exact hgiven
  · intro a hne
    rw [hagree'.slabs_eq, hagree.slabs_eq]
    rw [← ha] at hne
    exact Function.update_of_ne hne _ _
  · rw [hagree'.malloc_eq, hagree.malloc_eq]
    rfl
  · rw [hagree'.pageCache_eq, hagree.pageCache_eq]
    rfl
  · rw [hagree'.pageSlab_eq, hagree.pageSlab_eq]
    rfl
  · intro h' hh'
    dsimp only
    rw [hmade']
    exact hplaced h' (List.mem_filter.mp hh').1

theorem KKept.meets (h : KKept t live roots s) (hmalloc : ∀ i < 11, t.mallocCache i ∈ live) : KmallocMeets t s := by
  refine ⟨fun size hs supply hlegal => ?_, fun size hs supply => kmalloc_large hs s.state supply, fun hd hh => ?_⟩
  · obtain ⟨i, e, st', supply', hd, hcall, hhand, hserved, -⟩ := h.serve hmalloc hs hlegal
    exact ⟨i, e, st', supply', hd, hcall, hhand, hserved⟩
  · obtain ⟨st', hcall, hgives, -⟩ := h.release hh
    exact ⟨st', hcall, hgives⟩

theorem KKept.step (h : KKept t live roots s) (hmalloc : ∀ i < 11, t.mallocCache i ∈ live) {call : KCall}
    (hlegal : KLegal t s call) : ∃ s', s.step call = some s' ∧ KKept t live roots s' := by
  cases call with
  | kmalloc size supply =>
      by_cases hs : size ≤ 32768
      · obtain ⟨i, e, st', supply', hd, hcall, hhand, -, hkept⟩ := h.serve hmalloc hs hlegal
        refine ⟨_, ?_, hkept⟩
        rw [KSys.step, hcall, Option.bind_some]
        dsimp only
        rw [hhand, Option.map_some]
      · refine ⟨s, ?_, h⟩
        rw [KSys.step, kmalloc_large (by omega), Option.bind_some]
  | kfree ptr =>
      obtain ⟨hd, hh, rfl⟩ := hlegal
      obtain ⟨st', hcall, -, hkept⟩ := h.release hh
      refine ⟨_, ?_, hkept⟩
      rw [KSys.step, hcall, Option.map_some]

theorem Created.kept {root base : Nat} {st : SlabState} (hb : RootBlock root base) (h : Created root base 11 st) :
    KKept h.table (createdCaches root base 11) (rootObjects root base) ⟨st, []⟩ := by
  refine ⟨⟨_, rootShelves root base 11, tidied_agree _ st, ?_⟩, fun _ hh => absurd hh List.not_mem_nil⟩
  have hheld : held h.table st.made = [] := by
    have hmade : st.made = [⟨root, base, base⟩] := h.slabs.made_eq
    have hin : (h.table.caches root).inBlock = true := by rw [h.table_root]; rfl
    simp [held, hmade, hin]
  rw [KSys.objects, hheld, List.append_nil]
  exact h.inv hb

/-- From `obj_mem_cache_init` on, along every sequence of calls, `kmalloc` of at most 32768 bytes
returns an unused object of the smallest class that is large enough, `kmalloc` of more returns a null
pointer, and `kfree` gives the index of an object back to the slab it came from. -/
theorem kmalloc_kfree_agree {root base : Nat} {pre : SlabState} (hpre : pre.made = []) (hb : RootBlock root base)
    (rest : List Nat) :
    ∃ st, objMemCacheInit root pre (base :: rest) = some (st, rest) ∧ ∃ t : CacheTable,
      (∀ c ∈ root :: (List.range 11).map st.mallocCache, t.caches c = st.caches c) ∧
      t.mallocCache = st.mallocCache ∧
      ∀ calls, Guarded KSys.step (KLegal t) ⟨st, []⟩ calls →
        ∃ s, run KSys.step ⟨st, []⟩ calls = some s ∧ KmallocMeets t s := by
  obtain ⟨st, hinit, hcreated⟩ := objMemCacheInit_created hpre hb
  have hclasses : ∀ i < 11, st.mallocCache i ∈ createdCaches root base 11 := by
    intro i hi
    obtain ⟨heq, -⟩ := hcreated.classes i hi _ (List.getElem?_eq_getElem hi)
    rw [heq]
    exact rootObject_mem_created hi
  refine ⟨st, hinit, hcreated.table, fun c hc => tidied_cache ?_, rfl, fun calls hcalls => ?_⟩
  · rcases List.mem_cons.mp hc with rfl | hc
    · exact root_mem_created c base 11
    · obtain ⟨i, hi, rfl⟩ := List.mem_map.mp hc
      exact hclasses i (List.mem_range.mp hi)
  · obtain ⟨s, hs, hkept⟩ := run_invariant (KKept hcreated.table _ (rootObjects root base))
      (fun s call h hg => h.step hclasses hg) (hcreated.kept hb) hcalls
    exact ⟨s, hs, hkept.meets hclasses⟩

end runs

/-! ### A concrete run -/

/-- An object of a page, whose slab is described by an object of `blockAt 2`, is taken after the
caches have been set up in `blockAt 0`, and given back. -/
def oneObject : List KCall := [.kmalloc 4096 [blockAt 1, blockAt 2], .kfree (blockAt 1)]

theorem rootBlock_zero : RootBlock 4096 (blockAt 0) := by
  constructor
  all_goals decide

theorem freshSupply_pages {t : CacheTable} {root c : Nat} (hroot : (t.caches root).slabBytes = pageSize)
    (hclass : (t.caches c).slabBytes = 2 * pageSize) (hdesc : (t.caches t.descCache).slabBytes = pageSize) :
    FreshSupply t [⟨root, blockAt 0, blockAt 0⟩] c [blockAt 1, blockAt 2] := by
  refine ⟨⟨?_, ?_⟩, ⟨?_, ?_⟩, ?_⟩
  all_goals
    simp only [List.mem_singleton, forall_eq, SlabInfo.Mapped, SlabInfo.Apart, SlabInfo.stop, hroot, hclass, hdesc]
    decide

theorem kmalloc_kfree_agree_one :
    ∃ st t s, objMemCacheInit 4096 (emptyCaches kmallocTable) [blockAt 0] = some (st, []) ∧
      (KSys.step ⟨st, []⟩ (.kmalloc 4096 [blockAt 1, blockAt 2])).map KSys.live =
        some [⟨st.mallocCache 7, blockAt 1, blockAt 2 + 268, 0⟩] ∧
      run KSys.step ⟨st, []⟩ oneObject = some s ∧ s.live = [] ∧ KmallocMeets t s := by
  obtain ⟨st, hinit, t, hcaches, hmalloc, hruns⟩ := @kmalloc_kfree_agree 4096 (blockAt 0)
    (emptyCaches kmallocTable) rfl rootBlock_zero []
  have hboot : (objMemCacheInit 4096 (emptyCaches kmallocTable) [blockAt 0]).all (fun (st, _) => decide
      (st.made = [⟨4096, blockAt 0, blockAt 0⟩] ∧ (st.caches 4096).slabBytes = pageSize ∧
        (st.caches (st.mallocCache 1)).slabBytes = pageSize ∧
        (st.caches (st.mallocCache 7)).slabBytes = 2 * pageSize ∧
        (KSys.step ⟨st, []⟩ (.kmalloc 4096 [blockAt 1, blockAt 2])).map KSys.live =
          some [⟨st.mallocCache 7, blockAt 1, blockAt 2 + 268, 0⟩] ∧
        (run KSys.step ⟨st, []⟩ oneObject).map KSys.live = some [])) = true := by decide +kernel
  rw [hinit, Option.all_some] at hboot
  obtain ⟨hmade, hroot, hdesc, hclass, hfirst, hlive⟩ := of_decide_eq_true hboot
  have hmem : ∀ i < 11, st.mallocCache i ∈ 4096 :: (List.range 11).map st.mallocCache := fun i hi =>
    List.mem_cons_of_mem _ (List.mem_map_of_mem (List.mem_range.mpr hi))
  rw [← hcaches _ List.mem_cons_self] at hroot
  rw [← hcaches _ (hmem 1 (by decide)), ← hmalloc] at hdesc
  rw [← hcaches _ (hmem 7 (by decide)), ← hmalloc] at hclass
  have hlegal : Guarded KSys.step (KLegal t) ⟨st, []⟩ oneObject := by
    refine ⟨fun i hi => ?_, ?_⟩
    · obtain rfl : 7 = i := Option.some.inj ((show some 7 = sizeClass 4096 by decide).trans hi)
      rw [hmade]
      exact freshSupply_pages hroot hclass hdesc
    · obtain ⟨s₁, hstep, hheld⟩ := Option.map_eq_some_iff.mp hfirst
      rw [hstep]
      refine ⟨⟨_, by rw [hheld]; exact List.mem_cons_self, rfl⟩, ?_⟩
      split <;> trivial
  obtain ⟨s, hs, hmeets⟩ := hruns oneObject hlegal
  rw [hs] at hlive
  exact ⟨st, t, s, hinit, hfirst, hs, Option.some.inj hlive, hmeets⟩

end Lucix.ObjCache
