import Lucix.SlabFrame

/-! How the caches of `kmalloc` come about: `obj_mem_cache_init` sets up `root_cache` and takes
the cache of every size class from it. -/
namespace Lucix.ObjCache
open Ring Execution IndexChain

/-- The size of `obj_mem_cache_t`. -/
def objMemCacheSize : Nat := 144

/-- The function `__initialize_cache` on the cache at address `c`. -/
def initializeCacheAt (st : SlabState) (c objectSize pageOrder : Nat) : SlabState :=
  { st with
    caches := Function.update st.caches c (initializeCache (st.caches c) objectSize pageOrder)
    links := initListHead (initListHead (initListHead st.links (.head .free c)) (.head .full c)) (.head .mixed c) }

/-- The function `create_obj_mem_cache`. -/
def createObjMemCache (root : Nat) (st : SlabState) (supply : List Nat) (objectSize pageOrder : Nat) :
    Option (Nat × SlabState × List Nat) :=
  match memCacheAllocObj allocFuel st supply root with
  | some (some c, st, supply) => some (c, initializeCacheAt st c objectSize pageOrder, supply)
  | _ => none

/-- The loop of `obj_mem_cache_init` from entry `i` of `malloc_sizes` on. -/
def createMallocCaches (root : Nat) : Nat → List (Nat × Nat) → SlabState → List Nat →
    Option (SlabState × List Nat)
  | _, [], st, supply => some (st, supply)
  | i, e :: rest, st, supply =>
      (createObjMemCache root st supply e.1 e.2).bind fun (c, st, supply) =>
        createMallocCaches root (i + 1) rest { st with mallocCache := Function.update st.mallocCache i c } supply

/-- The function `obj_mem_cache_init`, with the address of `root_cache`. -/
def objMemCacheInit (root : Nat) (st : SlabState) (supply : List Nat) : Option (SlabState × List Nat) :=
  createMallocCaches root 0 mallocSizes (initializeCacheAt st root objMemCacheSize 0) supply

/-- The page that `alloc_pages` returns for the first slab of `root_cache`. -/
structure RootBlock (root base : Nat) : Prop where
  aligned : base % pageSize = 0
  low : identityBase ≤ base
  high : base + pageSize ≤ identityBase + 2 ^ 47
  apart : root < base ∨ base + pageSize ≤ root

/-- The cache `root_cache`. -/
def rootCache : ObjMemCache := ⟨1, objMemCacheSize, 27, 0⟩

/-- Object `i` of the first slab of `root_cache`. -/
def rootObject (base i : Nat) : Nat := base + 140 + i * objMemCacheSize

/-- The lists of slabs when `n` caches have been created. -/
def rootShelves (root base n : Nat) : Shelves := fun k => if k = (.mixed, root) ∧ 0 < n then [base] else []

/-- The descriptor and the page of the first slab of `root_cache` when its first `n` objects are out. -/
structure RootFilled (root base n : Nat) (st : SlabState) : Prop where
  mem_eq : (st.slabs base).mem = base + 140
  used : (st.slabs base).inUse = n ∧ (st.slabs base).nextFree = n
  list_eq : ∀ i < 27, (st.slabs base).freeList i = if i = 26 then freeListEnd else i + 1
  tagged : st.pageCache (base / pageSize) = root ∧ st.pageSlab (base / pageSize) = base

/-- The slabs of `root_cache` when `n` objects have been handed out. -/
structure RootSlab (root base n : Nat) (st : SlabState) : Prop where
  made_eq : st.made = if 0 < n then [⟨root, base, base⟩] else []
  ring : st.links.IsRing (.head .mixed root) ((rootShelves root base n (.mixed, root)).map .slab)
  filled : 0 < n → RootFilled root base n st

/-- The caches there are when `n` caches have been created. -/
def createdCaches (root base n : Nat) : List Nat := root :: (List.range n).map (rootObject base)

/-- The lists other than the one `root_cache` has its slab on are empty. -/
def OthersEmpty (root base n : Nat) (L : Links SlabNode) : Prop :=
  ∀ shelf, ∀ c ∈ createdCaches root base n, (shelf, c) ≠ (.mixed, root) → L.SelfLinked (.head shelf c)

/-- The state when the first `n` caches of `malloc_sizes` have been created. Nothing is known of the
memory of the other caches, which are no caches yet. -/
structure Created (root base n : Nat) (st : SlabState) : Prop where
  root_eq : st.caches root = rootCache
  classes : ∀ i < n, ∀ e, mallocSizes[i]? = some e →
    st.mallocCache i = rootObject base i ∧ ∃ old, st.caches (rootObject base i) = initializeCache old e.1 e.2
  empty : OthersEmpty root base n st.links
  slabs : RootSlab root base n st

section init
variable {root base n : Nat} {st : SlabState} {rest : List Nat}

theorem rootCache_eq (old : ObjMemCache) : initializeCache old objMemCacheSize 0 = rootCache := by
  have hcount : countObjects 4096 144 4096 0 = some 27 := by decide +kernel
  have hflag : (⟨1, 144, old.objsPerSlab, 0⟩ : ObjMemCache).inBlock = true := inBlock_of_one rfl
  have hbytes : (⟨1, 144, old.objsPerSlab, 0⟩ : ObjMemCache).slabBytes = 4096 := rfl
  rw [objMemCacheSize, initializeCache_small old (by decide)]
  simp only [calcNumObjects, hflag, if_true, hbytes, hcount]
  rfl

theorem initializeCacheAt_heads (st : SlabState) (c size order : Nat) (shelf : Shelf) :
    (initializeCacheAt st c size order).links.SelfLinked (.head shelf c) := by
  cases shelf <;> simp [initializeCacheAt, initListHead, Links.SelfLinked, Links.Adj]

theorem initializeCacheAt_frame (st : SlabState) (size order : Nat) {c : Nat} {n : SlabNode}
    (hn : ∀ shelf, n ≠ .head shelf c) :
    (initializeCacheAt st c size order).links.next n = st.links.next n ∧
      (initializeCacheAt st c size order).links.prev n = st.links.prev n := by
  simp [initializeCacheAt, initListHead, hn]

theorem allocFromSlab_plain {addr c : Nat} (hc : st.pageCache ((st.slabs addr).mem / pageSize) = c)
    (hsome : (st.slabs addr).nextFree ≠ freeListEnd)
    (hmore : (st.slabs addr).freeList (st.slabs addr).nextFree ≠ freeListEnd) :
    allocFromSlab st addr =
      some (some ((st.slabs addr).mem + (st.slabs addr).nextFree * (st.caches c).objectSize),
        st.setSlab addr (takenSlab (st.slabs addr))) := by
  simp only [allocFromSlab, hc, if_neg hsome, if_neg hmore, Option.bind_eq_bind, Option.bind_some]
  rfl

theorem RootBlock.page_eq (h : RootBlock root base) : (base + 140) / pageSize = base / pageSize := by
  have := h.aligned
  rw [pageSize] at *
  omega

theorem rootShelves_zero (root base : Nat) (k : Shelf × Nat) : rootShelves root base 0 k = [] :=
  if_neg fun h => Nat.lt_irrefl 0 h.2

theorem rootShelves_other {k : Shelf × Nat} (hk : k ≠ (.mixed, root)) : rootShelves root base n k = [] :=
  if_neg fun h => hk h.1

theorem rootShelves_mixed (hn : 0 < n) : rootShelves root base n (.mixed, root) = [base] := if_pos ⟨rfl, hn⟩

theorem freshList_root (old : Nat → Nat) {i : Nat} (hi : i < 27) :
    freshList 27 old i = if i = 26 then freeListEnd else i + 1 := by
  unfold freshList
  by_cases hlast : i = 26
  · rw [if_pos (by omega), if_pos hlast]
  · rw [if_neg (by omega), if_pos hi, if_neg hlast]

theorem RootFilled.take (hb : RootBlock root base) (hroot : st.caches root = rootCache)
    (h : RootFilled root base n st) (hn : n < 26) :
    allocFromSlab st base = some (some (rootObject base n), st.setSlab base (takenSlab (st.slabs base))) ∧
      RootFilled root base (n + 1) (st.setSlab base (takenSlab (st.slabs base))) := by
  obtain ⟨huse, hfirst⟩ := h.used
  have hsecond : (st.slabs base).freeList n = n + 1 := by
    rw [h.list_eq n (by omega), if_neg (by omega)]
  have htag : st.pageCache ((st.slabs base).mem / pageSize) = root := by
    rw [h.mem_eq, hb.page_eq]
    exact h.tagged.1
  have htake := allocFromSlab_plain htag (by rw [hfirst, freeListEnd]; omega)
    (by rw [hfirst, hsecond, freeListEnd]; omega)
  rw [h.mem_eq, hfirst, hroot] at htake
  have hself : (st.setSlab base (takenSlab (st.slabs base))).slabs base = takenSlab (st.slabs base) :=
    Function.update_self _ _ _
  refine ⟨htake, ?_, ?_, fun i hi => ?_, h.tagged⟩
  · rw [hself]
    exact h.mem_eq
  · rw [hself, takenSlab, hfirst, hsecond, huse]
    exact ⟨Nat.mod_eq_of_lt (by omega), rfl⟩
  · rw [hself]
    exact h.list_eq i hi

theorem rootFilled_new (hroot : st.caches root = rootCache) :
    RootFilled root base 0 (withSlab st ⟨root, base, base⟩) := by
  have hslab : (withSlab st ⟨root, base, base⟩).slabs base = freshSlab rootCache base (st.slabs base).freeList := by
    simp only [withSlab, Function.update_self, hroot]
  have hpage : onPages base (st.caches root).pageOrder (base / pageSize) := by
    rw [hroot]
    exact ⟨Nat.le_refl _, Nat.lt_succ_self _⟩
  refine ⟨?_, ?_, fun i hi => ?_, if_pos hpage, if_pos hpage⟩
  · rw [hslab]
    rfl
  · rw [hslab]
    exact ⟨rfl, rfl⟩
  · rw [hslab]
    exact freshList_root _ hi

/-- What an allocation from `root_cache` leaves alone. -/
structure RootKept (root : Nat) (st st' : SlabState) : Prop where
  caches_eq : st'.caches = st.caches
  malloc_eq : st'.mallocCache = st.mallocCache
  heads : ∀ shelf c, (shelf, c) ≠ (.mixed, root) → st.links.SelfLinked (.head shelf c) →
    st'.links.SelfLinked (.head shelf c)

theorem RootSlab.alloc_first (hb : RootBlock root base) (hroot : st.caches root = rootCache)
    (hempty : OthersEmpty root base 0 st.links) (h : RootSlab root base 0 st) :
    ∃ st', memCacheAllocObj allocFuel st (base :: rest) root = some (some (rootObject base 0), st', rest) ∧
      RootKept root st st' ∧ RootSlab root base 1 st' := by
  have hring := h.ring
  rw [rootShelves_zero, List.map_nil] at hring
  have hmixed : listEmpty st.links (.head .mixed root) = true := (listEmpty_iff hring).mpr rfl
  have hfree : listEmpty st.links (.head .free root) = true :=
    (listEmpty_iff (Links.isRing_nil.mpr (hempty .free root List.mem_cons_self (by simp)))).mpr rfl
  have hnew : newSlab (memCacheAllocObj 1) st (base :: rest) root =
      some (base, withSlab st ⟨root, base, base⟩, rest) :=
    newSlab_inner (by rw [hroot]; rfl) (by rw [hroot]; decide)
  have hcaches : (withSlab st ⟨root, base, base⟩).caches root = rootCache := hroot
  obtain ⟨htake, hfilled⟩ := (rootFilled_new hroot).take hb hcaches (by decide)
  refine ⟨_, memCacheAllocObj_new hmixed hfree hnew htake, ⟨rfl, rfl, ?_⟩, ?_, ?_, fun _ => { hfilled with }⟩
  · intro shelf c hne hself
    have hframe := @listAdd_frame _ _ st.links (.head .mixed root) (.slab base) (.head shelf c) [] hring
      (by simpa using hne) (by simp)
    exact ⟨hframe.1.trans hself.1, hframe.2.trans hself.2⟩
  · rw [if_pos Nat.one_pos]
    show _ :: st.made = _
    rw [h.made_eq]
    rfl
  · rw [rootShelves_mixed Nat.one_pos]
    exact listAdd_ring hring (by simp)

theorem RootSlab.alloc_next (hb : RootBlock root base) (hroot : st.caches root = rootCache)
    (h : RootSlab root base n st) (hpos : 0 < n) (hn : n < 26) :
    ∃ st', memCacheAllocObj allocFuel st rest root = some (some (rootObject base n), st', rest) ∧
      RootKept root st st' ∧ RootSlab root base (n + 1) st' := by
  have hring := h.ring
  rw [rootShelves_mixed hpos, List.map_singleton] at hring
  have hsome : listEmpty st.links (.head .mixed root) = false := by
    rw [Bool.eq_false_iff, Ne, listEmpty_iff hring]
    exact List.cons_ne_nil _ _
  obtain ⟨htake, hfilled⟩ := (h.filled hpos).take hb hroot hn
  refine ⟨_, memCacheAllocObj_mixed hsome hring.next_head htake, ⟨rfl, rfl, fun _ _ _ hself => hself⟩,
    ?_, ?_, fun _ => hfilled⟩
  · have hmade := h.made_eq
    rw [if_pos hpos] at hmade
    rw [if_pos (Nat.succ_pos n)]
    exact hmade
  · rw [rootShelves_mixed (Nat.succ_pos n)]
    exact hring

/-- The blocks that the `n`-th creation is given. -/
def rootSupply (base : Nat) (rest : List Nat) (n : Nat) : List Nat := if 0 < n then rest else base :: rest

theorem RootSlab.alloc (hb : RootBlock root base) (hroot : st.caches root = rootCache)
    (hempty : OthersEmpty root base n st.links) (h : RootSlab root base n st) (hn : n < 26) :
    ∃ st', memCacheAllocObj allocFuel st (rootSupply base rest n) root =
        some (some (rootObject base n), st', rest) ∧
      RootKept root st st' ∧ RootSlab root base (n + 1) st' := by
  rcases Nat.eq_zero_or_pos n with rfl | hpos
  · exact h.alloc_first hb hroot hempty
  · rw [rootSupply, if_pos hpos]
    exact h.alloc_next hb hroot hpos hn

theorem RootBlock.object_ne (hb : RootBlock root base) (hn : n < 27) : rootObject base n ≠ root := by
  have hapart := hb.apart
  rw [rootObject, objMemCacheSize]
  rw [pageSize] at hapart
  omega

theorem rootObject_inj {i : Nat} (h : rootObject base i = rootObject base n) : i = n := by
  simp only [rootObject, objMemCacheSize] at h
  omega

theorem mem_createdCaches {c : Nat} :
    c ∈ createdCaches root base n ↔ c = root ∨ ∃ i < n, rootObject base i = c := by
  simp [createdCaches]

/-- One iteration of `obj_mem_cache_init`. -/
theorem Created.create (hb : RootBlock root base) (h : Created root base n st) {e : Nat × Nat}
    (he : mallocSizes[n]? = some e) :
    ∃ st', createObjMemCache root st (rootSupply base rest n) e.1 e.2 = some (rootObject base n, st', rest) ∧
      Created root base (n + 1)
        { st' with mallocCache := Function.update st'.mallocCache n (rootObject base n) } := by
  have hlt : n < 11 := (List.getElem?_eq_some_iff.mp he).1
  obtain ⟨st₁, halloc, hkept, hslabs⟩ :=
    @RootSlab.alloc root base n st rest hb h.root_eq h.empty h.slabs (by omega)
  have hne := hb.object_ne (show n < 27 by omega)
  refine ⟨initializeCacheAt st₁ (rootObject base n) e.1 e.2, by rw [createObjMemCache, halloc], ?_, ?_, ?_, ?_⟩
  · show Function.update st₁.caches _ _ root = _
    rw [Function.update_of_ne hne.symm, hkept.caches_eq, h.root_eq]
  · intro i hi e' he'
    show Function.update st₁.mallocCache n _ i = _ ∧ ∃ old, Function.update st₁.caches _ _ (rootObject base i) = _
    by_cases hin : i = n
    · subst hin
      obtain rfl : e = e' := Option.some.inj (he.symm.trans he')
      rw [Function.update_self, Function.update_self]
      exact ⟨rfl, _, rfl⟩
    · rw [Function.update_of_ne hin, Function.update_of_ne fun h => hin (rootObject_inj h), hkept.caches_eq,
        hkept.malloc_eq]
      exact h.classes i (by omega) e' he'
  · intro shelf c hc hother
    by_cases hnew : c = rootObject base n
    · rw [hnew]
      exact initializeCacheAt_heads st₁ _ e.1 e.2 shelf
    · have hold : c ∈ createdCaches root base n := by
        rw [mem_createdCaches] at hc ⊢
        rcases hc with hc | ⟨i, hi, hc⟩
        · exact .inl hc
        · have hin : i ≠ n := fun e => hnew (by rw [← hc, e])
          exact .inr ⟨i, by omega, hc⟩
      have hself := hkept.heads shelf c hother (h.empty shelf c hold hother)
      have hframe := @initializeCacheAt_frame st₁ e.1 e.2 (rootObject base n) (.head shelf c)
        (fun _ heq => hnew (SlabNode.head.inj heq).2)
      exact ⟨hframe.1.trans hself.1, hframe.2.trans hself.2⟩
  · constructor
    · exact hslabs.made_eq
    · have hframe : ∀ m ∈ SlabNode.head .mixed root ::
          (rootShelves root base (n + 1) (.mixed, root)).map SlabNode.slab,
          ∀ shelf, m ≠ .head shelf (rootObject base n) := by
        intro m hm shelf
        rcases List.mem_cons.mp hm with rfl | hm
        · exact fun heq => hne (SlabNode.head.inj heq).2.symm
        · obtain ⟨a, -, rfl⟩ := List.mem_map.mp hm
          simp
      exact hslabs.ring.congr (fun m hm => (initializeCacheAt_frame st₁ e.1 e.2 (hframe m hm)).1)
        (fun m hm => (initializeCacheAt_frame st₁ e.1 e.2 (hframe m hm)).2)
    · exact fun hpos => { hslabs.filled hpos with }

theorem createMallocCaches_spec (hb : RootBlock root base) {es : List (Nat × Nat)}
    (hes : mallocSizes.drop n = es) (hn : n ≤ 11) (h : Created root base n st) :
    ∃ st', createMallocCaches root n es st (rootSupply base rest n) = some (st', rest) ∧
      Created root base 11 st' := by
  induction es generalizing n st with
  | nil =>
      have hle : 11 ≤ n := List.drop_eq_nil_iff.mp hes
      obtain rfl : n = 11 := by omega
      exact ⟨st, rfl, h⟩
  | cons e es ih =>
      have he : mallocSizes[n]? = some e := by
        rw [← List.head?_drop, hes]
        rfl
      have hlt : n < 11 := (List.getElem?_eq_some_iff.mp he).1
      obtain ⟨st₁, hcall, hcreated⟩ := @Created.create root base n st rest hb h e he
      have hrest : mallocSizes.drop (n + 1) = es := by
        rw [← List.tail_drop, hes]
        rfl
      obtain ⟨st', hloop, hdone⟩ := ih hrest hlt hcreated
      refine ⟨st', ?_, hdone⟩
      rw [createMallocCaches, hcall, Option.bind_some]
      exact hloop

/-- The function `obj_mem_cache_init` takes one block, whatever the memory held before. -/
theorem objMemCacheInit_created (hpre : st.made = []) (hb : RootBlock root base) :
    ∃ st', objMemCacheInit root st (base :: rest) = some (st', rest) ∧ Created root base 11 st' := by
  have hheads := initializeCacheAt_heads st root objMemCacheSize 0
  refine createMallocCaches_spec hb rfl (Nat.zero_le _) ⟨?_, fun i hi => absurd hi (Nat.not_lt_zero i), ?_, ?_⟩
  · show Function.update st.caches root _ root = _
    rw [Function.update_self, rootCache_eq]
  · intro shelf c hc _
    obtain rfl : c = root := by simpa [createdCaches] using hc
    exact hheads shelf
  · refine ⟨hpre, ?_, fun h => absurd h (Nat.lt_irrefl 0)⟩
    rw [rootShelves_zero]
    exact Links.isRing_nil.mpr (hheads .mixed)

end init

/-! ### The caches that are left -/

section created
variable {root base : Nat} {st : SlabState}

instance (live : List Nat) : (n : SlabNode) → Decidable (Reached live n)
  | .head _ c => inferInstanceAs (Decidable (c ∈ live))
  | .slab _ => inferInstanceAs (Decidable True)
  | .invalid => inferInstanceAs (Decidable True)

/-- The state in which memory that is no cache looks like empty caches. -/
def tidied (live : List Nat) (st : SlabState) : SlabState :=
  { st with
    caches := fun c => if c ∈ live then st.caches c else rootCache
    links :=
      { next := fun n => if Reached live n then st.links.next n else n
        prev := fun n => if Reached live n then st.links.prev n else n } }

theorem tidied_agree (live : List Nat) (st : SlabState) : Agree live st (tidied live st) :=
  ⟨fun _ hc => (if_pos hc).symm, fun _ hn => ⟨(if_pos hn).symm, (if_pos hn).symm⟩, rfl, rfl, rfl, rfl, rfl⟩

theorem tidied_cache {live : List Nat} {c : Nat} (hc : c ∈ live) :
    (tidied live st).caches c = st.caches c := if_pos hc

theorem root_mem_created (root base n : Nat) : root ∈ createdCaches root base n := List.mem_cons_self

theorem rootObject_mem_created {i n : Nat} (hi : i < n) : rootObject base i ∈ createdCaches root base n :=
  mem_createdCaches.mpr (.inr ⟨i, hi, rfl⟩)

theorem Created.built (h : Created root base 11 st) (c : Nat) :
    ∃ old size order, 0 < size ∧ order ≤ 10 ∧
      (tidied (createdCaches root base 11) st).caches c = initializeCache old size order := by
  have hsizes : ∀ e ∈ mallocSizes, 0 < e.1 ∧ e.2 ≤ 10 := by decide
  have hroot : ∃ old size order, 0 < size ∧ order ≤ 10 ∧ rootCache = initializeCache old size order :=
    ⟨rootCache, objMemCacheSize, 0, by decide, by decide, (rootCache_eq rootCache).symm⟩
  by_cases hc : c ∈ createdCaches root base 11
  · rw [tidied_cache hc]
    rcases mem_createdCaches.mp hc with rfl | ⟨i, hi, rfl⟩
    · rw [h.root_eq]
      exact hroot
    · obtain ⟨-, old, hcache⟩ := h.classes i hi _ (List.getElem?_eq_getElem hi)
      obtain ⟨hsize, horder⟩ := hsizes _ (List.getElem_mem (l := mallocSizes) hi)
      exact ⟨old, _, _, hsize, horder, hcache⟩
  · rw [show (tidied (createdCaches root base 11) st).caches c = rootCache from if_neg hc]
    exact hroot

/-- The caches after `obj_mem_cache_init`. -/
def Created.table (h : Created root base 11 st) : CacheTable where
  caches := (tidied (createdCaches root base 11) st).caches
  mallocCache := st.mallocCache
  built := h.built
  malloc := by
    intro i e he
    have hi : i < 11 := (List.getElem?_eq_some_iff.mp he).1
    obtain ⟨hmalloc, old, hcache⟩ := h.classes i hi e he
    exact ⟨old, by rw [hmalloc, tidied_cache (rootObject_mem_created hi), hcache]⟩

theorem Created.table_root (h : Created root base 11 st) : h.table.caches root = rootCache :=
  (tidied_cache (root_mem_created root base 11)).trans h.root_eq

/-- The caches themselves are objects in use. -/
def rootObjects (root base : Nat) : List (Nat × Nat) := (List.range 11).map fun i => (root, rootObject base i)

theorem mem_rootObjects {i : Nat} : (root, rootObject base i) ∈ rootObjects root base ↔ i < 11 := by
  rw [rootObjects, List.mem_map]
  constructor
  · rintro ⟨j, hj, heq⟩
    rw [← rootObject_inj (Prod.mk.inj heq).2]
    exact List.mem_range.mp hj
  · intro hi
    exact ⟨i, List.mem_range.mpr hi, rfl⟩

theorem rootObjects_nodup (root base : Nat) : (rootObjects root base).Nodup :=
  List.nodup_range.map fun _ _ h => rootObject_inj (Prod.mk.inj h).2

theorem Created.object_eq (h : Created root base 11 st) (i : Nat) :
    SlabInfo.object h.table ⟨root, base, base⟩ i = rootObject base i := by
  rw [SlabInfo.object, SlabInfo.mem, h.table_root]
  rfl

/-- The first 11 of the 27 indices are in use. -/
theorem Created.pool (h : Created root base 11 st) :
    Pool 27 freeListEnd (st.slabs base).freeList 11
      (fun i => (root, SlabInfo.object h.table ⟨root, base, base⟩ i) ∈ rootObjects root base)
      (List.range' 11 16) := by
  have hlist := (h.slabs.filled (by decide)).list_eq
  refine ⟨chain_range' 11 15 (by decide) (fun j _ hj => ?_) ?_, List.nodup_range', fun i => ?_⟩
  · rw [hlist j (by omega), if_neg (by omega)]
  · rw [hlist 26 (by decide), if_pos rfl]
  · rw [h.object_eq, mem_rootObjects, List.mem_range'_1]
    omega

/-- The lists: one slab for `root_cache`, nothing else. -/
theorem Created.shelved (h : Created root base 11 st) :
    Shelved (tidied (createdCaches root base 11) st).links (rootShelves root base 11) := by
  have hring := h.slabs.ring
  refine ⟨fun k => ?_, fun k k' n hn hn' => ?_⟩
  · by_cases hk : k = (.mixed, root)
    · subst hk
      have hreached : ∀ n ∈ SlabNode.head .mixed root ::
          (rootShelves root base 11 (.mixed, root)).map SlabNode.slab, Reached (createdCaches root base 11) n := by
        intro n hn
        rcases List.mem_cons.mp hn with rfl | hn
        · exact root_mem_created root base 11
        · obtain ⟨a, -, rfl⟩ := List.mem_map.mp hn
          trivial
      exact hring.congr (fun n hn => if_pos (hreached n hn)) (fun n hn => if_pos (hreached n hn))
    · rw [rootShelves_other hk, List.map_nil]
      refine Links.isRing_nil.mpr ?_
      by_cases hlive : k.2 ∈ createdCaches root base 11
      · obtain ⟨hnext, hprev⟩ := h.empty k.1 k.2 hlive hk
        exact ⟨(if_pos hlive).trans hnext, (if_pos hlive).trans hprev⟩
      · exact ⟨if_neg hlive, if_neg hlive⟩
  · have hcases : ∀ k, n ∈ SlabNode.head k.1 k.2 :: (rootShelves root base 11 k).map SlabNode.slab →
        n = .head k.1 k.2 ∨ n = .slab base ∧ k = (.mixed, root) := by
      intro k hn
      by_cases hk : k = (.mixed, root)
      · subst hk
        simpa [rootShelves_mixed] using hn
      · left
        simpa [rootShelves_other hk] using hn
    rcases hcases k hn with rfl | ⟨rfl, hk⟩
    · rcases hcases k' hn' with heq | ⟨heq, -⟩
      · exact Prod.ext (SlabNode.head.inj heq).1 (SlabNode.head.inj heq).2
      · contradiction
    · rcases hcases k' hn' with heq | ⟨-, hk'⟩
      · contradiction
      · exact hk.trans hk'.symm

theorem Created.inv (hb : RootBlock root base) (h : Created root base 11 st) :
    Inv h.table False (tidied (createdCaches root base 11) st) (rootObjects root base)
      (rootShelves root base 11) := by
  have hroot := h.table_root
  have hmade : (tidied (createdCaches root base 11) st).made = [⟨root, base, base⟩] := h.slabs.made_eq
  have honly : ∀ info ∈ (tidied (createdCaches root base 11) st).made, info = ⟨root, base, base⟩ := by
    intro info hi
    rw [hmade] at hi
    exact List.mem_singleton.mp hi
  have hobjs : SlabInfo.objs h.table ⟨root, base, base⟩ = 27 := by
    rw [SlabInfo.objs, hroot]
    rfl
  have hfilled := h.slabs.filled (by decide)
  obtain ⟨huse, hfirst⟩ : ((tidied (createdCaches root base 11) st).slabs base).inUse = 11 ∧
      ((tidied (createdCaches root base 11) st).slabs base).nextFree = 11 := hfilled.used
  have hmem : ((tidied (createdCaches root base 11) st).slabs base).mem = base + 140 := hfilled.mem_eq
  constructor
  case caches_eq => rfl
  case malloc_eq => rfl
  case capacity =>
    intro info hi
    rw [honly info hi, hobjs]
    decide
  case apart =>
    rw [hmade]
    exact List.pairwise_singleton _ _
  case mapped =>
    intro info hi
    rw [honly info hi]
    refine ⟨hb.aligned, hb.low, ?_⟩
    rw [SlabInfo.stop, hroot]
    exact hb.high
  case tagged =>
    intro info hi p hp
    obtain rfl := honly info hi
    obtain rfl : p = 0 := by
      rw [hroot] at hp
      exact Nat.lt_one_iff.mp hp
    exact hfilled.tagged
  case mem_eq =>
    intro info hi
    obtain rfl := honly info hi
    rw [hmem, SlabInfo.mem, hroot]
    rfl
  case inner =>
    intro info hi _
    rw [honly info hi]
  case outer =>
    intro info hi hout
    rw [honly info hi, hroot] at hout
    contradiction
  case addrs =>
    rw [hmade]
    exact List.nodup_singleton _
  case pool =>
    intro info hi
    obtain rfl := honly info hi
    refine ⟨List.range' 11 16, ?_, ?_⟩
    · rw [hobjs, hfirst]
      exact h.pool
    · rw [huse, hobjs]
      rfl
  case nodup => exact rootObjects_nodup root base
  case origin =>
    intro e he
    obtain ⟨i, hi, rfl⟩ := List.mem_map.mp he
    refine ⟨⟨root, base, base⟩, by rw [hmade]; exact List.mem_cons_self, rfl, i, ?_, (h.object_eq i).symm⟩
    rw [hobjs]
    exact Nat.lt_trans (List.mem_range.mp hi) (by decide)
  case shelved => exact h.shelved
  case onShelf =>
    intro info hi
    obtain rfl := honly info hi
    refine ⟨.mixed, ?_⟩
    rw [rootShelves_mixed (by decide)]
    exact List.mem_cons_self
  case members =>
    intro k a ha
    by_cases hk : k = (.mixed, root)
    · subst hk
      rw [rootShelves_mixed (by decide)] at ha
      obtain rfl := List.mem_singleton.mp ha
      refine ⟨⟨root, a, a⟩, by rw [hmade]; exact List.mem_cons_self, rfl, rfl, ?_⟩
      rw [huse, hobjs]
      exact ⟨by decide, by decide⟩
    · rw [rootShelves_other hk] at ha
      exact absurd ha List.not_mem_nil

end created

end Lucix.ObjCache
