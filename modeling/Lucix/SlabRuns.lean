import Lucix.SlabCalls

/-! Histories of the object caches: any sequence of allocations and releases over
any caches. The objects in use never overlap; the three lists of a cache say how
full its slabs are only while no object of a full slab is released. -/
namespace Lucix.ObjCache
open Ring Execution IndexChain

/-- An allocation carries the blocks that `alloc_pages` would return during the call. -/
inductive Call where
  | alloc (c : Nat) (supply : List Nat)
  | free (c obj : Nat)
  deriving DecidableEq, Repr

/-- The caches together with the objects their callers hold. -/
structure Sys where
  state : SlabState
  live : List (Nat × Nat)

/-- A descriptor outside its block is an object of a cache that needs no such descriptors. -/
def allocFuel : Nat := 2

def Sys.step (s : Sys) : Call → Option Sys
  | .alloc c supply => (memCacheAllocObj allocFuel s.state supply c).map fun (obj, st, _) =>
      ⟨st, (obj.map fun obj => (c, obj)).toList ++ s.live⟩
  | .free c obj => (memCacheFreeObj s.state c obj).map fun st => ⟨st, s.live.erase (c, obj)⟩

section system
variable (t : CacheTable)

/-- All objects in use: those of the callers and the descriptors. -/
def Sys.objects (s : Sys) : List (Nat × Nat) := s.live ++ held t s.state.made

/-- The blocks are fresh, and a release names an object that the caller holds. -/
def Legal (s : Sys) : Call → Prop
  | .alloc c supply => FreshSupply t s.state.made c supply
  | .free c obj => (c, obj) ∈ s.live

def Roomy : Call → Prop
  | .alloc c _ => 2 ≤ (t.caches c).objsPerSlab
  | .free _ _ => True

/-- No object of a full slab is released. -/
def Tidy (s : Sys) : Call → Prop
  | .alloc _ _ => True
  | .free c obj => ¬ SlabFull s.state c obj

/-- The caches are set up and have no slabs. The memory of later slabs may hold anything,
and a cache that is created later is part of the table before anybody uses it. -/
structure Booted (st : SlabState) : Prop where
  caches_eq : st.caches = t.caches
  malloc_eq : st.mallocCache = t.mallocCache
  made_eq : st.made = []
  heads : ∀ shelf c, st.links.SelfLinked (.head shelf c)

end system

section runs
variable {t : CacheTable} {exact : Prop} {s : Sys}

theorem shelved_empty {L : Links SlabNode} (hheads : ∀ shelf c, L.SelfLinked (.head shelf c)) :
    Shelved L fun _ => [] := by
  refine ⟨fun k => Links.isRing_nil.mpr (hheads k.1 k.2), fun i j n hi hj => ?_⟩
  simp only [List.map_nil, List.mem_singleton] at hi hj
  exact Prod.ext (SlabNode.head.inj (hi.symm.trans hj)).1 (SlabNode.head.inj (hi.symm.trans hj)).2

theorem Booted.inv {st : SlabState} (h : Booted t st) : Inv t exact st [] fun _ => [] := by
  have hnone : ∀ info ∈ st.made, False := by simp [h.made_eq]
  constructor
  case caches_eq => exact h.caches_eq
  case malloc_eq => exact h.malloc_eq
  case shelved => exact shelved_empty h.heads
  case apart => rw [h.made_eq]; exact .nil
  case addrs => simp [h.made_eq]
  case nodup => exact .nil
  case origin => simp
  case members => simp
  all_goals exact fun info hi => (hnone info hi).elim

/-- The invariant of a system, with some arrangement of the slabs on the lists. -/
def Kept (t : CacheTable) (exact : Prop) (s : Sys) : Prop :=
  ∃ sh, Inv t exact s.state (s.objects t) sh

theorem Kept.step (h : Kept t exact s) {call : Call} (hlegal : Legal t s call)
    (hroomy : Roomy t call) (htidy : exact → Tidy s call) :
    ∃ s', s.step call = some s' ∧ Kept t exact s' := by
  obtain ⟨sh, h⟩ := h
  cases call with
  | alloc c supply =>
      obtain ⟨obj, st', supply', sh', descs, hcall, hinv, hheld, -⟩ := h.alloc 0 hroomy hlegal
      refine ⟨⟨st', (c, obj) :: s.live⟩, by simp [Sys.step, allocFuel, hcall], sh', hinv.perm ?_⟩
      simp only [Sys.objects, hheld, List.cons_append]
      refine (List.perm_append_comm_assoc descs s.live _).cons _
  | free c obj =>
      have hnodup := List.disjoint_of_nodup_append h.nodup
      obtain ⟨st', sh', hcall, hmade, hinv⟩ := h.free (List.mem_append_left _ hlegal)
        (fun hm => hnodup hlegal hm) htidy
      refine ⟨⟨st', s.live.erase (c, obj)⟩, by simp [Sys.step, hcall], sh', ?_⟩
      rw [Sys.objects, List.erase_append_left _ hlegal] at hinv
      simpa only [Sys.objects, hmade] using hinv

/-! ### Objects do not overlap -/

/-- The bytes of two objects are apart. -/
def BytesApart (t : CacheTable) (e e' : Nat × Nat) : Prop :=
  e.2 + (t.caches e.1).objectSize ≤ e'.2 ∨ e'.2 + (t.caches e'.1).objectSize ≤ e.2

/-- Every object in use has its bytes for itself, and every slab accounts for them. -/
structure Exclusive (t : CacheTable) (s : Sys) : Prop where
  disjoint : (s.objects t).Pairwise (BytesApart t)
  inside : ∀ e ∈ s.objects t, ∃ info ∈ s.state.made, info.cache = e.1 ∧ info.base ≤ e.2 ∧
    e.2 + (t.caches e.1).objectSize ≤ info.base + (t.caches e.1).slabBytes
  clear : ∀ e ∈ s.objects t, ∀ info ∈ s.state.made, (t.caches info.cache).inBlock = true →
    e.2 + (t.caches e.1).objectSize ≤ info.addr ∨
      info.addr + (slabSize + 4 * (t.caches info.cache).objsPerSlab) ≤ e.2
  counted : ∀ info ∈ s.state.made, (s.state.slabs info.addr).inUse =
    (List.range (info.objs t)).countP fun i => decide ((info.cache, info.object t i) ∈ s.objects t)
  chained : ∀ info ∈ s.state.made, ∃ xs : List Nat, xs.Nodup ∧
    Chain (s.state.slabs info.addr).freeList freeListEnd (s.state.slabs info.addr).nextFree xs ∧
      ∀ i, i ∈ xs ↔ i < info.objs t ∧ (info.cache, info.object t i) ∉ s.objects t

theorem Inv.bytesApart {st : SlabState} {all : List (Nat × Nat)} {sh : Shelves}
    (h : Inv t exact st all sh) {e e' : Nat × Nat} (he : e ∈ all) (he' : e' ∈ all) (hne : e ≠ e') :
    BytesApart t e e' := by
  obtain ⟨info, hi, hc, i, hlt, ho⟩ := h.origin e he
  obtain ⟨info', hi', hc', i', hlt', ho'⟩ := h.origin e' he'
  have hr := info.object_range t hlt
  have hr' := info'.object_range t hlt'
  rw [BytesApart, ← hc, ← hc', ho, ho']
  by_cases hinfo : info = info'
  · subst hinfo
    have hidx : i ≠ i' := fun e => hne (Prod.ext (hc.symm.trans hc') (by rw [ho, ho', e]))
    simp only [SlabInfo.object]
    rcases Nat.lt_or_gt_of_ne hidx with hlt | hlt
    · have := Nat.mul_le_mul_right (t.caches info.cache).objectSize (Nat.succ_le_of_lt hlt)
      rw [Nat.succ_mul] at this
      omega
    · have := Nat.mul_le_mul_right (t.caches info.cache).objectSize (Nat.succ_le_of_lt hlt)
      rw [Nat.succ_mul] at this
      omega
  · have hsymm : Std.Symm (SlabInfo.Apart t) := ⟨fun _ _ => Or.symm⟩
    have := h.apart.forall hi hi' hinfo
    simp only [SlabInfo.Apart] at this
    omega

theorem Inv.clear_of_desc {st : SlabState} {all : List (Nat × Nat)} {sh : Shelves}
    (h : Inv t exact st all sh) {e : Nat × Nat} (he : e ∈ all) {info' : SlabInfo}
    (hi' : info' ∈ st.made) (hin : (t.caches info'.cache).inBlock = true) :
    e.2 + (t.caches e.1).objectSize ≤ info'.addr ∨
      info'.addr + (slabSize + 4 * (t.caches info'.cache).objsPerSlab) ≤ e.2 := by
  obtain ⟨info, hi, hc, i, hlt, ho⟩ := h.origin e he
  have hr := info.object_range t hlt
  have hfits := (t.sized info'.cache).fits
  have hoff : (t.caches info'.cache).memOffset = slabSize + 4 * (t.caches info'.cache).objsPerSlab := by
    simp only [ObjMemCache.memOffset, hin, if_true]
  rw [h.inner info' hi' hin, ← hc, ho, ← hoff]
  by_cases hinfo : info = info'
  · subst hinfo
    exact .inr hr.1
  · have hsymm : Std.Symm (SlabInfo.Apart t) := ⟨fun _ _ => Or.symm⟩
    have := h.apart.forall hi hi' hinfo
    simp only [SlabInfo.Apart, SlabInfo.stop] at this hr
    omega

theorem Kept.exclusive (h : Kept t exact s) : Exclusive t s := by
  obtain ⟨sh, h⟩ := h
  refine ⟨?_, fun e he => ?_, fun e he info hi hin => h.clear_of_desc he hi hin, fun info hi => ?_,
    fun info hi => ?_⟩
  · exact h.nodup.imp_of_mem fun he he' hne => h.bytesApart he he' hne
  · obtain ⟨info, hi, hc, i, hlt, ho⟩ := h.origin e he
    have hr := info.object_range t hlt
    simp only [SlabInfo.stop] at hr
    exact ⟨info, hi, hc, by omega, by rw [← hc]; omega⟩
  · obtain ⟨xs, hpool, hlen⟩ := h.pool info hi
    have hcount := hpool.count
    omega
  · obtain ⟨xs, hpool, -⟩ := h.pool info hi
    exact ⟨xs, hpool.nodup, hpool.chain, hpool.mem_iff⟩

/-- Along every history the objects in use keep their bytes to themselves, and an allocation
returns an address that no object in use has. -/
theorem run_objects_exclusive {st : SlabState} (hboot : Booted t st) (calls : List Call)
    (hcalls : Guarded Sys.step (fun s call => Legal t s call ∧ Roomy t call) ⟨st, []⟩ calls) :
    ∃ s, run Sys.step ⟨st, []⟩ calls = some s ∧ Exclusive t s ∧
      ∀ c supply, Legal t s (.alloc c supply) → Roomy t (.alloc c supply) →
        ∃ obj st' supply', memCacheAllocObj allocFuel s.state supply c = some (some obj, st', supply') ∧
          obj ≠ 0 ∧ ∀ e ∈ s.objects t, e.2 ≠ obj := by
  have hinit : Kept t False ⟨st, []⟩ := by
    refine ⟨fun _ => [], ?_⟩
    simpa [Sys.objects, held, hboot.made_eq] using hboot.inv
  obtain ⟨s, hs, hkept⟩ := run_invariant (Kept t False)
    (fun s call h hg => h.step hg.1 hg.2 False.elim) hinit hcalls
  refine ⟨s, hs, hkept.exclusive, fun c supply hlegal hroomy => ?_⟩
  obtain ⟨sh, h⟩ := hkept
  obtain ⟨obj, st', supply', sh', descs, hcall, hinv, -, -⟩ := h.alloc 0 hroomy hlegal
  refine ⟨obj, st', supply', hcall, ?_, fun e he heq => ?_⟩
  · have hpos : 0 < obj := hinv.object_pos (e := (c, obj)) (by simp)
    omega
  · have hmem : e ∈ (c, obj) :: (descs ++ s.objects t) := by simp [he]
    have hne : (c, obj) ≠ e := by
      rintro rfl
      exact (List.nodup_cons.mp hinv.nodup).1 (List.mem_append_right _ he)
    have hpos := (t.sized c).size_pos
    have hpos' := (t.sized e.1).size_pos
    have hap := hinv.bytesApart (e := (c, obj)) (by simp) hmem hne
    simp only [BytesApart] at hap
    omega

/-! ### The lists say how full a slab is -/

/-- Every slab is on exactly one list of its cache, the one for its number of objects. -/
def Classified (t : CacheTable) (st : SlabState) : Prop :=
  ∀ info ∈ st.made, (∃! shelf, info.addr ∈ st.shelf shelf info.cache) ∧
    (info.addr ∈ st.shelf .full info.cache ↔ (st.slabs info.addr).inUse = info.objs t) ∧
    (info.addr ∈ st.shelf .free info.cache ↔ (st.slabs info.addr).inUse = 0) ∧
    (info.addr ∈ st.shelf .mixed info.cache ↔
      (st.slabs info.addr).inUse ≠ info.objs t ∧ (st.slabs info.addr).inUse ≠ 0)

/-- The call makes a slab only where every slab of that cache is full. -/
def Thrifty (t : CacheTable) (st st' : SlabState) : Prop :=
  ∀ info ∈ st'.made, info ∉ st.made → ∀ info' ∈ st.made, info'.cache = info.cache →
    (st.slabs info'.addr).inUse = info'.objs t

theorem Inv.shelf_eq {st : SlabState} {all : List (Nat × Nat)} {sh : Shelves}
    (h : Inv t exact st all sh) (shelf : Shelf) (c : Nat) : st.shelf shelf c = sh (shelf, c) := by
  have hring := h.shelved.ring (shelf, c)
  have hnodup : (sh (shelf, c)).Nodup := (List.nodup_cons.mp hring.nodup).2.of_map _
  have hsub : sh (shelf, c) ⊆ st.made.map SlabInfo.addr := by
    intro a ha
    obtain ⟨info, hi, -, haddr, -⟩ := h.members _ a ha
    exact List.mem_map.mpr ⟨info, hi, haddr⟩
  have hlen := (hnodup.subperm hsub).length_le
  rw [List.length_map] at hlen
  rw [SlabState.shelf, hring.walk (by rw [List.length_map]; omega), Option.getD_some, List.filterMap_map]
  exact List.filterMap_some

theorem Inv.classified {st : SlabState} {all : List (Nat × Nat)} {sh : Shelves}
    (h : Inv t True st all sh) : Classified t st := by
  intro info hi
  have hcap := h.capacity info hi
  obtain ⟨shelf, hk⟩ := h.onShelf info hi
  have hplace : ∀ shelf', info.addr ∈ sh (shelf', info.cache) ↔ shelf' = shelf := fun shelf' =>
    (h.place hk _).trans ⟨fun e => (Prod.mk.inj e).1, fun e => by rw [e]⟩
  obtain ⟨info', hi', -, haddr, hlevel⟩ := h.members _ _ hk
  obtain rfl := h.eq_of_addr hi' hi haddr
  simp only [h.shelf_eq, hplace]
  refine ⟨⟨shelf, rfl, fun _ e => e⟩, ?_⟩
  cases shelf with
  | free =>
      have hzero : (st.slabs info'.addr).inUse = 0 := hlevel
      simp only [reduceCtorEq, false_iff, true_iff]
      omega
  | mixed =>
      obtain ⟨hpos, hless⟩ := hlevel
      simp only [reduceCtorEq, false_iff, true_iff]
      omega
  | full =>
      have hall := hlevel.2 trivial
      simp only [reduceCtorEq, false_iff, true_iff]
      omega

theorem Inv.thrifty {st st' : SlabState} {all : List (Nat × Nat)} {sh : Shelves}
    (h : Inv t True st all sh) (hgrown : Grown sh st.made st'.made) : Thrifty t st st' := by
  intro info hi hnew info' hi' hc
  obtain ⟨hmixed, hfree⟩ := (hgrown info hi).resolve_left hnew
  obtain ⟨shelf, hk⟩ := h.onShelf info' hi'
  obtain ⟨info'', hi'', -, haddr, hlevel⟩ := h.members _ _ hk
  obtain rfl := h.eq_of_addr hi'' hi' haddr
  rw [hc] at hk
  cases shelf with
  | free => simp [hfree] at hk
  | mixed => simp [hmixed] at hk
  | full => exact hlevel.2 trivial

/-- Along every history that releases no object of a full slab and uses no cache with one
object per slab, the lists are exact and slabs are made only when none has a free object. -/
theorem tidy_run_classified {st : SlabState} (hboot : Booted t st) (calls : List Call)
    (hcalls : Guarded Sys.step (fun s call => Legal t s call ∧ Roomy t call ∧ Tidy s call)
      ⟨st, []⟩ calls) :
    ∃ s, run Sys.step ⟨st, []⟩ calls = some s ∧ Classified t s.state ∧
      ∀ c supply, Legal t s (.alloc c supply) → Roomy t (.alloc c supply) →
        ∃ obj st' supply', memCacheAllocObj allocFuel s.state supply c = some (some obj, st', supply') ∧
          Thrifty t s.state st' := by
  have hinit : Kept t True ⟨st, []⟩ := by
    refine ⟨fun _ => [], ?_⟩
    simpa [Sys.objects, held, hboot.made_eq] using hboot.inv
  obtain ⟨s, hs, hkept⟩ := run_invariant (Kept t True)
    (fun s call h hg => h.step hg.1 hg.2.1 fun _ => hg.2.2) hinit hcalls
  obtain ⟨sh, h⟩ := hkept
  refine ⟨s, hs, h.classified, fun c supply hlegal hroomy => ?_⟩
  obtain ⟨obj, st', supply', -, -, hcall, -, -, hgrown⟩ := h.alloc 0 hroomy hlegal
  exact ⟨obj, st', supply', hcall, h.thrifty hgrown⟩

end runs

/-! ### A concrete history -/

section decidable
variable (t : CacheTable)

instance (info info' : SlabInfo) : Decidable (info.Apart t info') :=
  inferInstanceAs (Decidable (_ ∨ _))

instance (info : SlabInfo) : Decidable (info.Mapped t) :=
  inferInstanceAs (Decidable (_ ∧ _ ∧ _))

instance (made : List SlabInfo) (info : SlabInfo) : Decidable (FreshBlock t made info) :=
  decidable_of_iff (info.Mapped t ∧ ∀ info' ∈ made, info.Apart t info')
    ⟨fun h => ⟨h.1, h.2⟩, fun h => ⟨h.mapped, h.apart⟩⟩

instance (made : List SlabInfo) (c : Nat) : (supply : List Nat) →
    Decidable (FreshSupply t made c supply)
  | [] => isFalse id
  | [_] => isFalse id
  | _ :: _ :: _ => inferInstanceAs (Decidable (_ ∧ _ ∧ _))

instance (s : Sys) : (call : Call) → Decidable (Legal t s call)
  | .alloc c supply => inferInstanceAs (Decidable (FreshSupply t s.state.made c supply))
  | .free c obj => inferInstanceAs (Decidable ((c, obj) ∈ s.live))

instance : (call : Call) → Decidable (Roomy t call)
  | .alloc _ _ => inferInstanceAs (Decidable (_ ≤ _))
  | .free _ _ => inferInstanceAs (Decidable True)

instance (s : Sys) : (call : Call) → Decidable (Tidy s call)
  | .alloc _ _ => inferInstanceAs (Decidable True)
  | .free _ _ => inferInstanceAs (Decidable (¬ _ = _))

end decidable

/-- The `kmalloc` caches by their place in `malloc_sizes`, and the cache of `obj_mem_cache_t`. -/
def kmallocTable : CacheTable where
  caches c := initializeCache ⟨0, 0, 0, 0⟩ (mallocSizes.getD c (144, 0)).1
    (mallocSizes.getD c (144, 0)).2
  mallocCache := id
  built c := by
    have hsizes : ∀ e ∈ (144, 0) :: mallocSizes, 0 < e.1 ∧ e.2 ≤ 10 := by decide
    have hmem : mallocSizes.getD c (144, 0) ∈ (144, 0) :: mallocSizes := by
      rw [List.getD_eq_getElem?_getD]
      cases he : mallocSizes[c]? with
      | none => simp
      | some e => exact List.mem_cons_of_mem _ (List.mem_of_getElem? he)
    exact ⟨_, _, _, (hsizes _ hmem).1, (hsizes _ hmem).2, rfl⟩
  malloc i e he := ⟨⟨0, 0, 0, 0⟩, by rw [id_eq, List.getD_eq_getElem?_getD, he, Option.getD_some]⟩

def emptyCaches (t : CacheTable) : SlabState where
  caches := t.caches
  mallocCache := t.mallocCache
  links :=
    { next := fun | .head shelf c => .head shelf c | _ => .invalid
      prev := fun | .head shelf c => .head shelf c | _ => .invalid }
  slabs _ := ⟨0, 0, 0, fun _ => 0⟩
  pageCache _ := 0
  pageSlab _ := 0
  made := []

theorem emptyCaches_booted (t : CacheTable) : Booted t (emptyCaches t) :=
  ⟨rfl, rfl, rfl, fun _ _ => ⟨rfl, rfl⟩⟩

/-- The block number `i` of a stretch of memory with room for the blocks of every cache. -/
def blockAt (i : Nat) : Nat := identityBase + i * 0x10000

/-- Two objects of 4096 bytes, of which the first is released and a third one taken. -/
def reusing : List Call :=
  [.alloc 7 [blockAt 0, blockAt 1], .alloc 7 [blockAt 2, blockAt 3], .free 7 (blockAt 0),
    .alloc 7 [blockAt 2, blockAt 3], .alloc 0 [blockAt 4, blockAt 5]]

theorem run_objects_exclusive_reusing :
    ∃ s, run Sys.step ⟨emptyCaches kmallocTable, []⟩ reusing = some s ∧ Exclusive kmallocTable s := by
  obtain ⟨s, hs, hex, -⟩ := run_objects_exclusive (emptyCaches_booted kmallocTable)
    reusing (by decide +kernel)
  exact ⟨s, hs, hex⟩

/-- Objects of two caches, with no release from a full slab. -/
def sparse : List Call :=
  [.alloc 7 [blockAt 0, blockAt 1], .alloc 0 [blockAt 2, blockAt 3], .free 7 (blockAt 0),
    .alloc 7 [blockAt 4, blockAt 5], .alloc 7 [blockAt 4, blockAt 5], .alloc 7 [blockAt 4, blockAt 5]]

theorem tidy_run_classified_sparse :
    ∃ s, run Sys.step ⟨emptyCaches kmallocTable, []⟩ sparse = some s ∧
      Classified kmallocTable s.state := by
  obtain ⟨s, hs, hclass, -⟩ := tidy_run_classified (emptyCaches_booted kmallocTable)
    sparse (by decide +kernel)
  exact ⟨s, hs, hclass⟩

/-- Both objects of a slab are taken and one is given back. -/
def reopening : List Call :=
  [.alloc 7 [blockAt 0, blockAt 1], .alloc 7 [blockAt 2, blockAt 3], .free 7 (blockAt 0)]

/-- After that history the slab is on `slabs_full` with one object in use. -/
theorem legal_run_misclassifies :
    ¬ ∀ (t : CacheTable) (st : SlabState), Booted t st →
      ∀ calls, Guarded Sys.step (Legal t) ⟨st, []⟩ calls →
        ∃ s, run Sys.step ⟨st, []⟩ calls = some s ∧ Classified t s.state := by
  intro hall
  have hlegal : Guarded Sys.step (Legal kmallocTable) ⟨emptyCaches kmallocTable, []⟩ reopening := by
    decide +kernel
  obtain ⟨s, hs, hclass⟩ := hall _ _ (emptyCaches_booted kmallocTable) reopening hlegal
  have hbad : (run Sys.step ⟨emptyCaches kmallocTable, []⟩ reopening).all (fun s =>
      s.state.made.any fun info => decide (info.addr ∈ s.state.shelf .full info.cache ∧
        (s.state.slabs info.addr).inUse ≠ info.objs kmallocTable)) = true := by decide +kernel
  rw [hs] at hbad
  obtain ⟨info, hi, hinfo⟩ := List.any_eq_true.mp hbad
  obtain ⟨hfull, huse⟩ := of_decide_eq_true hinfo
  exact huse ((hclass info hi).2.1.mp hfull)

end Lucix.ObjCache
