import Lucix.SlabStep

/-! The two calls of the object caches as wholes. An allocation is served from a
mixed slab, from a free one or from a new one; a new slab of a cache with large
objects first takes a descriptor from a `kmalloc` cache. A release gives the index
of the object back to its slab. -/
namespace Lucix.ObjCache
open Ring Execution IndexChain

/-- The descriptors that lie outside their block, as objects in use. -/
def held (t : CacheTable) (made : List SlabInfo) : List (Nat × Nat) :=
  (made.filter fun info => !(t.caches info.cache).inBlock).map fun info => (t.descCache, info.addr)

/-- Slabs are made only for caches without a mixed or free slab. -/
def Grown (sh : Shelves) (made made' : List SlabInfo) : Prop :=
  ∀ info ∈ made', info ∈ made ∨ sh (.mixed, info.cache) = [] ∧ sh (.free, info.cache) = []

section alloc
variable {t : CacheTable} {exact : Prop} {st : SlabState} {all : List (Nat × Nat)} {sh : Shelves}
  {c : Nat}

theorem Shelved.listEmpty_eq {L : Links SlabNode} (h : Shelved L sh) (k : Shelf × Nat) :
    listEmpty L (.head k.1 k.2) = true ↔ sh k = [] := by
  rw [listEmpty_iff (h.ring k), List.map_eq_nil_iff]

theorem Shelved.next_head {L : Links SlabNode} (h : Shelved L sh) {k : Shelf × Nat} {a : Nat}
    {as : List Nat} (hk : sh k = a :: as) : L.next (.head k.1 k.2) = .slab a := by
  have hr := h.ring k
  rw [hk, List.map_cons] at hr
  exact hr.next_head

theorem memCacheAllocObj_mixed {fuel a : Nat} {o : Option Nat} {st₁ : SlabState} {supply : List Nat}
    (hsome : listEmpty st.links (.head .mixed c) = false) (hnext : st.links.next (.head .mixed c) = .slab a)
    (htake : allocFromSlab st a = some (o, st₁)) :
    memCacheAllocObj (fuel + 1) st supply c = some (o, st₁, supply) := by
  simp only [memCacheAllocObj, hsome, Bool.not_false, if_true, hnext, SlabNode.addr?, Option.bind_eq_bind,
    Option.bind_some, htake]

theorem memCacheAllocObj_new {fuel a : Nat} {o : Option Nat} {st₁ st₂ : SlabState} {supply supply' : List Nat}
    (hmixed : listEmpty st.links (.head .mixed c) = true) (hfree : listEmpty st.links (.head .free c) = true)
    (hnew : newSlab (memCacheAllocObj fuel) st supply c = some (a, st₁, supply'))
    (htake : allocFromSlab st₁ a = some (o, st₂)) :
    memCacheAllocObj (fuel + 1) st supply c =
      some (o, { st₂ with links := listAdd st₂.links (.slab a) (.head .mixed c) }, supply') := by
  simp only [memCacheAllocObj, hmixed, hfree, Bool.not_true, Bool.false_eq_true, if_false, hnew,
    Option.bind_eq_bind, Option.bind_some, htake]

theorem Inv.alloc_listed (h : Inv t exact st all sh) (fuel : Nat) (supply : List Nat)
    (hk : ¬ (sh (.mixed, c) = [] ∧ sh (.free, c) = [])) :
    ∃ obj st' sh', memCacheAllocObj (fuel + 1) st supply c = some (some obj, st', supply) ∧
      st'.made = st.made ∧ Inv t exact st' ((c, obj) :: all) sh' := by
  cases hmixed : sh (.mixed, c) with
  | cons a as =>
      have hempty : listEmpty st.links (.head .mixed c) = false := by
        rw [Bool.eq_false_iff, Ne, h.shelved.listEmpty_eq (.mixed, c), hmixed]
        simp
      obtain ⟨obj, st', sh', hcall, hmade, hinv⟩ := h.alloc_mixed (a := a) (c := c) (by simp [hmixed])
      exact ⟨obj, st', sh', memCacheAllocObj_mixed hempty (h.shelved.next_head hmixed) hcall, hmade, hinv⟩
  | nil =>
      obtain ⟨a, as, hfree⟩ := List.exists_cons_of_ne_nil fun e => hk ⟨hmixed, e⟩
      have hempty : listEmpty st.links (.head .mixed c) = true :=
        (h.shelved.listEmpty_eq (.mixed, c)).mpr hmixed
      have hsome : listEmpty st.links (.head .free c) = false := by
        rw [Bool.eq_false_iff, Ne, h.shelved.listEmpty_eq (.free, c), hfree]
        simp
      obtain ⟨obj, st', links, sh', hcall, hmade, hunlink, hinv⟩ :=
        h.alloc_free (a := a) (c := c) (by simp [hfree])
      refine ⟨obj, { st' with links := listAdd links (.slab a) (.head .mixed c) }, sh', ?_, hmade, hinv⟩
      simp only [memCacheAllocObj, hempty, hsome, Bool.not_false, Bool.not_true, Bool.false_eq_true,
        if_true, if_false, h.shelved.next_head hfree, SlabNode.addr?, Option.bind_eq_bind,
        Option.bind_some, hcall, hunlink]

/-- Otherwise the object is the first one of a new slab. -/
theorem Inv.alloc_new (h : Inv t exact st all sh) (hmixed : sh (.mixed, c) = [])
    (hfree : sh (.free, c) = []) (info : SlabInfo) {fuel : Nat} {st₁ : SlabState}
    {supply supply' : List Nat} {sh₁ : Shelves} {all₁ : List (Nat × Nat)} (h₁ : Inv t exact st₁ all₁ sh₁)
    (hnew : newSlab (memCacheAllocObj fuel) st supply c =
      some (info.addr, withSlab st₁ info, supply'))
    (hcache : info.cache = c) (hfresh : FreshBlock t st₁.made info) (hcap : 2 ≤ info.objs t)
    (haddr : ∀ info' ∈ st₁.made, info'.addr ≠ info.addr)
    (hinner : (t.caches info.cache).inBlock = true → info.addr = info.base)
    (houter : (t.caches info.cache).inBlock = false → (t.descCache, info.addr) ∈ all₁) :
    ∃ obj st' sh', memCacheAllocObj (fuel + 1) st supply c = some (some obj, st', supply') ∧
      st'.made = info :: st₁.made ∧ Inv t exact st' ((c, obj) :: all₁) sh' := by
  obtain ⟨obj, st', hcall, hmade, hinv⟩ := h₁.insert hfresh hcap haddr hinner houter
  have hno : listEmpty st.links (.head .mixed c) = true :=
    (h.shelved.listEmpty_eq (.mixed, c)).mpr hmixed
  have hno' : listEmpty st.links (.head .free c) = true :=
    (h.shelved.listEmpty_eq (.free, c)).mpr hfree
  subst hcache
  exact ⟨obj, _, _, memCacheAllocObj_new hno hno' hnew hcall, hmade, hinv⟩

theorem Inv.addr_not_mem_fresh (h : Inv t exact st all sh) {info info' : SlabInfo}
    (hfresh : FreshBlock t st.made info) (hi' : info' ∈ st.made) :
    ¬ (info.base ≤ info'.addr ∧ info'.addr < info.stop t) := by
  cases hin : (t.caches info'.cache).inBlock with
  | false => exact h.not_mem_fresh hfresh (h.outer info' hi' hin)
  | true =>
      have hap := hfresh.apart info' hi'
      have hr := info'.object_range t (i := 0) (by have := h.capacity info' hi'; omega)
      have hs := (t.sized info'.cache).size_pos
      rw [h.inner info' hi' hin]
      simp only [SlabInfo.Apart] at hap
      omega

theorem SlabInfo.base_lt_stop (t : CacheTable) (info : SlabInfo) : info.base < info.stop t := by
  have hb := (t.sized info.cache).bytes_eq
  have hpos := Nat.two_pow_pos (t.caches info.cache).pageOrder
  simp only [SlabInfo.stop, hb, pageSize]
  omega

theorem Inv.alloc_inner (h : Inv t exact st all sh) (fuel : Nat) (supply : List Nat) {base : Nat}
    (hin : (t.caches c).inBlock = true) (hcap : 2 ≤ (t.caches c).objsPerSlab)
    (hfresh : FreshBlock t st.made ⟨c, base, base⟩) :
    ∃ obj st' supply' sh',
      memCacheAllocObj (fuel + 1) st (base :: supply) c = some (some obj, st', supply') ∧
      (st'.made = st.made ∧ supply' = base :: supply ∨ sh (.mixed, c) = [] ∧ sh (.free, c) = [] ∧
        st'.made = ⟨c, base, base⟩ :: st.made ∧ supply' = supply) ∧
      Inv t exact st' ((c, obj) :: all) sh' := by
  by_cases hk : sh (.mixed, c) = [] ∧ sh (.free, c) = []
  · have hnew : newSlab (memCacheAllocObj fuel) st (base :: supply) c =
        some (base, withSlab st ⟨c, base, base⟩, supply) :=
      newSlab_inner (by rw [h.caches_eq, hin]) (by rw [h.caches_eq]; omega)
    have hstop := SlabInfo.base_lt_stop t ⟨c, base, base⟩
    obtain ⟨obj, st', sh', hcall, hmade, hinv⟩ := h.alloc_new hk.1 hk.2 ⟨c, base, base⟩ h hnew
      rfl hfresh hcap
      (fun info' hi' e => h.addr_not_mem_fresh hfresh hi' ⟨by simp [e], by rw [e]; exact hstop⟩)
      (fun _ => rfl) (fun hb => absurd (hin.symm.trans hb) (by decide))
    exact ⟨obj, st', supply, sh', hcall, .inr ⟨hk.1, hk.2, hmade, rfl⟩, hinv⟩
  · obtain ⟨obj, st', sh', hcall, hmade, hinv⟩ := h.alloc_listed fuel (base :: supply) hk
    exact ⟨obj, st', base :: supply, sh', hcall, .inl ⟨hmade, rfl⟩, hinv⟩

/-- An object in use is at the address of no descriptor in a block. -/
theorem Inv.addr_ne_object (h : Inv t exact st all sh) {info' : SlabInfo} (hi' : info' ∈ st.made)
    (hin : (t.caches info'.cache).inBlock = true) {e : Nat × Nat} (he : e ∈ all) :
    info'.addr ≠ e.2 := by
  obtain ⟨info, hi, -, i, hlt, heq⟩ := h.origin e he
  have hr := info.object_range t hlt
  have hs := (t.sized info.cache).size_pos
  have hstop := SlabInfo.base_lt_stop t info'
  rw [h.inner info' hi' hin]
  intro hbase
  obtain rfl := h.eq_of_mem hi hi' (a := e.2) (by omega) (by omega) (by omega) (by omega)
  simp only [ObjMemCache.memOffset, hin, if_true, slabSize] at hr
  omega

/-- The two blocks that `alloc_pages` returns next: one for the cache and, should the call
need it, one for the descriptor of its slab. Neither overlaps a slab or the other. -/
def FreshSupply (t : CacheTable) (made : List SlabInfo) (c : Nat) : List Nat → Prop
  | p :: q :: _ => FreshBlock t made ⟨c, p, p⟩ ∧ FreshBlock t made ⟨t.descCache, q, q⟩ ∧
      SlabInfo.Apart t ⟨c, p, p⟩ ⟨t.descCache, q, q⟩
  | _ => False

theorem Inv.alloc_outer (h : Inv t exact st all sh) (fuel : Nat) (supply : List Nat) {p q : Nat}
    (hin : (t.caches c).inBlock = false) (hcap : 2 ≤ (t.caches c).objsPerSlab)
    (hp : FreshBlock t st.made ⟨c, p, p⟩) (hq : FreshBlock t st.made ⟨t.descCache, q, q⟩)
    (hpq : SlabInfo.Apart t ⟨c, p, p⟩ ⟨t.descCache, q, q⟩) (hmixed : sh (.mixed, c) = [])
    (hfree : sh (.free, c) = []) :
    ∃ obj st' supply' sh' desc,
      memCacheAllocObj (fuel + 2) st (p :: q :: supply) c = some (some obj, st', supply') ∧
      Inv t exact st' ((c, obj) :: (t.descCache, desc) :: all) sh' ∧
      held t st'.made = (t.descCache, desc) :: held t st.made ∧ Grown sh st.made st'.made := by
  obtain ⟨hdin, hdcap, -⟩ := t.desc_inBlock
  obtain ⟨desc, st₁, supply', sh₁, hcall, hmade, h₁⟩ := h.alloc_inner fuel supply hdin
    hdcap hq
  have hsub : ∀ info ∈ st₁.made, info ∈ st.made ∨
      (t.caches info.cache).inBlock = true ∧ SlabInfo.Apart t ⟨c, p, p⟩ info ∧
        sh (.mixed, info.cache) = [] ∧ sh (.free, info.cache) = [] := by
    intro info hi
    rcases hmade with ⟨hmade, -⟩ | ⟨hm, hf, hmade, -⟩
    · exact .inl (hmade ▸ hi)
    · rw [hmade, List.mem_cons] at hi
      rcases hi with rfl | hi
      · exact .inr ⟨hdin, hpq, hm, hf⟩
      · exact .inl hi
  have hfresh : FreshBlock t st₁.made ⟨c, desc, p⟩ := by
    refine ⟨hp.mapped, fun info hi => ?_⟩
    rcases hsub info hi with hi | ⟨-, hap, -⟩
    · exact hp.apart info hi
    · exact hap
  have hnodup := List.nodup_cons.mp h₁.nodup
  have haddr : ∀ info ∈ st₁.made, info.addr ≠ desc := by
    intro info hi
    cases hib : (t.caches info.cache).inBlock with
    | true => exact h₁.addr_ne_object hi hib (e := (t.descCache, desc)) (by simp)
    | false =>
        rcases hsub info hi with hi | ⟨hib', -⟩
        · rintro rfl
          exact hnodup.1 (h.outer info hi hib)
        · exact absurd (hib.symm.trans hib') (by decide)
  have hobjs := (t.sized c).few hin
  have hnew : newSlab (memCacheAllocObj (fuel + 1)) st (p :: q :: supply) c =
      some (desc, withSlab st₁ ⟨c, desc, p⟩, supply') :=
    newSlab_outer (by rw [h.caches_eq, hin]) (by rw [h.caches_eq]; omega)
      (by rw [h.caches_eq]; omega) (by rw [h.malloc_eq]; exact hcall)
      (h₁.caches_eq.trans h.caches_eq.symm)
  obtain ⟨obj, st', sh', hcall', hmade', hinv⟩ := h.alloc_new hmixed hfree ⟨c, desc, p⟩ h₁ hnew
    rfl hfresh hcap haddr (fun hb => absurd (hin.symm.trans hb) (by decide))
    (fun _ => List.mem_cons_self)
  refine ⟨obj, st', supply', sh', desc, hcall', hinv, ?_, ?_⟩
  · have hheld : held t st₁.made = held t st.made := by
      rcases hmade with ⟨hmade, -⟩ | ⟨-, -, hmade, -⟩
      · rw [hmade]
      · simp [hmade, held, hdin]
    rw [← hheld, hmade']
    simp [held, hin]
  · intro info hi
    rw [hmade', List.mem_cons] at hi
    rcases hi with rfl | hi
    · exact .inr ⟨hmixed, hfree⟩
    · exact (hsub info hi).imp_right fun hnew => hnew.2.2

theorem Inv.alloc (h : Inv t exact st all sh) (fuel : Nat) {supply : List Nat}
    (hcap : 2 ≤ (t.caches c).objsPerSlab) (hsupply : FreshSupply t st.made c supply) :
    ∃ obj st' supply' sh' descs,
      memCacheAllocObj (fuel + 2) st supply c = some (some obj, st', supply') ∧
      Inv t exact st' ((c, obj) :: (descs ++ all)) sh' ∧
      held t st'.made = descs ++ held t st.made ∧ Grown sh st.made st'.made := by
  obtain ⟨p, q, rest, rfl⟩ : ∃ p q rest, supply = p :: q :: rest := by
    match supply, hsupply with
    | p :: q :: rest, _ => exact ⟨p, q, rest, rfl⟩
  obtain ⟨hp, hq, hpq⟩ := hsupply
  cases hin : (t.caches c).inBlock with
  | true =>
      obtain ⟨obj, st', supply', sh', hcall, hmade, hinv⟩ := h.alloc_inner (fuel + 1) (q :: rest)
        hin hcap hp
      refine ⟨obj, st', supply', sh', [], hcall, hinv, ?_, fun info hi => ?_⟩
      · rcases hmade with ⟨hmade, -⟩ | ⟨-, -, hmade, -⟩
        · rw [hmade, List.nil_append]
        · simp [hmade, held, hin]
      · rcases hmade with ⟨hmade, -⟩ | ⟨hm, hf, hmade, -⟩
        · exact .inl (hmade ▸ hi)
        · rw [hmade, List.mem_cons] at hi
          rcases hi with rfl | hi
          · exact .inr ⟨hm, hf⟩
          · exact .inl hi
  | false =>
      by_cases hk : sh (.mixed, c) = [] ∧ sh (.free, c) = []
      · obtain ⟨obj, st', supply', sh', desc, hrest⟩ := h.alloc_outer fuel rest hin hcap hp
          hq hpq hk.1 hk.2
        exact ⟨obj, st', supply', sh', [(t.descCache, desc)], hrest⟩
      · obtain ⟨obj, st', sh', hcall, hmade, hinv⟩ := h.alloc_listed (fuel + 1)
          (p :: q :: rest) hk
        refine ⟨obj, st', _, sh', [], hcall, hinv, ?_, fun info hi => .inl (hmade ▸ hi)⟩
        rw [hmade, List.nil_append]

/-- Objects lie in the identity map, so none of them is a null pointer. -/
theorem Inv.object_pos (h : Inv t exact st all sh) {e : Nat × Nat} (he : e ∈ all) : 0 < e.2 := by
  obtain ⟨info, hi, -, i, hlt, heq⟩ := h.origin e he
  have hr := info.object_range t hlt
  have hbase := (h.mapped info hi).2.1
  simp only [identityBase] at hbase
  omega

end alloc

/-! ### Releases -/

section free
variable {t : CacheTable} {exact : Prop} {st : SlabState} {all : List (Nat × Nat)} {sh : Shelves}

/-- In the identity map the distance of two addresses is that of their physical addresses. -/
theorem va2pa_sub {a n : Nat} (hlo : identityBase ≤ a) (hhi : a + n < identityBase + 2 ^ 47) :
    (va2pa (a + n) + 2 ^ 64 - va2pa a) % 2 ^ 64 = n := by
  obtain ⟨x, rfl⟩ := Nat.exists_eq_add_of_le hlo
  have hx : va2pa (identityBase + x) = x := by
    rw [← pa2va_eq_add (by omega), va2pa_pa2va]
  have hn : va2pa (identityBase + x + n) = x + n := by
    rw [← pa2va_eq_add (by omega), va2pa_add (by omega)]
  rw [hx, hn, show x + n + 2 ^ 64 - x = n + 2 ^ 64 by omega, Nat.add_mod_right]
  exact Nat.mod_eq_of_lt (by omega)

theorem Inv.free_index (h : Inv t exact st all sh) {info : SlabInfo} (hi : info ∈ st.made) {i : Nat}
    (hlt : i < info.objs t) :
    (va2pa (info.object t i) + 2 ^ 64 - va2pa (st.slabs info.addr).mem) % 2 ^ 64 /
      (t.caches info.cache).objectSize % 2 ^ 32 = i := by
  have hr := info.object_range t hlt
  have hs := (t.sized info.cache).size_pos
  have hend := info.objs_lt_end t
  obtain ⟨-, hbase, hstop⟩ := h.mapped info hi
  have hmem : info.base ≤ info.mem t := Nat.le_add_right _ _
  simp only [SlabInfo.object] at hr ⊢
  rw [h.mem_eq info hi, va2pa_sub (by omega) (by omega), Nat.mul_div_cancel _ hs]
  simp only [freeListEnd] at hend
  exact Nat.mod_eq_of_lt (by omega)

/-- The slab after an index has been given back. -/
structure Given (slab slab' : Slab) (i : Nat) : Prop where
  mem_eq : slab'.mem = slab.mem
  list_eq : slab'.freeList = Function.update slab.freeList i slab.nextFree
  next_eq : slab'.nextFree = i
  count_eq : slab'.inUse + 1 = slab.inUse

theorem Inv.given (h : Inv t exact st all sh) {info : SlabInfo} (hi : info ∈ st.made) {i : Nat}
    (hlt : i < info.objs t) (hlive : (info.cache, info.object t i) ∈ all) :
    ∃ slab', freeFromSlab (st.slabs info.addr) i = slab' ∧ Given (st.slabs info.addr) slab' i := by
  obtain ⟨xs, hpool, hlen⟩ := h.pool info hi
  have huse := h.inUse_lt hi
  have hpos : 0 < (List.range (info.objs t)).countP
      fun j => decide ((info.cache, info.object t j) ∈ all) :=
    List.countP_pos_iff.mpr ⟨i, List.mem_range.mpr hlt, decide_eq_true hlive⟩
  have hcount := hpool.count
  have hdown : ((st.slabs info.addr).inUse + 2 ^ 32 - 1) % 2 ^ 32 + 1 = (st.slabs info.addr).inUse := by
    omega
  refine ⟨_, rfl, ?_⟩
  unfold freeFromSlab
  exact ⟨rfl, rfl, rfl, hdown⟩

theorem Inv.give (h : Inv t exact st all sh) {info : SlabInfo} (hi : info ∈ st.made) {i : Nat}
    (hlt : i < info.objs t) (hlive : (info.cache, info.object t i) ∈ all)
    (hdesc : (info.cache, info.object t i) ∉ held t st.made) {slab' : Slab}
    (hgiven : Given (st.slabs info.addr) slab' i)
    (links : Links SlabNode) (sh' : Shelves) (hshelved : Shelved links sh')
    (hkeep : ∀ k, ∀ a ≠ info.addr, a ∈ sh' k ↔ a ∈ sh k)
    (hplace : ∃ shelf, ∀ k, info.addr ∈ sh' k ↔ k = (shelf, info.cache))
    (hlevel : ∀ shelf, info.addr ∈ sh' (shelf, info.cache) →
      Level exact shelf slab'.inUse (info.objs t)) :
    Inv t exact { st.setSlab info.addr slab' with links := links }
      (all.erase (info.cache, info.object t i)) sh' := by
  have hmem : ∀ e, e ∈ all.erase (info.cache, info.object t i) ↔
      e ≠ (info.cache, info.object t i) ∧ e ∈ all := fun _ => h.nodup.mem_erase_iff
  obtain ⟨xs, hpool, hlen⟩ := h.pool info hi
  have hcount := hgiven.count_eq
  refine h.setSlab hi slab' links (hgiven.mem_eq.trans (h.mem_eq info hi)) ⟨i :: xs, ?_, ?_⟩ ?_ ?_
    (h.nodup.erase _) ?_ hshelved hkeep hplace hlevel
  · rw [hgiven.list_eq, hgiven.next_eq]
    refine hpool.give hlt hlive (Nat.le_of_lt (info.objs_lt_end t)) fun j => ?_
    rw [hmem, and_comm]
    exact and_congr_right fun _ => not_congr
      ⟨fun e => SlabInfo.object_inj (Prod.mk.inj e).2, fun e => by rw [e]⟩
  · rw [List.length_cons]
    omega
  · intro info' hi' hne j hj
    rw [hmem, and_iff_right]
    exact fun e => hne (h.eq_of_object hi' hi hj hlt (Prod.mk.inj e).2).1
  · intro info' hi' hb
    refine (hmem _).mpr ⟨fun e => hdesc ?_, h.outer info' hi' hb⟩
    rw [← e, held]
    exact List.mem_map.mpr ⟨info', List.mem_filter.mpr ⟨hi', by simp [hb]⟩, rfl⟩
  · exact fun e he => h.origin e ((hmem e).mp he).2

/-- The slab of an object is full. -/
def SlabFull (st : SlabState) (c obj : Nat) : Prop :=
  (st.slabs (st.pageSlab (obj / pageSize))).inUse = (st.caches c).objsPerSlab

theorem Inv.freeObj_eq (h : Inv t exact st all sh) {info : SlabInfo} (hi : info ∈ st.made) {i : Nat}
    (hlt : i < info.objs t) (hlive : (info.cache, info.object t i) ∈ all) :
    ∃ slab', Given (st.slabs info.addr) slab' i ∧
      memCacheFreeObj st info.cache (info.object t i) = some { st.setSlab info.addr slab' with
        links := if slab'.inUse = 0 then
            listAdd (listDelInit st.links (.slab info.addr)) (.slab info.addr)
              (.head .free info.cache)
          else st.links } := by
  have htag := (h.tags hi hlt).2
  have hs := Nat.pos_iff_ne_zero.mp (t.sized info.cache).size_pos
  obtain ⟨slab', hslab', hgiven⟩ := h.given hi hlt hlive
  obtain ⟨shelf, hk⟩ := h.onShelf info hi
  obtain ⟨hunlink, -, -⟩ := h.shelved.unlink hk
  have hvalid : ¬ (st.links.next (.slab info.addr) = .invalid ∨
      st.links.prev (.slab info.addr) = .invalid) := by
    intro hbad
    simp [unlink, hbad] at hunlink
  refine ⟨slab', hgiven, ?_⟩
  simp only [memCacheFreeObj, htag, h.caches_eq, if_neg hs, h.free_index hi hlt, hslab']
  split_ifs with hzero hbad
  · exact absurd hbad hvalid
  · rw [← listAdd_listDel st.links (by simp) .invalid .invalid]
    rfl
  · rfl

/-- What `mem_cache_free_obj` does with an object in use. The slab of the object stays on
`slabs_full` if that is where it stood, unless it becomes empty. -/
theorem Inv.free (h : Inv t exact st all sh) {c obj : Nat} (hlive : (c, obj) ∈ all)
    (hdesc : (c, obj) ∉ held t st.made) (hsafe : exact → ¬ SlabFull st c obj) :
    ∃ st' sh', memCacheFreeObj st c obj = some st' ∧ st'.made = st.made ∧
      Inv t exact st' (all.erase (c, obj)) sh' := by
  obtain ⟨info, hi, rfl, i, hlt, heq⟩ := h.origin _ hlive
  simp only at heq
  subst heq
  have htag := (h.tags hi hlt).2
  obtain ⟨slab', hgiven, hcall⟩ := h.freeObj_eq hi hlt hlive
  have hcount := hgiven.count_eq
  obtain ⟨shelf, hk⟩ := h.onShelf info hi
  by_cases hzero : slab'.inUse = 0
  · rw [if_pos hzero] at hcall
    refine ⟨_, moveTo sh info.addr (shelf, info.cache) (.free, info.cache), hcall, rfl,
      h.give hi hlt hlive hdesc hgiven _ _ (h.shelved.move hk (.free, info.cache)) ?_ ⟨.free, ?_⟩ ?_⟩
    · intro k b hb
      rw [h.shelved.mem_moveTo hk]
      simp [hb]
    · intro k
      rw [h.shelved.mem_moveTo hk]
      simp
    · intro shelf' hm
      rw [h.shelved.mem_moveTo hk] at hm
      obtain rfl : shelf' = .free := by simpa using hm
      exact hzero
  · rw [if_neg hzero] at hcall
    refine ⟨_, sh, hcall, rfl, h.give hi hlt hlive hdesc hgiven _ _ h.shelved (fun _ _ _ => Iff.rfl)
      ⟨shelf, h.place hk⟩ fun shelf' hm => ?_⟩
    obtain rfl : shelf' = shelf := congrArg Prod.fst ((h.place hk _).mp hm)
    obtain ⟨info', hi', -, haddr, hlevel⟩ := h.members _ _ hk
    obtain rfl := h.eq_of_addr hi' hi haddr
    cases shelf' with
    | free =>
        have hnone : (st.slabs info'.addr).inUse = 0 := hlevel
        omega
    | mixed =>
        have hsome : (st.slabs info'.addr).inUse < info'.objs t := hlevel.2
        exact ⟨by omega, by omega⟩
    | full =>
        refine ⟨by omega, fun hexact => absurd ?_ (hsafe hexact)⟩
        rw [SlabFull, htag, h.caches_eq]
        exact hlevel.2 hexact

end free
end Lucix.ObjCache
