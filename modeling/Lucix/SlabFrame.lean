import Lucix.SlabRuns

/-! What the calls of the object caches read and write. A call first chooses a slab and then takes an
object from it; it reads no memory of a cache other than those it is made for, so states that differ
only in memory that is no cache go through the same calls. -/
namespace Lucix.ObjCache
open Ring Execution IndexChain

/-! ### The calls in parts -/

/-- The slab that `mem_cache_alloc_obj` takes an object from: the list it was found on, if it is not
new, its descriptor, and the state in which the object is taken. -/
def slabFor (fuel : Nat) (st : SlabState) (supply : List Nat) (c : Nat) :
    Option (Option Shelf × Nat × SlabState × List Nat) :=
  if !listEmpty st.links (.head .mixed c) then
    (st.links.next (.head .mixed c)).addr?.map fun addr => (some .mixed, addr, st, supply)
  else if !listEmpty st.links (.head .free c) then
    (st.links.next (.head .free c)).addr?.map fun addr => (some .free, addr, st, supply)
  else (newSlab (memCacheAllocObj fuel) st supply c).map fun (addr, st, supply) => (none, addr, st, supply)

/-- The links after the slab has been put where it belongs. -/
def relinked (st : SlabState) (addr c : Nat) : Option Shelf → Option (Links SlabNode)
  | some .mixed => some st.links
  | some _ => (unlink st.links (.slab addr)).map fun L => listAdd L (.slab addr) (.head .mixed c)
  | none => some (listAdd st.links (.slab addr) (.head .mixed c))

theorem memCacheAllocObj_eq (fuel : Nat) (st : SlabState) (supply : List Nat) (c : Nat) :
    memCacheAllocObj (fuel + 1) st supply c =
      (slabFor fuel st supply c).bind fun (shelf, addr, st, supply) =>
        (allocFromSlab st addr).bind fun (objp, st) =>
          (relinked st addr c shelf).map fun links => (objp, { st with links := links }, supply) := by
  rw [memCacheAllocObj, slabFor]
  split
  · cases (st.links.next (.head .mixed c)).addr? with
    | none => rfl
    | some addr => cases allocFromSlab st addr <;> rfl
  · split
    · cases (st.links.next (.head .free c)).addr? with
      | none => rfl
      | some addr =>
          cases htake : allocFromSlab st addr with
          | none => simp [htake]
          | some r =>
              simp only [Option.bind_eq_bind, Option.bind_some, Option.map_some, htake, relinked]
              cases unlink r.2.links (.slab addr) <;> rfl
    · cases newSlab (memCacheAllocObj fuel) st supply c with
      | none => rfl
      | some r =>
          simp only [Option.bind_eq_bind, Option.bind_some, Option.map_some]
          cases allocFromSlab r.2.1 r.1 <;> rfl

/-- The links after an object has been taken from the slab. -/
def takenLinks (st : SlabState) (addr : Nat) : Option (Links SlabNode) :=
  if (st.slabs addr).freeList (st.slabs addr).nextFree = freeListEnd then
    (unlink st.links (.slab addr)).map fun L =>
      listAdd L (.slab addr) (.head .full (st.pageCache ((st.slabs addr).mem / pageSize)))
  else some st.links

theorem allocFromSlab_parts (st : SlabState) (addr : Nat) :
    allocFromSlab st addr = if (st.slabs addr).nextFree = freeListEnd then some (none, st)
      else (takenLinks st addr).map fun links =>
        (some ((st.slabs addr).mem + (st.slabs addr).nextFree *
            (st.caches (st.pageCache ((st.slabs addr).mem / pageSize))).objectSize),
          { st.setSlab addr (takenSlab (st.slabs addr)) with links := links }) := by
  rw [allocFromSlab, takenLinks]
  dsimp only
  split_ifs with hnone hlast
  · rfl
  · cases unlink st.links (.slab addr) <;> rfl
  · rfl

/-- The descriptor of a new slab. -/
def descFor (alloc : SlabState → List Nat → Nat → Option AllocResult) (st : SlabState) (base : Nat)
    (supply : List Nat) (c : Nat) : Option (Nat × SlabState × List Nat) :=
  if (st.caches c).inBlock then some (base, st, supply)
  else (kmallocWith alloc st supply (slabSize + 4 * (st.caches c).objsPerSlab)).bind fun (slab, st, supply) =>
    slab.map fun slab => (slab, st, supply)

/-- The state after the descriptor and the pages of a new slab of `cache` have been written. -/
def placeSlab (cache : ObjMemCache) (st : SlabState) (info : SlabInfo) : SlabState :=
  { st with
    slabs := Function.update st.slabs info.addr (freshSlab cache info.base (st.slabs info.addr).freeList)
    pageCache := fun n => if onPages info.base cache.pageOrder n then info.cache else st.pageCache n
    pageSlab := fun n => if onPages info.base cache.pageOrder n then info.addr else st.pageSlab n
    made := info :: st.made }

theorem placeSlab_self (cache : ObjMemCache) (st : SlabState) (info : SlabInfo) :
    (placeSlab cache st info).slabs info.addr = freshSlab cache info.base (st.slabs info.addr).freeList :=
  Function.update_self _ _ _

theorem newSlab_parts (alloc : SlabState → List Nat → Nat → Option AllocResult) (st : SlabState)
    (base : Nat) (supply : List Nat) (c : Nat) :
    newSlab alloc st (base :: supply) c = (descFor alloc st base supply c).bind fun (slab, st', supply) =>
      if (st.caches c).objsPerSlab = 0 then none
      else some (slab, placeSlab (st.caches c) st' ⟨c, slab, base⟩, supply) := by
  rw [newSlab, descFor]
  dsimp only
  cases hin : (st.caches c).inBlock with
  | true =>
      simp only [if_true, Option.bind_eq_bind, Option.bind_some, tagPages_eq, placeSlab, freshSlab,
        ObjMemCache.memOffset, hin, SlabState.setSlab]
  | false =>
      simp only [Bool.false_eq_true, if_false, Option.bind_eq_bind]
      cases kmallocWith alloc st supply (slabSize + 4 * (st.caches c).objsPerSlab) with
      | none => rfl
      | some r =>
          obtain ⟨o, st', supply'⟩ := r
          cases o with
          | none => rfl
          | some slab =>
              simp only [Option.bind_some, Option.map_some, tagPages_eq, placeSlab, freshSlab,
                ObjMemCache.memOffset, hin, Bool.false_eq_true, if_false, SlabState.setSlab]

/-! ### The slab that is chosen -/

section choice
variable {t : CacheTable} {exact : Prop} {st st₁ st' : SlabState} {all all' : List (Nat × Nat)} {sh sh' : Shelves}
  {alloc : SlabState → List Nat → Nat → Option AllocResult} {supply supply₁ supply' : List Nat}
  {c addr obj fuel : Nat} {o : Option Nat} {shelf : Option Shelf}

/-- The slab at the front of a list belongs to the cache of the list. -/
theorem Inv.front (h : Inv t exact st all sh) {k : Shelf} (hne : (!listEmpty st.links (.head k c)) = true)
    (haddr : (st.links.next (.head k c)).addr? = some addr) :
    ∃ info ∈ st.made, info.cache = c ∧ info.addr = addr := by
  rw [Bool.not_eq_true', Bool.eq_false_iff, Ne, h.shelved.listEmpty_eq (k, c)] at hne
  obtain ⟨a, as, hk⟩ := List.exists_cons_of_ne_nil hne
  rw [h.shelved.next_head hk] at haddr
  obtain rfl := Option.some.inj haddr
  obtain ⟨info, hi, hc, ha, -⟩ := h.members (k, c) a (by rw [hk]; exact List.mem_cons_self)
  exact ⟨info, hi, hc, ha⟩

theorem slabFor_cases (h : slabFor fuel st supply c = some (shelf, addr, st₁, supply₁)) :
    (∃ k, shelf = some k ∧ (!listEmpty st.links (.head k c)) = true ∧
      (st.links.next (.head k c)).addr? = some addr ∧ st₁ = st ∧ supply₁ = supply) ∨
    shelf = none ∧ newSlab (memCacheAllocObj fuel) st supply c = some (addr, st₁, supply₁) := by
  rw [slabFor] at h
  split at h
  case isTrue hmixed =>
    obtain ⟨a, haddr, heq⟩ := Option.map_eq_some_iff.mp h
    obtain ⟨rfl, rfl, rfl, rfl⟩ : _ ∧ _ ∧ _ ∧ _ := by simpa using heq
    exact .inl ⟨.mixed, rfl, hmixed, haddr, rfl, rfl⟩
  case isFalse hmixed =>
    split at h
    case isTrue hfree =>
      obtain ⟨a, haddr, heq⟩ := Option.map_eq_some_iff.mp h
      obtain ⟨rfl, rfl, rfl, rfl⟩ : _ ∧ _ ∧ _ ∧ _ := by simpa using heq
      exact .inl ⟨.free, rfl, hfree, haddr, rfl, rfl⟩
    case isFalse hfree =>
      obtain ⟨⟨a, st₂, supply₂⟩, hnew, heq⟩ := Option.map_eq_some_iff.mp h
      obtain ⟨rfl, rfl, rfl, rfl⟩ : _ ∧ _ ∧ _ ∧ _ := by simpa using heq
      exact .inr ⟨rfl, hnew⟩

theorem newSlab_cases (h : newSlab alloc st supply c = some (addr, st₁, supply')) :
    ∃ base rest st₀, supply = base :: rest ∧ descFor alloc st base rest c = some (addr, st₀, supply') ∧
      (st.caches c).objsPerSlab ≠ 0 ∧ st₁ = placeSlab (st.caches c) st₀ ⟨c, addr, base⟩ := by
  cases supply with
  | nil => contradiction
  | cons base rest =>
      rw [newSlab_parts] at h
      obtain ⟨⟨slab, st₀, supply₀⟩, hdesc, h⟩ := Option.bind_eq_some_iff.mp h
      dsimp only at h
      split at h
      case isTrue => contradiction
      case isFalse hobjs =>
        obtain ⟨rfl, rfl, rfl⟩ : _ ∧ _ ∧ _ := by simpa using h
        exact ⟨base, rest, st₀, rfl, hdesc, hobjs, rfl⟩

theorem memCacheAllocObj_cases (h : memCacheAllocObj (fuel + 1) st supply c = some (o, st', supply')) :
    ∃ shelf addr st₁ st₂ links, slabFor fuel st supply c = some (shelf, addr, st₁, supply') ∧
      allocFromSlab st₁ addr = some (o, st₂) ∧ relinked st₂ addr c shelf = some links ∧
      st' = { st₂ with links := links } := by
  rw [memCacheAllocObj_eq] at h
  obtain ⟨⟨shelf, addr, st₁, supply₁⟩, hslab, h⟩ := Option.bind_eq_some_iff.mp h
  obtain ⟨⟨o', st₂⟩, htake, h⟩ := Option.bind_eq_some_iff.mp h
  obtain ⟨links, hlinks, h⟩ := Option.map_eq_some_iff.mp h
  obtain ⟨rfl, rfl, rfl⟩ : _ ∧ _ ∧ _ := by simpa using h
  exact ⟨shelf, addr, st₁, st₂, links, hslab, htake, hlinks, rfl⟩

theorem allocFromSlab_cases (h : allocFromSlab st addr = some (o, st')) :
    (st.slabs addr).nextFree = freeListEnd ∧ o = none ∧ st' = st ∨
    (st.slabs addr).nextFree ≠ freeListEnd ∧
      o = some ((st.slabs addr).mem + (st.slabs addr).nextFree *
        (st.caches (st.pageCache ((st.slabs addr).mem / pageSize))).objectSize) ∧
      ∃ links, takenLinks st addr = some links ∧
        st' = { st.setSlab addr (takenSlab (st.slabs addr)) with links := links } := by
  rw [allocFromSlab_parts] at h
  split at h
  case isTrue hnone =>
    obtain ⟨rfl, rfl⟩ : _ ∧ _ := by simpa using h
    exact .inl ⟨hnone, rfl, rfl⟩
  case isFalse hsome =>
    obtain ⟨links, hlinks, h⟩ := Option.map_eq_some_iff.mp h
    obtain ⟨rfl, rfl⟩ := Prod.mk.inj h
    exact .inr ⟨hsome, rfl, links, hlinks, rfl⟩

end choice

/-! ### Memory that is no cache -/

/-- The nodes that are no list heads of a cache outside `live`. -/
def Reached (live : List Nat) : SlabNode → Prop
  | .head _ c => c ∈ live
  | .slab _ => True
  | .invalid => True

/-- The states differ at most in the fields of caches outside `live`. -/
structure Agree (live : List Nat) (st st₀ : SlabState) : Prop where
  caches_eq : ∀ c ∈ live, st.caches c = st₀.caches c
  links_eq : st.links.AgreeOn (Reached live) st₀.links
  malloc_eq : st.mallocCache = st₀.mallocCache
  slabs_eq : st.slabs = st₀.slabs
  pageCache_eq : st.pageCache = st₀.pageCache
  pageSlab_eq : st.pageSlab = st₀.pageSlab
  made_eq : st.made = st₀.made

section agree
variable {t : CacheTable} {exact : Prop} {live : List Nat} {st st₀ st₀' : SlabState} {all : List (Nat × Nat)}
  {sh : Shelves} {supply supply' : List Nat} {c addr fuel : Nat} {o : Option Nat}

theorem Agree.setLinks (h : Agree live st st₀) {L L₀ : Links SlabNode} (hL : L.AgreeOn (Reached live) L₀) :
    Agree live { st with links := L } { st₀ with links := L₀ } :=
  { h with links_eq := hL }

theorem Agree.setSlab (h : Agree live st st₀) (addr : Nat) (slab : Slab) :
    Agree live (st.setSlab addr slab) (st₀.setSlab addr slab) :=
  { h with slabs_eq := by rw [SlabState.setSlab, SlabState.setSlab, h.slabs_eq] }

theorem agreeOn_unlink {L L₀ L₀' : Links SlabNode} (h : L.AgreeOn (Reached live) L₀)
    (hcall : unlink L₀ (.slab addr) = some L₀') :
    ∃ L', unlink L (.slab addr) = some L' ∧ L'.AgreeOn (Reached live) L₀' := by
  obtain ⟨hnext, hprev⟩ := h (.slab addr) trivial
  rw [unlink] at hcall ⊢
  rw [hnext, hprev]
  split at hcall
  case isTrue => contradiction
  case isFalse hvalid =>
    obtain rfl := Option.some.inj hcall
    exact ⟨_, if_neg hvalid, agreeOn_listDelInit h trivial⟩

/-- Moving a slab to a list of a cache in `live`. -/
theorem agreeOn_moved {L L₀ L₀' : Links SlabNode} (h : L.AgreeOn (Reached live) L₀) (hc : c ∈ live) (k : Shelf)
    (hcall : (unlink L₀ (.slab addr)).map (fun L => listAdd L (.slab addr) (.head k c)) = some L₀') :
    ∃ L', (unlink L (.slab addr)).map (fun L => listAdd L (.slab addr) (.head k c)) = some L' ∧
      L'.AgreeOn (Reached live) L₀' := by
  obtain ⟨M₀, hunlink, rfl⟩ := Option.map_eq_some_iff.mp hcall
  obtain ⟨M, hM, hagree⟩ := agreeOn_unlink h hunlink
  exact ⟨_, by rw [hM]; rfl, agreeOn_listAdd hagree _ hc⟩

theorem Agree.takenLinks {L₀ : Links SlabNode} (h : Agree live st st₀)
    (hc : st₀.pageCache ((st₀.slabs addr).mem / pageSize) ∈ live) (hcall : takenLinks st₀ addr = some L₀) :
    ∃ L, takenLinks st addr = some L ∧ L.AgreeOn (Reached live) L₀ := by
  rw [ObjCache.takenLinks] at hcall ⊢
  rw [h.slabs_eq, h.pageCache_eq]
  split at hcall
  case isTrue hlast =>
    rw [if_pos hlast]
    exact agreeOn_moved h.links_eq hc .full hcall
  case isFalse hmore =>
    obtain rfl := Option.some.inj hcall
    exact ⟨st.links, if_neg hmore, h.links_eq⟩

theorem Agree.allocFromSlab (h : Agree live st st₀)
    (hc : st₀.pageCache ((st₀.slabs addr).mem / pageSize) ∈ live)
    (hcall : allocFromSlab st₀ addr = some (o, st₀')) :
    ∃ st', allocFromSlab st addr = some (o, st') ∧ Agree live st' st₀' := by
  rw [allocFromSlab_parts, h.slabs_eq, h.pageCache_eq, h.caches_eq _ hc]
  rcases allocFromSlab_cases hcall with ⟨hnone, rfl, rfl⟩ | ⟨hsome, rfl, L₀, hlinks, rfl⟩
  · exact ⟨st, if_pos hnone, h⟩
  · obtain ⟨L, hL, hagree⟩ := h.takenLinks hc hlinks
    rw [if_neg hsome, hL]
    exact ⟨_, rfl, (h.setSlab addr _).setLinks hagree⟩

theorem Agree.relinked {L₀ : Links SlabNode} {shelf : Option Shelf} (h : Agree live st st₀) (hc : c ∈ live)
    (hcall : relinked st₀ addr c shelf = some L₀) :
    ∃ L, relinked st addr c shelf = some L ∧ L.AgreeOn (Reached live) L₀ := by
  match shelf with
  | some .mixed =>
      obtain rfl := Option.some.inj hcall
      exact ⟨_, rfl, h.links_eq⟩
  | some .free => exact agreeOn_moved h.links_eq hc .mixed hcall
  | some .full => exact agreeOn_moved h.links_eq hc .mixed hcall
  | none =>
      obtain rfl := Option.some.inj hcall
      exact ⟨_, rfl, agreeOn_listAdd h.links_eq _ hc⟩

/-- Allocations from the caches in `live` take the same course from both states. -/
def Follows (live : List Nat) (fuel : Nat) (st st₀ : SlabState) : Prop :=
  ∀ c ∈ live, ∀ supply o st₀' supply', (∀ base ∈ supply.take fuel, base % pageSize = 0) →
    memCacheAllocObj fuel st₀ supply c = some (o, st₀', supply') →
      ∃ st', memCacheAllocObj fuel st supply c = some (o, st', supply') ∧ Agree live st' st₀'

/-- The caches of `malloc_sizes` are in `live`. -/
def MallocLive (live : List Nat) (st : SlabState) : Prop := ∀ i < 11, st.mallocCache i ∈ live

theorem Agree.kmallocWith (h : Agree live st st₀) (hmalloc : MallocLive live st₀) {size : Nat}
    (hfollows : Follows live fuel st st₀) (haligned : ∀ base ∈ supply.take fuel, base % pageSize = 0)
    (hcall : kmallocWith (memCacheAllocObj fuel) st₀ supply size = some (o, st₀', supply')) :
    ∃ st', kmallocWith (memCacheAllocObj fuel) st supply size = some (o, st', supply') ∧ Agree live st' st₀' := by
  rw [ObjCache.kmallocWith] at hcall ⊢
  split at hcall
  case h_1 i hi =>
    have hlt : i < 11 := (List.findIdx?_eq_some_iff_getElem.mp hi).1
    rw [h.malloc_eq]
    exact hfollows _ (hmalloc i hlt) _ _ _ _ haligned hcall
  case h_2 hi =>
    obtain ⟨rfl, rfl, rfl⟩ : _ ∧ _ ∧ _ := by simpa using hcall
    exact ⟨st, rfl, h⟩

theorem Agree.descFor {base addr : Nat} (h : Agree live st st₀) (hmalloc : MallocLive live st₀) (hc : c ∈ live)
    (hfollows : Follows live fuel st st₀) (haligned : ∀ base ∈ supply.take fuel, base % pageSize = 0)
    (hcall : descFor (memCacheAllocObj fuel) st₀ base supply c = some (addr, st₀', supply')) :
    ∃ st', descFor (memCacheAllocObj fuel) st base supply c = some (addr, st', supply') ∧ Agree live st' st₀' := by
  rw [ObjCache.descFor] at hcall ⊢
  rw [h.caches_eq c hc]
  split at hcall
  case isTrue hin =>
    obtain ⟨rfl, rfl, rfl⟩ : _ ∧ _ ∧ _ := by simpa using hcall
    exact ⟨st, if_pos hin, h⟩
  case isFalse hin =>
    rw [if_neg hin]
    obtain ⟨⟨o, st₁, supply₁⟩, hdesc, hcall⟩ := Option.bind_eq_some_iff.mp hcall
    obtain ⟨slab, rfl, heq⟩ := Option.map_eq_some_iff.mp hcall
    obtain ⟨rfl, rfl, rfl⟩ : _ ∧ _ ∧ _ := by simpa using heq
    obtain ⟨st', hcall', hagree⟩ := h.kmallocWith hmalloc hfollows haligned hdesc
    rw [hcall']
    exact ⟨st', rfl, hagree⟩

theorem Agree.placeSlab (h : Agree live st st₀) (cache : ObjMemCache) (info : SlabInfo) :
    Agree live (placeSlab cache st info) (placeSlab cache st₀ info) := by
  refine { h with slabs_eq := ?_, pageCache_eq := ?_, pageSlab_eq := ?_, made_eq := ?_ }
  · rw [ObjCache.placeSlab, ObjCache.placeSlab, h.slabs_eq]
  · rw [ObjCache.placeSlab, ObjCache.placeSlab, h.pageCache_eq]
  · rw [ObjCache.placeSlab, ObjCache.placeSlab, h.pageSlab_eq]
  · rw [ObjCache.placeSlab, ObjCache.placeSlab, h.made_eq]

theorem Agree.newSlab (h : Agree live st st₀) (hmalloc : MallocLive live st₀) (hc : c ∈ live)
    (hfollows : Follows live fuel st st₀) (haligned : ∀ base ∈ supply.take (fuel + 1), base % pageSize = 0)
    (hcall : newSlab (memCacheAllocObj fuel) st₀ supply c = some (addr, st₀', supply')) :
    ∃ st', newSlab (memCacheAllocObj fuel) st supply c = some (addr, st', supply') ∧ Agree live st' st₀' := by
  obtain ⟨base, rest, st₁, rfl, hdesc, hobjs, rfl⟩ := newSlab_cases hcall
  obtain ⟨st₂, hdesc', hagree⟩ := h.descFor hmalloc hc hfollows
    (fun b hb => haligned b (List.mem_cons_of_mem _ hb)) hdesc
  rw [newSlab_parts, hdesc', h.caches_eq c hc]
  exact ⟨_, if_neg hobjs, hagree.placeSlab _ _⟩

theorem Inv.slabFor_tag (h : Inv t exact st all sh) {shelf : Option Shelf} {st₁ : SlabState}
    (haligned : ∀ base ∈ supply.take (fuel + 1), base % pageSize = 0)
    (hslab : slabFor fuel st supply c = some (shelf, addr, st₁, supply')) :
    st₁.pageCache ((st₁.slabs addr).mem / pageSize) = c := by
  rcases slabFor_cases hslab with ⟨k, -, hne, haddr, rfl, -⟩ | ⟨-, hnew⟩
  · obtain ⟨info, hi, rfl, rfl⟩ := h.front hne haddr
    exact h.cache_of_mem hi
  · obtain ⟨base, rest, st₀, rfl, -, hobjs, rfl⟩ := newSlab_cases hnew
    have hbase := haligned base List.mem_cons_self
    rw [h.caches_eq] at hobjs ⊢
    obtain ⟨hsize, hbytes, -, hfits, -⟩ := t.sized c
    have hpos := Nat.mul_pos (Nat.pos_iff_ne_zero.mpr hobjs) hsize
    have hpage : onPages base (t.caches c).pageOrder ((base + (t.caches c).memOffset) / pageSize) := by
      simp only [onPages, hbytes, pageSize] at *
      omega
    rw [placeSlab_self (t.caches c) st₀ ⟨c, addr, base⟩]
    exact if_pos hpage

theorem Agree.slabFor (h : Agree live st st₀) (hmalloc : MallocLive live st₀) (hc : c ∈ live)
    (hfollows : Follows live fuel st st₀) (haligned : ∀ base ∈ supply.take (fuel + 1), base % pageSize = 0)
    {shelf : Option Shelf} (hslab : slabFor fuel st₀ supply c = some (shelf, addr, st₀', supply')) :
    ∃ st', slabFor fuel st supply c = some (shelf, addr, st', supply') ∧ Agree live st' st₀' := by
  have hhead : ∀ k, st.links.next (.head k c) = st₀.links.next (.head k c) := fun k => (h.links_eq (.head k c) hc).1
  have hempty : ∀ k, listEmpty st.links (.head k c) = listEmpty st₀.links (.head k c) := by
    intro k
    rw [listEmpty, listEmpty, hhead]
  rw [ObjCache.slabFor] at hslab ⊢
  rw [hempty, hempty, hhead, hhead]
  split at hslab
  case isTrue hmixed =>
    obtain ⟨a, haddr, heq⟩ := Option.map_eq_some_iff.mp hslab
    obtain ⟨rfl, rfl, rfl, rfl⟩ : _ ∧ _ ∧ _ ∧ _ := by simpa using heq
    exact ⟨st, by rw [if_pos hmixed, haddr]; rfl, h⟩
  case isFalse hmixed =>
    rw [if_neg hmixed]
    split at hslab
    case isTrue hfree =>
      obtain ⟨a, haddr, heq⟩ := Option.map_eq_some_iff.mp hslab
      obtain ⟨rfl, rfl, rfl, rfl⟩ : _ ∧ _ ∧ _ ∧ _ := by simpa using heq
      exact ⟨st, by rw [if_pos hfree, haddr]; rfl, h⟩
    case isFalse hfree =>
      obtain ⟨⟨a, st₁, supply₁⟩, hnew, heq⟩ := Option.map_eq_some_iff.mp hslab
      obtain ⟨rfl, rfl, rfl, rfl⟩ : _ ∧ _ ∧ _ ∧ _ := by simpa using heq
      obtain ⟨st', hnew', hagree⟩ := h.newSlab hmalloc hc hfollows haligned hnew
      exact ⟨st', by rw [if_neg hfree, hnew']; rfl, hagree⟩

/-- One of the states meets the invariant; the other one takes the same course. -/
theorem Agree.follows (h : Agree live st st₀) (hinv : Inv t exact st₀ all sh) (hmalloc : MallocLive live st₀)
    (fuel : Nat) : Follows live fuel st st₀ := by
  induction fuel with
  | zero =>
      intro c _ supply o st₀' supply' _ hcall
      contradiction
  | succ fuel ih =>
      intro c hc supply o st₀' supply' haligned hcall
      obtain ⟨shelf, addr, st₁, st₂, links, hslab, htake, hlinks, rfl⟩ := memCacheAllocObj_cases hcall
      have htag := hinv.slabFor_tag haligned hslab
      obtain ⟨st₁', hslab', hagree₁⟩ := h.slabFor hmalloc hc ih haligned hslab
      obtain ⟨st₂', htake', hagree₂⟩ := hagree₁.allocFromSlab (htag ▸ hc) htake
      obtain ⟨links', hlinks', hagree⟩ := hagree₂.relinked hc hlinks
      refine ⟨{ st₂' with links := links' }, ?_, hagree₂.setLinks hagree⟩
      simp only [memCacheAllocObj_eq, hslab', Option.bind_some, htake', hlinks', Option.map_some]

theorem Agree.memCacheFreeObj {obj : Nat} (h : Agree live st st₀) (hc : c ∈ live)
    (hcall : memCacheFreeObj st₀ c obj = some st₀') :
    ∃ st', memCacheFreeObj st c obj = some st' ∧ Agree live st' st₀' ∧ st'.caches = st.caches := by
  rw [ObjCache.memCacheFreeObj] at hcall ⊢
  dsimp only at hcall ⊢
  rw [h.slabs_eq, h.pageSlab_eq, h.caches_eq c hc]
  obtain ⟨hnext, hprev⟩ := h.links_eq (.slab (st₀.pageSlab (obj / pageSize))) trivial
  split at hcall
  case isTrue => contradiction
  case isFalse hsize =>
    rw [if_neg hsize]
    split at hcall
    case isTrue hzero =>
      rw [if_pos hzero]
      split at hcall
      case isTrue => cases hcall
      case isFalse hvalid =>
        obtain rfl := Option.some.inj hcall
        have hvalid' : ¬ (st.links.next (.slab (st₀.pageSlab (obj / pageSize))) = .invalid ∨
            st.links.prev (.slab (st₀.pageSlab (obj / pageSize))) = .invalid) := by
          rw [hnext, hprev]
          exact hvalid
        have hdel := @agreeOn_listDel _ _ (Reached live) st.links st₀.links h.links_eq
          (.slab (st₀.pageSlab (obj / pageSize))) trivial .invalid .invalid
        exact ⟨_, if_neg hvalid', (h.setSlab _ _).setLinks (agreeOn_listAdd hdel _ hc), rfl⟩
    case isFalse hsome =>
      obtain rfl := Option.some.inj hcall
      rw [if_neg hsome]
      exact ⟨_, rfl, h.setSlab _ _, rfl⟩

end agree

end Lucix.ObjCache
