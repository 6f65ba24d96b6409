import Lucix.PageAlloc
import Lucix.SlabStep
import Lucix.Word

/-! The capacity of a slab: the counting loop of `__calc_num_objects` in the integer types of
the source, the largest number of objects that a slab holds, and where `__new_slab` puts them. -/
namespace Lucix.ObjCache
open PageAlloc (maxPgOrder)

/-! ### The counting loop in machine integers -/

/-- The loop of `__calc_num_objects` in its own types: `count` and the slab's bytes are `uint32_t`,
the two sizes `int`, and their sum becomes unsigned again for the comparison. `none` when the sum
overflows, when the loop ends without an assignment, or when it has not ended after `fuel` rounds. -/
def countObjects32 (bytes objectSize : Nat) : Nat → Nat → Option Nat
  | 0, _ => none
  | fuel + 1, count =>
      let count := (count + 1) % 2 ^ 32
      if count < bytes then
        let descSize := toInt32 (slabSize + count * 4)
        let objsSize := toInt32 (objectSize * count % 2 ^ 32)
        if descSize + objsSize < -2 ^ 31 ∨ 2 ^ 31 ≤ descSize + objsSize then none
        else if bytes < ((descSize + objsSize) % 2 ^ 32).toNat then some (count - 1)
        else countObjects32 bytes objectSize fuel count
      else none

section machine
variable {bytes size count : Nat}

/-- The sizes of the next round are small while the last count fits. -/
theorem Fits.next (h : Fits bytes size count) (hbytes : bytes ≤ 2 ^ 22) (hsize : size ≤ 2 ^ 22) :
    count < 2 ^ 20 ∧ size * (count + 1) ≤ 2 ^ 23 := by
  have hmul : size * (count + 1) = size * count + size := Nat.mul_succ size count
  unfold Fits slabSize at h
  generalize size * count = product at *
  omega

/-- No sum of the loop leaves the range of its type, so the types change nothing. -/
theorem countObjects32_eq (hbytes : bytes ≤ 2 ^ 22) (hsize : size ≤ 2 ^ 22) (fuel : Nat)
    (hfits : Fits bytes size count) :
    countObjects32 bytes size fuel count = countObjects bytes size fuel count := by
  induction fuel generalizing count with
  | zero => rfl
  | succ fuel ih =>
      obtain ⟨hcount, hproduct⟩ := hfits.next hbytes hsize
      have hnext : (count + 1) % 2 ^ 32 = count + 1 := Nat.mod_eq_of_lt (by omega)
      have hobjs : toInt32 (size * (count + 1) % 2 ^ 32) = (size * (count + 1) : Nat) := by
        rw [Nat.mod_eq_of_lt (by omega)]
        exact toInt32_of_lt (by omega)
      have hdesc : toInt32 (slabSize + (count + 1) * 4) = (slabSize + (count + 1) * 4 : Nat) :=
        toInt32_of_lt (by unfold slabSize; omega)
      have hsum : ((((slabSize + (count + 1) * 4 : Nat) : Int) + (size * (count + 1) : Nat)) % 2 ^ 32).toNat =
          slabSize + (count + 1) * 4 + size * (count + 1) := by
        unfold slabSize
        omega
      have hrange : ¬ (((slabSize + (count + 1) * 4 : Nat) : Int) + (size * (count + 1) : Nat) < -2 ^ 31 ∨
          2 ^ 31 ≤ ((slabSize + (count + 1) * 4 : Nat) : Int) + (size * (count + 1) : Nat)) := by
        unfold slabSize
        omega
      unfold countObjects32 countObjects
      dsimp only
      rw [hnext, hobjs, hdesc, hsum, if_neg hrange]
      by_cases hmore : count + 1 < bytes
      · rw [if_pos hmore, if_pos hmore]
        by_cases hover : bytes < slabSize + (count + 1) * 4 + size * (count + 1)
        · rw [if_pos hover, if_pos hover]
          rfl
        · rw [if_neg hover, if_neg hover]
          exact ih (Nat.le_of_not_lt hover)
      · rw [if_neg hmore, if_neg hmore]

end machine

/-! ### The largest capacity -/

/-- `n` objects fit into a slab of the cache, beside the descriptor and `n` indices when these
are in the block. -/
def ObjMemCache.Holds (cache : ObjMemCache) (n : Nat) : Prop :=
  (if cache.inBlock then slabSize + 4 * n else 0) + n * cache.objectSize ≤ cache.slabBytes

theorem slabBytes_bounds {order : Nat} (horder : order ≤ 10) :
    pageSize ≤ pageSize <<< order ∧ pageSize <<< order ≤ 2 ^ 22 := by
  have hle : (2 : Nat) ^ order ≤ 2 ^ 10 := Nat.pow_le_pow_right (by decide) horder
  have hpos := Nat.two_pow_pos order
  rw [Nat.shiftLeft_eq]
  unfold pageSize
  omega

theorem fits_iff_holds {bytes size n : Nat} : Fits bytes size n ↔ slabSize + 4 * n + n * size ≤ bytes := by
  unfold Fits
  rw [Nat.mul_comm n 4, Nat.mul_comm size n]

section built
variable (old : ObjMemCache) {size order : Nat}

theorem initializeCache_inBlock_iff (hsize : 0 < size) :
    (initializeCache old size order).inBlock = true ↔ size ≤ pageSize <<< order / 8 := by
  by_cases hin : size ≤ pageSize <<< order / 8
  · obtain ⟨n, heq, -⟩ := initializeCache_counted old hsize hin
    rw [heq]
    exact ⟨fun _ => hin, fun _ => inBlock_of_one rfl⟩
  · rw [initializeCache_large old hin]
    refine ⟨fun hflag => ?_, fun h => absurd h hin⟩
    rw [inBlock_of_zero rfl] at hflag
    cases hflag

theorem initializeCache_greatest (hsize : 0 < size) :
    IsGreatest {n | (initializeCache old size order).Holds n} (initializeCache old size order).objsPerSlab := by
  by_cases hin : size ≤ pageSize <<< order / 8
  · obtain ⟨n, heq, hfits, hfull⟩ := initializeCache_counted old hsize hin
    have hholds : ∀ m, (initializeCache old size order).Holds m ↔ Fits (pageSize <<< order) size m := by
      intro m
      rw [fits_iff_holds, heq, ObjMemCache.Holds, if_pos (inBlock_of_one rfl)]
      rfl
    have hn : (initializeCache old size order).objsPerSlab = n := by rw [heq]
    rw [hn]
    refine ⟨(hholds n).mpr hfits, ?_⟩
    intro m hm
    by_contra hlt
    have hmul : size * (n + 1) ≤ size * m := Nat.mul_le_mul_left size (Nat.lt_of_not_le hlt)
    have hm' := (hholds m).mp hm
    unfold Fits at hm' hfull
    omega
  · rw [initializeCache_large old hin]
    have hflag : ObjMemCache.inBlock ⟨0, size, pageSize <<< order / size, order⟩ = false := inBlock_of_zero rfl
    have hholds : ∀ m, ObjMemCache.Holds ⟨0, size, pageSize <<< order / size, order⟩ m ↔
        m * size ≤ pageSize <<< order := by
      intro m
      rw [ObjMemCache.Holds, hflag]
      simp [ObjMemCache.slabBytes]
    refine ⟨(hholds _).mpr (Nat.div_mul_le_self _ _), ?_⟩
    intro m hm
    exact (Nat.le_div_iff_mul_le hsize).mpr ((hholds m).mp hm)

theorem initializeCache_holds_one (hsize : 0 < size) (horder : order ≤ 10) (hfit : size ≤ pageSize <<< order) :
    (initializeCache old size order).Holds 1 := by
  obtain ⟨-, hobject, hpages⟩ := initializeCache_sized old hsize horder
  have hbounds := (slabBytes_bounds horder).1
  unfold ObjMemCache.Holds ObjMemCache.slabBytes
  rw [hobject, hpages]
  split_ifs with hin
  · have hsmall := (initializeCache_inBlock_iff old hsize).mp hin
    unfold slabSize pageSize at *
    omega
  · omega

/-- The loop in machine integers finds the capacity that the cache is given. -/
theorem initializeCache_counted32 (hsize : 0 < size) (horder : order ≤ 10)
    (hin : (initializeCache old size order).inBlock = true) :
    countObjects32 (pageSize <<< order) size (pageSize <<< order) 0 =
      some (initializeCache old size order).objsPerSlab := by
  have hsmall := (initializeCache_inBlock_iff old hsize).mp hin
  obtain ⟨hpage, hbytes⟩ := slabBytes_bounds horder
  have hzero : Fits (pageSize <<< order) size 0 := by
    unfold Fits slabSize
    unfold pageSize at *
    omega
  obtain ⟨n, hcount, -⟩ := countObjects_spec hsize (pageSize <<< order) 0 hzero (by omega)
  rw [countObjects32_eq hbytes (by omega) _ hzero, hcount, initializeCache_small old hsmall]
  have hflag : ObjMemCache.inBlock ⟨1, size, old.objsPerSlab, order⟩ = true := inBlock_of_one rfl
  simp only [calcNumObjects, hflag, if_true, ObjMemCache.slabBytes, hcount]

end built

/-! ### The placement -/

section place
variable {alloc : SlabState → List Nat → Nat → Option AllocResult} {st : SlabState} {base c : Nat}
  {supply : List Nat}

/-- The descriptor of a slab of the cache is in its block, or `kmalloc` has one. -/
def HasDescriptor (alloc : SlabState → List Nat → Nat → Option AllocResult) (st : SlabState)
    (supply : List Nat) (cache : ObjMemCache) : Prop :=
  cache.inBlock = true ∨
    ∃ addr st' supply', kmallocWith alloc st supply (slabSize + 4 * cache.objsPerSlab) =
      some (some addr, st', supply')

theorem newSlab_mem {addr : Nat} {st' : SlabState} {supply' : List Nat}
    (h : newSlab alloc st (base :: supply) c = some (addr, st', supply')) :
    (st'.slabs addr).mem = base + (st.caches c).memOffset := by
  cases hin : (st.caches c).inBlock with
  | true =>
      by_cases hobjs : (st.caches c).objsPerSlab = 0
      · simp [newSlab, hin, hobjs] at h
      · rw [newSlab_inner hin hobjs] at h
        obtain ⟨rfl, rfl, rfl⟩ := h
        simp [withSlab, freshSlab]
  | false =>
      simp only [newSlab, hin, Bool.false_eq_true, if_false, Option.bind_eq_bind] at h
      obtain ⟨⟨object, st₁, left⟩, -, hrest⟩ := Option.bind_eq_some_iff.mp h
      cases object with
      | none => simp at hrest
      | some object =>
          by_cases hobjs : (st.caches c).objsPerSlab = 0
          · simp [hobjs] at hrest
          · simp only [Option.bind_some, if_neg hobjs] at hrest
            obtain ⟨rfl, rfl, rfl⟩ := hrest
            simp [SlabState.setSlab, ObjMemCache.memOffset, hin]

theorem newSlab_returns (hobjs : (st.caches c).objsPerSlab ≠ 0) (h : HasDescriptor alloc st supply (st.caches c)) :
    ∃ result, newSlab alloc st (base :: supply) c = some result := by
  cases hin : (st.caches c).inBlock with
  | true => exact ⟨_, newSlab_inner hin hobjs⟩
  | false =>
      rcases h with hblock | ⟨addr, st', supply', hcall⟩
      · rw [hin] at hblock
        cases hblock
      · simp [newSlab, hin, hcall, hobjs]

end place

/-- The capacity of a cache is the largest that its slabs hold and at least one, the counting loop
ends with it, and `__new_slab` places that many objects behind the descriptor and inside the block. -/
theorem initializeCache_capacity (old : ObjMemCache) {size order : Nat} (hsize : 0 < size)
    (horder : order ≤ maxPgOrder) (hfit : size ≤ pageSize <<< order) {cache : ObjMemCache}
    (hcache : cache = initializeCache old size order) :
    IsGreatest {n | cache.Holds n} cache.objsPerSlab ∧ 1 ≤ cache.objsPerSlab ∧
    cache.objectSize = size ∧ cache.slabBytes = pageSize <<< order ∧
    (cache.inBlock = true ↔ size ≤ pageSize <<< order / 8) ∧
    (cache.inBlock = true →
      countObjects32 cache.slabBytes size cache.slabBytes 0 = some cache.objsPerSlab) ∧
    ∀ alloc st c base supply, st.caches c = cache →
      (HasDescriptor alloc st supply cache → ∃ result, newSlab alloc st (base :: supply) c = some result) ∧
      ∀ addr st' supply', newSlab alloc st (base :: supply) c = some (addr, st', supply') →
        (st'.slabs addr).mem = base + cache.memOffset ∧
        (cache.inBlock = true → addr = base ∧ base + slabSize + 4 * cache.objsPerSlab ≤ (st'.slabs addr).mem) ∧
        (st'.slabs addr).mem + cache.objsPerSlab * cache.objectSize ≤ base + cache.slabBytes := by
  obtain ⟨hsized, hobject, hpages⟩ := initializeCache_sized old hsize horder
  have hgreatest : IsGreatest {n | (initializeCache old size order).Holds n} _ :=
    initializeCache_greatest old hsize
  have hone := hgreatest.2 (initializeCache_holds_one old hsize horder hfit)
  have hin : (initializeCache old size order).inBlock = true ↔ _ := initializeCache_inBlock_iff old hsize
  have hbytes : (initializeCache old size order).slabBytes = pageSize <<< order := by
    rw [ObjMemCache.slabBytes, hpages]
  have hcounted := initializeCache_counted32 old hsize horder
  rw [← hcache] at hsized hobject hgreatest hone hin hbytes hcounted
  refine ⟨hgreatest, hone, hobject, hbytes, hin, by rwa [hbytes], ?_⟩
  intro alloc st c base supply hst
  refine ⟨fun hdesc => newSlab_returns (by rw [hst]; omega) (by rwa [hst]), ?_⟩
  intro addr st' supply' hnew
  have hmem := newSlab_mem hnew
  rw [hst] at hmem
  have hends := hsized.fits
  refine ⟨hmem, ?_, by omega⟩
  intro hblock
  have hinner : newSlab alloc st (base :: supply) c = some (base, withSlab st ⟨c, base, base⟩, supply) :=
    newSlab_inner (by rwa [hst]) (by rw [hst]; omega)
  rw [hnew] at hinner
  obtain ⟨rfl, -, -⟩ := hinner
  refine ⟨rfl, ?_⟩
  rw [hmem, ObjMemCache.memOffset, if_pos hblock]
  omega

theorem initializeCache_capacity_kmalloc64 :
    (initializeCache ⟨0, 0, 0, 0⟩ 64 0).objsPerSlab = 59 ∧
      IsGreatest {n | (initializeCache ⟨0, 0, 0, 0⟩ 64 0).Holds n}
        (initializeCache ⟨0, 0, 0, 0⟩ 64 0).objsPerSlab :=
  ⟨by decide +kernel, (initializeCache_capacity ⟨0, 0, 0, 0⟩ (by decide) (by decide) (by decide) rfl).1⟩

end Lucix.ObjCache
