import Lucix.ZoneAlloc

/-! The contract of `alloc_pages`: the first zone that can serve the request does, and
a request that no zone can serve should return null. There the source goes on to clear
the page and its count through the null pointer, so the call is not defined. -/
namespace Lucix.PageAlloc
open Buddy (Block)

/-- The free lists `F` of all zones and their page counters agree. -/
structure Agrees (st : AllocState) (F : Nat → Nat → List Nat) : Prop where
  mapsApart : st.MapsApart
  maxOrder_le : ∀ z < st.numZones, (st.zones z).maxOrder ≤ maxPgOrder
  lists : ∀ z < st.numZones, FreeLists (st.zones z) (F z)
  counted : ∀ z < st.numZones, (st.zones z).availablePages =
    Buddy.pageCount (F z) ((st.zones z).maxOrder + 1)

/-- The zone is mapped and has a free block of the order or above. -/
def Serves (st : AllocState) (F : Nat → Nat → List Nat) (flags order z : Nat) : Prop :=
  flags &&& pgallocKernel ≠ 0 ∧ (st.zones z).flags &&& memzoneIdentityMapped ≠ 0 ∧
    ∃ o, order ≤ o ∧ o ≤ (st.zones z).maxOrder ∧ F z o ≠ []

/-- The lowest zone that serves the request. -/
structure FirstServes (st : AllocState) (F : Nat → Nat → List Nat) (flags order z : Nat) : Prop where
  lt : z < st.numZones
  serves : Serves st F flags order z
  lowest : ∀ y < z, ¬ Serves st F flags order y

/-- The state with a block taken from zone `z`: its lists and bits are those of `zone`, its
counter is smaller by the block, and the count of the page is cleared. -/
def AllocState.taken (st : AllocState) (z page order : Nat) (zone : MemoryZone) : AllocState :=
  st.setZone z { zone with
    availablePages := (st.zones z).availablePages - 2 ^ order
    pageRefcnt := Function.update (st.zones z).pageRefcnt page 0 }

/-- What a call should do: take a block from the lowest zone that serves it, or return null and
leave everything as it is. -/
def AllocMeets (getPageVaddr : Nat → Nat) (st : AllocState) (F : Nat → Nat → List Nat)
    (flags order : Nat) : Prop :=
  (∃ z page zone F', FirstServes st F flags order z ∧ Takes (st.zones z) (F z) order page zone F' ∧
    2 ^ order ≤ (st.zones z).availablePages ∧
    allocPages getPageVaddr st flags order =
      some ((st.zones z).pageAddr page, st.taken z page order zone)) ∨
  ((∀ z < st.numZones, ¬ Serves st F flags order z) ∧
    allocPages getPageVaddr st flags order = some (0, st))

/-- Some zone serves the request; its bitmaps have the bits of the block that is taken, and the
frame of that block is clear of the metadata. -/
def ServesClear (getPageVaddr : Nat → Nat) (st : AllocState) (F : Nat → Nat → List Nat)
    (flags order : Nat) : Prop :=
  ∃ z o page, FirstServes st F flags order z ∧ FirstBlock (F z) order o page ∧
    (st.zones z).TogglesFit page order o ∧
    st.inMetadata (va2pa (getPageVaddr ((st.zones z).pageAddr page))) (pageSize * 2 ^ order) = false

section zones
variable {st : AllocState} {F : Nat → Nat → List Nat} {flags order z : Nat}

theorem Agrees.available (h : Agrees st F) (hz : z < st.numZones) (hs : Serves st F flags order z) :
    2 ^ order ≤ (st.zones z).availablePages := by
  obtain ⟨-, -, o, hle, hmax, hne⟩ := hs
  have hcount := Buddy.pageCount_update (F := F z) (Nat.lt_succ_of_le hmax) []
  have hlen : 1 ≤ (F z o).length := List.length_pos_iff.mpr hne
  rw [List.length_nil, Nat.mul_zero, Nat.add_zero, ← h.counted z hz] at hcount
  calc 2 ^ order ≤ 2 ^ o := Nat.pow_le_pow_right (by norm_num) hle
    _ ≤ 2 ^ o * (F z o).length := Nat.le_mul_of_pos_right _ hlen
    _ ≤ (st.zones z).availablePages := by omega

theorem Agrees.passes (h : Agrees st F) (hz : z < st.numZones) (hs : Serves st F flags order z) :
    eligible (st.zones z) flags order = true := by
  have havail := h.available hz hs
  obtain ⟨hkernel, hmapped, o, hle, hmax, -⟩ := hs
  simp only [eligible, Bool.and_eq_true, decide_eq_true_eq, Bool.not_eq_true',
    decide_eq_false_iff_not, not_or, Nat.not_lt]
  exact ⟨⟨hkernel, hmapped⟩, hle.trans hmax, havail⟩

/-- A zone that passes the tests either serves the request or has only empty lists. -/
theorem serves_of_eligible (helig : eligible (st.zones z) flags order = true) :
    order ≤ (st.zones z).maxOrder ∧
      (Serves st F flags order z ↔ ¬ NoneFrom (st.zones z) (F z) order) := by
  simp only [eligible, Bool.and_eq_true, decide_eq_true_eq, Bool.not_eq_true',
    decide_eq_false_iff_not, not_or, Nat.not_lt] at helig
  obtain ⟨⟨hkernel, hmapped⟩, hle, -⟩ := helig
  refine ⟨hle, ?_⟩
  simp only [NoneFrom, not_forall, exists_prop]
  exact ⟨fun hs => hs.2.2, fun hs => ⟨hkernel, hmapped, hs⟩⟩

theorem Agrees.sited (h : Agrees st F) (hz : z < st.numZones) : Sited st z :=
  ⟨h.mapsApart, hz, h.maxOrder_le z hz⟩

/-- The zone loop stops at the first zone that serves the request. -/
theorem Agrees.zones_loop (h : Agrees st F) (flags order : Nat) {n k : Nat}
    (hnk : k + n = st.numZones) (hbefore : ∀ y < k, ¬ Serves st F flags order y) :
    (allocFromZones flags order n k st = some (none, st) ∧
      ∀ z < st.numZones, ¬ Serves st F flags order z) ∨
    ∃ z o page, FirstServes st F flags order z ∧ FirstBlock (F z) order o page ∧
      (((st.zones z).TogglesFit page order o ∧ ∃ zone F', Takes (st.zones z) (F z) order page zone F' ∧
          allocFromZones flags order n k st = some (some (z, page), st.setZone z
            { zone with availablePages := (st.zones z).availablePages - 2 ^ order })) ∨
        (¬ (st.zones z).TogglesFit page order o ∧ allocFromZones flags order n k st = none)) := by
  induction n generalizing k with
  | zero => exact .inl ⟨rfl, fun z hz => hbefore z (by omega)⟩
  | succ n ih =>
      have hk : k < st.numZones := by omega
      have hnext : ¬ Serves st F flags order k → ∀ y < k + 1, ¬ Serves st F flags order y := by
        intro hnot y hy
        rcases Nat.lt_succ_iff_lt_or_eq.mp hy with hlt | rfl
        · exact hbefore y hlt
        · exact hnot
      by_cases helig : eligible (st.zones k) flags order = true
      · obtain ⟨hle, hiff⟩ := @serves_of_eligible st F flags order k helig
        rcases (h.lists k hk).runs (h.sited hk) hle with ⟨hnone, hcall⟩ | ⟨o, page, hmax, hblock, hcase⟩
        · have hloop : allocFromZones flags order (n + 1) k st =
              allocFromZones flags order n (k + 1) st := by
            simp only [allocFromZones, if_pos helig, hcall, Option.bind_eq_bind, Option.bind_some]
          rw [hloop]
          exact ih (by omega) (hnext fun hs => hiff.mp hs hnone)
        · right
          have hserves : Serves st F flags order k := by
            obtain ⟨t, hfirst⟩ := hblock.first
            refine hiff.mpr fun hnone => ?_
            rw [hnone o hblock.le hmax] at hfirst
            contradiction
          refine ⟨k, o, page, ⟨hk, hserves, hbefore⟩, hblock, ?_⟩
          rcases hcase with ⟨hfits, zone, F', hcall, htakes⟩ | ⟨hnot, hcall⟩
          · left
            have havail : zone.availablePages = (st.zones k).availablePages := by rw [htakes.only]
            refine ⟨hfits, zone, F', htakes, ?_⟩
            simp only [allocFromZones, if_pos helig, hcall, Option.bind_eq_bind, Option.bind_some,
              AllocState.setZone_zones, if_true, AllocState.setZone_setZone, havail]
          · right
            refine ⟨hnot, ?_⟩
            simp only [allocFromZones, if_pos helig, hcall, Option.bind_eq_bind, Option.bind_none]
      · rw [allocFromZones, if_neg helig]
        exact ih (by omega) (hnext fun hs => helig (h.passes hk hs))

theorem FirstServes.unique {y : Nat} (hz : FirstServes st F flags order z)
    (hy : FirstServes st F flags order y) : y = z := by
  rcases Nat.lt_trichotomy y z with hlt | heq | hgt
  · exact absurd hy.serves (hz.lowest y hlt)
  · exact heq
  · exact absurd hz.serves (hy.lowest z hgt)

theorem Takes.firstBlock {zone zone' : MemoryZone} {G G' : Nat → List Nat} {page : Nat}
    (h : Takes zone G order page zone' G') : ∃ o, FirstBlock G order o page := by
  obtain ⟨o, t, ho, -, hbelow, hfirst⟩ := h.first
  exact ⟨o, ho, hbelow, t, hfirst⟩

/-- A call that finds a block takes it, unless clearing it would run over the metadata. -/
theorem allocPages_taken (v : Nat → Nat) {page : Nat} {zone : MemoryZone} {G : Nat → List Nat}
    (htakes : Takes (st.zones z) (F z) order page zone G)
    (hloop : allocFromZones flags order st.numZones 0 st = some (some (z, page), st.setZone z
      { zone with availablePages := (st.zones z).availablePages - 2 ^ order })) :
    allocPages v st flags order =
      if st.inMetadata (va2pa (v ((st.zones z).pageAddr page))) (pageSize * 2 ^ order) then none
      else some ((st.zones z).pageAddr page, st.taken z page order zone) := by
  have hl : zone.toZoneLayout = (st.zones z).toZoneLayout := htakes.only.layout
  have haddr : zone.pageAddr page = (st.zones z).pageAddr page := by
    simp only [ZoneLayout.pageAddr, hl]
  have hrefcnt : zone.pageRefcnt = (st.zones z).pageRefcnt := by rw [htakes.only]
  have hmeta : ∀ a len, (st.setZone z { zone with
      availablePages := (st.zones z).availablePages - 2 ^ order }).inMetadata a len =
        st.inMetadata a len := by
    intro a len
    have hsame : SameLayout st (st.setZone z { zone with
      availablePages := (st.zones z).availablePages - 2 ^ order }) := SameLayout.setZone hl
    simp only [AllocState.inMetadata, hsame.biggest, hsame.used, hsame.layout]
  simp only [allocPages, hloop, Option.bind_eq_bind, Option.bind_some, AllocState.setZone_zones,
    if_true, haddr, hmeta, AllocState.setZone_setZone, ← hrefcnt, AllocState.taken]

end zones

/-- In every state whose free lists and counters agree, `alloc_pages` does what it should exactly
when some zone serves the request, the bitmaps of that zone have the bits of its first block and
the frame of that block is clear of the metadata. -/
theorem alloc_meets_iff (getPageVaddr : Nat → Nat) (st : AllocState) (F : Nat → Nat → List Nat)
    (flags order : Nat) (h : Agrees st F) :
    AllocMeets getPageVaddr st F flags order ↔ ServesClear getPageVaddr st F flags order := by
  rcases h.zones_loop flags order (Nat.zero_add _) (fun y hy => absurd hy (Nat.not_lt_zero y)) with
    ⟨hloop, hnone⟩ | ⟨z, o, page, hfirst, hblock, hcase⟩
  · -- the source goes on with a null pointer
    have hcall : allocPages getPageVaddr st flags order = none := by
      simp only [allocPages, hloop, Option.bind_eq_bind, Option.bind_some]
    refine iff_of_false ?_ ?_
    · rintro (⟨z, page, zone, F', hfirst, -⟩ | ⟨-, hnull⟩)
      · exact hnone z hfirst.lt hfirst.serves
      · rw [hcall] at hnull
        contradiction
    · rintro ⟨z, o, page, hfirst, -⟩
      exact hnone z hfirst.lt hfirst.serves
  · have hclear : ServesClear getPageVaddr st F flags order ↔ (st.zones z).TogglesFit page order o ∧
        st.inMetadata (va2pa (getPageVaddr ((st.zones z).pageAddr page))) (pageSize * 2 ^ order) =
          false := by
      refine ⟨?_, fun hc => ⟨z, o, page, hfirst, hblock, hc⟩⟩
      rintro ⟨y, o', page', hfirst', hblock', hc⟩
      obtain rfl := hfirst.unique hfirst'
      obtain ⟨rfl, rfl⟩ := hblock.unique hblock'
      exact hc
    rw [hclear]
    rcases hcase with ⟨hfits, zone, F', htakes, hloop⟩ | ⟨hnot, hloop⟩
    · have hcall := allocPages_taken getPageVaddr htakes hloop
      constructor
      · rintro (⟨y, page', zone', G, hfirst', htakes', -, hcall'⟩ | ⟨hnone, -⟩)
        · obtain rfl := hfirst.unique hfirst'
          obtain ⟨o', hblock'⟩ := htakes'.firstBlock
          obtain ⟨rfl, rfl⟩ := hblock.unique hblock'
          refine ⟨hfits, ?_⟩
          rw [hcall'] at hcall
          split_ifs at hcall with hmeta
          exact Bool.eq_false_of_not_eq_true hmeta
        · exact absurd hfirst.serves (hnone z hfirst.lt)
      · rintro ⟨-, hmeta⟩
        refine .inl ⟨z, page, zone, F', hfirst, htakes, h.available hfirst.lt hfirst.serves, ?_⟩
        rw [hcall, hmeta, if_neg Bool.false_ne_true]
    · -- a toggle behind the end of a bitmap
      have hcall : allocPages getPageVaddr st flags order = none := by
        simp only [allocPages, hloop, Option.bind_eq_bind, Option.bind_none]
      refine iff_of_false ?_ fun hc => hnot hc.1
      rintro (⟨_, _, _, _, -, -, -, hcall'⟩ | ⟨-, hcall'⟩) <;> rw [hcall] at hcall' <;> contradiction

section booted
variable {phys : PhysMem} {info : CpuMemoryInfo} {b : Nat} {start : Nat → Nat} {st : AllocState}

theorem Booted.agrees (h : Booted phys info b start st) :
    Agrees st fun z => (initialStore (st.zones z)).free := by
  refine ⟨h.mapsApart, fun z hz => ?_, fun z hz => ?_, fun z hz => ?_⟩
  · rw [(h.placed z (h.numZones ▸ hz)).maxOrder]
    exact getMaxOrder_le _
  · exact (h.zone_rep hz).1.freeLists (initialStore_tiled (h.dvd_usable hz))
  · rw [(h.counted z hz).2]
    exact Buddy.pageCount_congr fun o _ => congrFun (congrArg Buddy.State.free (h.zone_rep hz).2.1) o

end booted

/-- One of the sixteen pages at address zero is taken. -/
theorem alloc_meets_zero : ∃ st, memInit zeroMem (singleZone zoneAtZero) = some st ∧
    AllocMeets vaddrAtZero st (fun z => (initialStore (st.zones z)).free) pgallocKernel 0 := by
  obtain ⟨st, start, hst, hboot⟩ := memInit_of_accepted zeroMem accepted_zoneAtZero
  refine ⟨st, hst, (alloc_meets_iff vaddrAtZero st _ pgallocKernel 0 hboot.agrees).mpr ?_⟩
  have heval : (memInit zeroMem (singleZone zoneAtZero)).all (fun st =>
      decide (st.numZones = 1 ∧ (st.zones 0).flags &&& memzoneIdentityMapped ≠ 0 ∧
        (st.zones 0).maxOrder = 3 ∧ (initialStore (st.zones 0)).free 3 = [0] ∧
        (∀ k < 3, (initialStore (st.zones 0)).free k = [] ∧ (st.zones 0).map k ≠ 0 ∧
          4 * (Buddy.pairOf 0 k / 32) + 4 ≤ (st.zones 0).bitmapSizes k) ∧
        st.inMetadata (va2pa (vaddrAtZero ((st.zones 0).pageAddr 0))) (pageSize * 2 ^ 0) = false)) =
      true := by decide +kernel
  rw [hst] at heval
  obtain ⟨hnum, hmapped, hmax, hthree, hbelow, hclear⟩ := of_decide_eq_true heval
  refine ⟨0, 3, 0, ⟨by omega, ⟨by decide, hmapped, 3, by omega, by omega, by simp [hthree]⟩, by simp⟩,
    ⟨by omega, fun k _ hk => (hbelow k hk).1, [], hthree⟩, fun k _ _ hk => ?_, hclear⟩
  exact (hbelow k (hmax ▸ hk)).2

/-- A request without `PGALLOC_KERNEL` does not return null. -/
theorem unflagged_request_fails : ¬ ∀ (getPageVaddr : Nat → Nat) (st : AllocState)
    (F : Nat → Nat → List Nat) (flags order : Nat), Agrees st F → order ≤ maxPgOrder →
    AllocMeets getPageVaddr st F flags order := by
  intro h
  obtain ⟨st, start, hst, hboot⟩ := memInit_of_accepted zeroMem accepted_zoneAtZero
  rcases h vaddrAtZero st _ 0 0 hboot.agrees (Nat.zero_le _) with
    ⟨z, -, -, -, hfirst, -⟩ | ⟨-, hcall⟩
  · exact hfirst.serves.1 rfl
  · have hnone : (memInit zeroMem (singleZone zoneAtZero)).all
        (fun st => (allocPages vaddrAtZero st 0 0).isNone) = true := by decide +kernel
    rw [hst] at hnone
    have hnull : (allocPages vaddrAtZero st 0 0).isNone = true := hnone
    rw [hcall] at hnull
    contradiction

end Lucix.PageAlloc
