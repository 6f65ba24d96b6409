import Lucix.FileIo

/-! What a page mapping means as a sequence of bytes, and what the steps of the
two loops do to it. `Tracks` follows one file from the start of a call: its bytes
are a known sequence and no page of anybody else has changed. -/
namespace Lucix.FileIo
open Execution PagedBytes

/-- The bytes of a file; a missing page reads as zeros. -/
def PageMapping.content (heap : PageHeap) (map : PageMapping) : Nat → UInt8 :=
  view pageSize 0 fun i => (map.pages[i]?.join).map fun p => (heap.pages p).bytes

/-- A page belongs to the file. -/
def PageMapping.Owns (map : PageMapping) (p : Nat) : Prop := ∃ i : Nat, map.pages[i]? = some (some p)

/-- The array has the slots that are counted, and no page is in two of them. It came from
`kmalloc`, whose largest object has room for 4096 pointers. -/
structure PageMapping.Sound (heap : PageHeap) (map : PageMapping) : Prop where
  count_eq : map.nrPages = map.pages.length
  few : map.pages.length ≤ 4096
  inj : ∀ i j p : Nat, map.pages[i]? = some (some p) → map.pages[j]? = some (some p) → i = j
  handed : ∀ p, map.Owns p → p < heap.next

/-- The slots that are counted, without those that the size class of `kmalloc` has left behind them. -/
def PageMapping.counted (map : PageMapping) : PageMapping := { map with pages := map.pages.take map.nrPages }

/-- The array has the slots that are counted. It came from `kmalloc`, whose size class may leave some
more and whose largest object has room for 4096 pointers. -/
structure PageMapping.Allocated (map : PageMapping) : Prop where
  slots : map.nrPages ≤ map.pages.length
  few : map.pages.length ≤ 4096

/-- The pages of the file are in the slots that are counted; what is in the others is not known. -/
structure PageMapping.Held (heap : PageHeap) (map : PageMapping) : Prop where
  allocated : map.Allocated
  counted : map.counted.Sound heap

/-- The file has the bytes `data` now, in the pages it had before and new ones. -/
structure Follows (heap₀ : PageHeap) (map₀ : PageMapping) (data : Nat → UInt8) (heap : PageHeap)
    (map : PageMapping) : Prop where
  sound : map.Sound heap
  content_eq : map.content heap = data
  next_le : heap₀.next ≤ heap.next
  others : ∀ p < heap₀.next, ¬ map₀.Owns p →
    ¬ map.Owns p ∧ (heap.pages p).bytes = (heap₀.pages p).bytes

/-- The same, in an array of as many slots. -/
structure Tracks (heap₀ : PageHeap) (map₀ : PageMapping) (data : Nat → UInt8) (heap : PageHeap)
    (map : PageMapping) : Prop extends Follows heap₀ map₀ data heap map where
  length_eq : map.pages.length = map₀.pages.length

section steps
variable {heap₀ heap heap' : PageHeap} {map₀ map : PageMapping} {data : Nat → UInt8} {i p : Nat}

theorem Follows.start (h : map.Sound heap) : Follows heap map (map.content heap) heap map :=
  ⟨h, rfl, Nat.le_refl _, fun _ _ hp => ⟨hp, rfl⟩⟩

theorem Tracks.start (h : map.Sound heap) : Tracks heap map (map.content heap) heap map :=
  ⟨Follows.start h, rfl⟩

theorem Follows.of_bytes (h : Follows heap₀ map₀ data heap map) (hnext : heap'.next = heap.next)
    (hbytes : ∀ q, (heap'.pages q).bytes = (heap.pages q).bytes) :
    Follows heap₀ map₀ data heap' map := by
  refine ⟨{ h.sound with handed := fun q hq => hnext ▸ h.sound.handed q hq }, ?_,
    hnext ▸ h.next_le, fun q hq ho => ⟨(h.others q hq ho).1, (hbytes q).trans (h.others q hq ho).2⟩⟩
  rw [← h.content_eq]
  simp only [PageMapping.content, hbytes]

theorem PageMapping.Sound.counted_eq (h : map.Sound heap) : map.counted = map := by
  rw [PageMapping.counted, List.take_of_length_le h.count_eq.ge]

theorem PageMapping.Sound.held (h : map.Sound heap) : map.Held heap :=
  ⟨⟨h.count_eq.le, h.few⟩, h.counted_eq.symm ▸ h⟩

theorem pageMkDirty_bytes (heap : PageHeap) (p q : Nat) :
    ((heap.pageMkDirty p).pages q).bytes = (heap.pages q).bytes := by
  by_cases hq : q = p
  · subst hq
    simp [PageHeap.pageMkDirty, PageHeap.setPage]
  · simp [PageHeap.pageMkDirty, PageHeap.setPage, hq]

/-- The heap with a cleared page for a cache. -/
def PageHeap.addCachePage (heap : PageHeap) : PageHeap :=
  (heap.allocPage.2.pageRef heap.next).pageSetUsage heap.next pageUsageCache

/-- The mapping with a page in slot `i`. -/
def PageMapping.withPage (map : PageMapping) (i p : Nat) : PageMapping :=
  { map with pages := map.pages.set i (some p) }

theorem addCachePage_new (heap : PageHeap) : (heap.addCachePage.pages heap.next).bytes = (fun _ => 0) ∧
    (heap.addCachePage.pages heap.next).refcnt = 1 := by
  simp [PageHeap.addCachePage, PageHeap.allocPage, PageHeap.pageRef, PageHeap.pageSetUsage, PageHeap.setPage]

theorem addCachePage_old {q : Nat} (hq : q ≠ heap.next) : heap.addCachePage.pages q = heap.pages q := by
  simp [PageHeap.addCachePage, PageHeap.allocPage, PageHeap.pageRef, PageHeap.pageSetUsage,
    PageHeap.setPage, hq]

theorem newCachePage_eq (hi : i < map.pages.length) :
    newCachePage heap map i = some (heap.next, heap.addCachePage, map.withPage i heap.next) := by
  simp only [FileIo.newCachePage, PageHeap.allocPage, PageMapping.setPage, if_pos hi,
    Option.bind_eq_bind, Option.bind_some]
  rfl

theorem withPage_self (hi : i < map.pages.length) : (map.withPage i p).pages[i]? = some (some p) :=
  List.getElem?_set_self hi

theorem withPage_other {j : Nat} (hj : j ≠ i) : (map.withPage i p).pages[j]? = map.pages[j]? :=
  List.getElem?_set_ne (Ne.symm hj)

theorem withPage_owns {q : Nat} (h : (map.withPage i p).Owns q) : q = p ∨ map.Owns q := by
  obtain ⟨j, hj⟩ := h
  by_cases hji : j = i
  · subst hji
    have hlt : j < (map.withPage j p).pages.length := (List.getElem?_eq_some_iff.mp hj).1
    rw [PageMapping.withPage, List.length_set] at hlt
    rw [withPage_self hlt] at hj
    simp only [Option.some.injEq] at hj
    exact .inl hj.symm
  · exact .inr ⟨j, withPage_other hji ▸ hj⟩

theorem PageMapping.Sound.fresh (h : map.Sound heap) (j : Nat) : map.pages[j]? ≠ some (some heap.next) :=
  fun hj => Nat.lt_irrefl _ (h.handed _ ⟨j, hj⟩)

theorem PageMapping.Sound.withPage (h : map.Sound heap) (hi : i < map.pages.length) :
    (map.withPage i heap.next).Sound heap.addCachePage where
  count_eq := by
    rw [PageMapping.withPage, List.length_set]
    exact h.count_eq
  few := by
    rw [PageMapping.withPage, List.length_set]
    exact h.few
  inj := by
    intro j k q hj hk
    by_cases hji : j = i
    · by_cases hki : k = i
      · rw [hji, hki]
      · subst hji
        rw [withPage_self hi] at hj
        rw [withPage_other hki, ← hj] at hk
        exact absurd hk (h.fresh k)
    · rw [withPage_other hji] at hj
      by_cases hki : k = i
      · subst hki
        rw [withPage_self hi] at hk
        rw [← hk] at hj
        exact absurd hj (h.fresh j)
      · exact h.inj j k q hj (withPage_other hki ▸ hk)
  handed := by
    intro q hq
    have hnext : heap.addCachePage.next = heap.next + 1 := rfl
    rcases withPage_owns hq with rfl | hq
    · omega
    · have := h.handed q hq
      omega

theorem PageMapping.Sound.content_withPage (h : map.Sound heap) (hi : map.pages[i]? = some none) :
    (map.withPage i heap.next).content heap.addCachePage = map.content heap := by
  have hlt : i < map.pages.length := (List.getElem?_eq_some_iff.mp hi).1
  refine view_fill (i := i) (by simp [hi]) ?_ fun j hj => ?_
  · simp only [withPage_self hlt, Option.join_some, Option.map_some, (addCachePage_new heap).1]
  · simp only [withPage_other hj]
    cases hjs : map.pages[j]?.join with
    | none => rfl
    | some q =>
        have hq : q ≠ heap.next := by
          rintro rfl
          exact h.fresh j (Option.join_eq_some_iff.mp hjs)
        simp only [Option.map_some, addCachePage_old hq]

theorem Follows.withPage (h : Follows heap₀ map₀ data heap map) (hi : map.pages[i]? = some none) :
    Follows heap₀ map₀ data heap.addCachePage (map.withPage i heap.next) := by
  have hlt : i < map.pages.length := (List.getElem?_eq_some_iff.mp hi).1
  refine ⟨h.sound.withPage hlt, ?_, ?_, ?_⟩
  · rw [← h.content_eq]
    exact h.sound.content_withPage hi
  · exact Nat.le_succ_of_le h.next_le
  · intro q hq ho
    have hne : q ≠ heap.next := by
      have := h.next_le
      omega
    obtain ⟨hno, hbytes⟩ := h.others q hq ho
    refine ⟨fun hown => (withPage_owns hown).elim hne hno, ?_⟩
    rw [addCachePage_old hne, hbytes]

theorem Tracks.newCachePage (h : Tracks heap₀ map₀ data heap map) (hi : map.pages[i]? = some none) :
    ∃ p heap' map', newCachePage heap map i = some (p, heap', map') ∧
      Tracks heap₀ map₀ data heap' map' ∧ map'.pages[i]? = some (some p) := by
  have hlt : i < map.pages.length := (List.getElem?_eq_some_iff.mp hi).1
  refine ⟨heap.next, heap.addCachePage, map.withPage i heap.next, newCachePage_eq hlt,
    ⟨h.toFollows.withPage hi, ?_⟩, withPage_self hlt⟩
  rw [← h.length_eq]
  exact List.length_set

theorem Tracks.cachePage (h : Tracks heap₀ map₀ data heap map) (hi : i < map.pages.length) :
    ∃ p heap' map', cachePage heap map i = some (p, heap', map') ∧
      Tracks heap₀ map₀ data heap' map' ∧ map'.pages[i]? = some (some p) := by
  cases hslot : map.pages[i]? with
  | none =>
      rw [List.getElem?_eq_none_iff] at hslot
      omega
  | some slot =>
      cases slot with
      | some p => exact ⟨p, heap, map, by simp only [FileIo.cachePage, hslot], h, hslot⟩
      | none =>
          obtain ⟨p, heap', map', hcall, htracks, hp⟩ := h.newCachePage hslot
          exact ⟨p, heap', map', by simp only [FileIo.cachePage, hslot, hcall], htracks, hp⟩

/-- A page is found only inside the array, which keeps its length. -/
theorem cachePage_some {map' : PageMapping} (h : cachePage heap map i = some (p, heap', map')) :
    i < map.pages.length ∧ map'.nrPages = map.nrPages ∧ map'.pages.length = map.pages.length := by
  cases hslot : map.pages[i]? with
  | none => simp [FileIo.cachePage, hslot] at h
  | some slot =>
      have hlt : i < map.pages.length := (List.getElem?_eq_some_iff.mp hslot).1
      refine ⟨hlt, ?_⟩
      cases slot with
      | some q =>
          simp only [FileIo.cachePage, hslot, Option.some.injEq, Prod.mk.injEq] at h
          rw [← h.2.2]
          exact ⟨rfl, rfl⟩
      | none =>
          simp only [FileIo.cachePage, hslot, newCachePage_eq hlt, Option.some.injEq, Prod.mk.injEq] at h
          rw [← h.2.2]
          exact ⟨rfl, List.length_set⟩

theorem Follows.copyIn (h : Follows heap₀ map₀ data heap map) (hi : map.pages[i]? = some (some p))
    {off n : Nat} (src : Nat → UInt8) (hoff : off + n ≤ pageSize) :
    ∃ heap', heap.copyIn p off src n = some heap' ∧
      Follows heap₀ map₀ (overwrite data (i * pageSize + off) src n) heap' map := by
  let heap' := heap.setPage p
    { heap.pages p with bytes := overwrite (heap.pages p).bytes off src n }
  have hself : (heap'.pages p).bytes = overwrite (heap.pages p).bytes off src n := by
    simp [heap', PageHeap.setPage]
  have hold : ∀ q, q ≠ p → heap'.pages q = heap.pages q := by
    intro q hq
    simp [heap', PageHeap.setPage, hq]
  have hslot : (map.pages[i]?.join).map (fun p => (heap.pages p).bytes) =
      some (heap.pages p).bytes := by
    simp only [hi, Option.join_some, Option.map_some]
  have hslot' : (map.pages[i]?.join).map (fun p => (heap'.pages p).bytes) =
      some (overwrite (heap.pages p).bytes off src n) := by
    simp only [hi, Option.join_some, Option.map_some, hself]
  refine ⟨heap', by simp only [PageHeap.copyIn, if_pos hoff, heap'],
    { h.sound with handed := h.sound.handed }, ?_, h.next_le, fun q hq ho => ?_⟩
  · rw [← h.content_eq]
    refine view_store (by decide) hoff hslot hslot' fun j hj => ?_
    cases hjs : map.pages[j]?.join with
    | none => rfl
    | some q =>
        have hq : q ≠ p := by
          rintro rfl
          exact hj (h.sound.inj j i q (Option.join_eq_some_iff.mp hjs) hi)
        simp only [Option.map_some, hold q hq]
  · obtain ⟨hno, hbytes⟩ := h.others q hq ho
    have hne : q ≠ p := by
      rintro rfl
      exact hno ⟨i, hi⟩
    exact ⟨hno, by rw [hold q hne, hbytes]⟩

theorem Tracks.copyOut (h : Tracks heap₀ map₀ data heap map) (hi : map.pages[i]? = some (some p))
    {off n : Nat} (hoff : off + n ≤ pageSize) :
    heap.copyOut p off n = some ((List.range n).map fun k => data (i * pageSize + off + k)) := by
  have hbytes : ∀ k < n, data (i * pageSize + off + k) = (heap.pages p).bytes (off + k) := by
    intro k hk
    rw [← h.content_eq, Nat.add_assoc]
    exact view_of_page (by omega) (by simp only [hi, Option.join_some, Option.map_some])
  simp only [PageHeap.copyOut]
  split_ifs with hn hin
  · simp [hn]
  · rw [Option.some.injEq]
    refine List.map_congr_left fun k hk => ?_
    rw [hbytes k (List.mem_range.mp hk), Int.toNat_natCast]
  · exact absurd ⟨by omega, by omega⟩ hin

end steps
end Lucix.FileIo
