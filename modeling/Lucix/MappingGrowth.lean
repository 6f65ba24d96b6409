import Lucix.FileWrite

/-! Writing behind the end of a page mapping. `ramfs_mapping_write_begin` counts one more
page whatever the position is, and it stores the new page into the old array: the array
that it has allocated for it is never put in force. -/
namespace Lucix.FileIo

/-- What `ramfs_mapping_write_begin` should do at a position: it touches no slot outside the array,
the mapping that it leaves covers the position, no page is lost or moved, and the page of the
position is the one that it returns. -/
structure GrowthSafe (heap : PageHeap) (map : PageMapping) (pos p : Nat) (heap' : PageHeap)
    (map' : PageMapping) : Prop where
  returns : ramfsMappingWriteBegin heap map pos = some (p, heap', map')
  slots : map'.nrPages ≤ map'.pages.length
  covered : pos / pageSize < map'.nrPages
  kept : ∀ i q, i < map.nrPages → map.pages[i]? = some (some q) → map'.pages[i]? = some (some q)
  others : ∀ i < map'.nrPages, (i < map.nrPages → map.pages[i]? = some none) →
    map'.pages[i]? = some none ∨ ∃ q, map'.pages[i]? = some (some q) ∧ heap.next ≤ q
  result : map'.pages[pos / pageSize]? = some (some p)

section growth
variable {heap heap' : PageHeap} {map map' : PageMapping} {i p pos : Nat}

theorem cachePage_fills (hi : i < map.pages.length) :
    ∃ p heap' map', cachePage heap map i = some (p, heap', map') ∧ map'.nrPages = map.nrPages ∧
      map'.pages.length = map.pages.length ∧ map'.pages[i]? = some (some p) ∧
      (map.pages[i]? = some none → p = heap.next) ∧
      ∀ j, (map.pages[i]? = some none → j ≠ i) → map'.pages[j]? = map.pages[j]? := by
  have hslot : map.pages[i]? = some map.pages[i] := List.getElem?_eq_getElem hi
  cases hpage : map.pages[i] with
  | some q =>
      rw [hpage] at hslot
      refine ⟨q, heap, map, by simp only [cachePage, hslot], rfl, rfl, hslot, ?_, fun _ _ => rfl⟩
      intro hnone
      exact absurd (hslot.symm.trans hnone) (by simp)
  | none =>
      rw [hpage] at hslot
      refine ⟨heap.next, heap.addCachePage, map.withPage i heap.next, ?_, rfl, List.length_set,
        withPage_self hi, fun _ => rfl, fun j hj => withPage_other (hj hslot)⟩
      simp only [cachePage, hslot, newCachePage_eq hi]

theorem growth_inside (hslots : map.nrPages ≤ map.pages.length) (hi : pos / pageSize < map.nrPages) :
    ∃ p heap' map', GrowthSafe heap map pos p heap' map' := by
  obtain ⟨p, heap', map', hcall, hcount, hlen, hpage, hnew, hrest⟩ :=
    @cachePage_fills heap map (pos / pageSize) (by omega)
  rw [← writeBegin_inside (by omega)] at hcall
  refine ⟨p, heap', map', hcall, by omega, by omega, ?_, ?_, hpage⟩
  · intro i q _ hq
    rw [hrest i ?_, hq]
    rintro hnone rfl
    exact absurd (hq.symm.trans hnone) (by simp)
  · intro i hlt hnone
    by_cases heq : i = pos / pageSize
    · subst heq
      exact .inr ⟨p, hpage, Nat.le_of_eq (hnew (hnone (by omega))).symm⟩
    · left
      rw [hrest i fun _ => heq, hnone (by omega)]

/-- The slot behind the last page that is counted, where the size class has left one. -/
theorem growth_slack (hi : pos / pageSize = map.nrPages) (hroom : map.nrPages < map.pages.length) :
    ∃ p heap' map', GrowthSafe heap map pos p heap' map' := by
  have hlen : (map.grown heap.next).pages.length = map.pages.length := List.length_set
  have hself : (map.grown heap.next).pages[map.nrPages]? = some (some heap.next) := withPage_self hroom
  have hother : ∀ j, j ≠ map.nrPages → (map.grown heap.next).pages[j]? = map.pages[j]? :=
    fun j hj => withPage_other hj
  have hcall : ramfsMappingWriteBegin heap map pos =
      some (heap.next, heap.allocPage.2.pageRef heap.next, map.grown heap.next) := by
    rw [writeBegin_behind (by omega), if_pos hroom, hi]
    simp only [cachePage, hself]
  refine ⟨_, _, _, hcall, ?_, ?_, ?_, ?_, ?_⟩
  · rw [hlen]
    exact hroom
  · rw [hi]
    exact Nat.lt_succ_self _
  · intro i q hlt hq
    rw [hother i (by omega), hq]
  · intro i hlt hnone
    by_cases heq : i = map.nrPages
    · subst heq
      exact .inr ⟨heap.next, hself, Nat.le_refl _⟩
    · have hlt' : i < map.nrPages + 1 := hlt
      left
      rw [hother i heq, hnone (by omega)]
  · rw [hi, hself]

theorem GrowthSafe.within (h : GrowthSafe heap map pos p heap' map') :
    pos / pageSize < map.nrPages ∨ pos / pageSize = map.nrPages ∧ map.nrPages < map.pages.length := by
  by_cases hi : map.nrPages ≤ pos / pageSize
  · have hcall := h.returns
    rw [writeBegin_behind hi] at hcall
    split at hcall
    case isTrue hroom =>
      have hcount := (cachePage_some hcall).2.1
      have hcovered := h.covered
      rw [hcount] at hcovered
      have hlt : pos / pageSize < map.nrPages + 1 := hcovered
      exact .inr ⟨by omega, hroom⟩
    case isFalse => contradiction
  · exact .inl (by omega)

end growth

/-- The mapping grows as it should exactly when it does not have to, or by one page for which the
first array happens to have a slot. -/
theorem growth_safe_iff (heap : PageHeap) (map : PageMapping) (h : map.Allocated) (pos : Nat) :
    (∃ p heap' map', GrowthSafe heap map pos p heap' map') ↔
      pos / pageSize < map.nrPages ∨ pos / pageSize = map.nrPages ∧ map.nrPages < map.pages.length := by
  constructor
  · rintro ⟨p, heap', map', hsafe⟩
    exact hsafe.within
  · rintro (hi | ⟨hi, hroom⟩)
    · exact growth_inside h.slots hi
    · exact growth_slack hi hroom

/-- The second page of a new file. -/
theorem growth_safe_second_page :
    ∃ p heap' map', GrowthSafe emptyHeap newFile.fMap 0x1000 p heap' map' :=
  (growth_safe_iff emptyHeap newFile.fMap ⟨by decide, by decide⟩ 0x1000).mpr (.inl (by decide))

/-- After a seek to the fourth page of a new file, whose array has two slots. -/
theorem seek_past_end_unsafe : ¬ ∀ (heap : PageHeap) (map : PageMapping), map.Allocated →
    map.nrPages = map.pages.length → ∀ pos, ∃ p heap' map', GrowthSafe heap map pos p heap' map' := by
  intro h
  obtain ⟨p, heap', map', hsafe⟩ := h emptyHeap newFile.fMap ⟨by decide, by decide⟩ rfl 0x3000
  have hnone : ramfsMappingWriteBegin emptyHeap newFile.fMap 0x3000 = none := by
    rw [writeBegin_behind (by decide), if_neg (by decide)]
  rw [hsafe.returns] at hnone
  contradiction

end Lucix.FileIo
