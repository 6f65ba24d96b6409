import Lucix.FileMapping

/-! `generic_file_write` against a file as a sequence of bytes. A short write that
crosses a page boundary runs past the end of its page, a write that begins behind the
first page that is not counted leaves its pages uncounted, and one that ends behind the
last slot of the array stores behind it; the write is right exactly when none of this
happens. -/
namespace Lucix.FileIo
open Execution PagedBytes

section begin
variable {heap₀ heap heap' : PageHeap} {map₀ map map' : PageMapping} {data : Nat → UInt8}
  {i pos p : Nat}

theorem writeBegin_inside (hi : ¬ map.nrPages ≤ pos / pageSize) :
    ramfsMappingWriteBegin heap map pos = cachePage heap map (pos / pageSize) := by
  simp only [ramfsMappingWriteBegin, if_neg hi, Option.bind_eq_bind, Option.bind_some]

/-- The mapping with one page more counted, in the slot behind the last one. -/
def PageMapping.grown (map : PageMapping) (p : Nat) : PageMapping :=
  { map with nrPages := map.nrPages + 1 }.withPage map.nrPages p

/-- Behind the last page that is counted the new page needs a slot that the old array has. -/
theorem writeBegin_behind (hi : map.nrPages ≤ pos / pageSize) :
    ramfsMappingWriteBegin heap map pos =
      if map.nrPages < map.pages.length then
        cachePage (heap.allocPage.2.pageRef heap.next) (map.grown heap.next) (pos / pageSize)
      else none := by
  unfold ramfsMappingWriteBegin PageMapping.setPage
  dsimp only
  rw [if_pos hi]
  by_cases hroom : map.nrPages < map.pages.length
  · rw [if_pos hroom, if_pos hroom]
    rfl
  · rw [if_neg hroom, if_neg hroom]
    rfl

/-- A page is found only in a slot of the array, and at most one page more is counted. -/
theorem writeBegin_some (h : ramfsMappingWriteBegin heap map pos = some (p, heap', map')) :
    pos / pageSize < map.pages.length ∧ map'.pages.length = map.pages.length ∧
      map'.nrPages ≤ map.nrPages + 1 := by
  by_cases hi : map.nrPages ≤ pos / pageSize
  · rw [writeBegin_behind hi] at h
    split at h
    case isTrue =>
      obtain ⟨hin, hcount, hlen⟩ := cachePage_some h
      have hgrown : (map.grown heap.next).pages.length = map.pages.length := List.length_set
      exact ⟨hgrown ▸ hin, hlen.trans hgrown, hcount.le⟩
    case isFalse => contradiction
  · rw [writeBegin_inside hi] at h
    obtain ⟨hin, hcount, hlen⟩ := cachePage_some h
    exact ⟨hin, hlen, hcount ▸ Nat.le_succ _⟩

/-! ### The slots that are counted -/

theorem getElem?_counted (hi : i < map.nrPages) : map.counted.pages[i]? = map.pages[i]? :=
  List.getElem?_take_of_lt hi

theorem counted_withPage : (map.withPage i p).counted = map.counted.withPage i p := by
  rw [PageMapping.counted, PageMapping.withPage, PageMapping.withPage, PageMapping.counted, List.take_set]

theorem counted_length (hslots : map.nrPages ≤ map.pages.length) : map.counted.pages.length = map.nrPages :=
  List.length_take_of_le hslots

/-- The mapping with an empty slot more. -/
def PageMapping.padded (map : PageMapping) : PageMapping := ⟨map.pages ++ [none], map.nrPages + 1⟩

theorem join_getElem?_padded : map.padded.pages[i]?.join = map.pages[i]?.join := by
  rcases Nat.lt_trichotomy i map.pages.length with hlt | rfl | hgt
  · rw [PageMapping.padded, List.getElem?_append_left hlt]
  · rw [PageMapping.padded, List.getElem?_concat_length, List.getElem?_eq_none (Nat.le_refl _)]
    rfl
  · rw [List.getElem?_eq_none hgt.le, List.getElem?_eq_none (by simpa [PageMapping.padded] using hgt)]

theorem getElem?_padded : map.padded.pages[i]? = some (some p) ↔ map.pages[i]? = some (some p) := by
  rw [← Option.join_eq_some_iff, join_getElem?_padded, Option.join_eq_some_iff]

theorem owns_padded : map.padded.Owns p ↔ map.Owns p := exists_congr fun _ => getElem?_padded

theorem content_padded : map.padded.content heap = map.content heap := by
  simp only [PageMapping.content, join_getElem?_padded]

theorem Follows.padded (h : Follows heap₀ map₀ data heap map) (hfew : map.pages.length < 4096) :
    Follows heap₀ map₀ data heap map.padded := by
  refine ⟨⟨?_, ?_, ?_, fun q hq => h.sound.handed q (owns_padded.mp hq)⟩, content_padded.trans h.content_eq,
    h.next_le, fun q hq ho => ⟨fun hown => (h.others q hq ho).1 (owns_padded.mp hown), (h.others q hq ho).2⟩⟩
  · rw [PageMapping.padded, List.length_append, h.sound.count_eq]
    rfl
  · rw [PageMapping.padded, List.length_append]
    exact hfew
  · intro j k q hj hk
    exact h.sound.inj j k q (getElem?_padded.mp hj) (getElem?_padded.mp hk)

theorem counted_grown (hroom : map.nrPages < map.pages.length) :
    (map.grown p).counted = map.counted.padded.withPage map.nrPages p := by
  have hlen := counted_length hroom.le
  rw [PageMapping.grown, counted_withPage]
  simp only [PageMapping.withPage, PageMapping.counted, PageMapping.padded]
  congr 1
  rw [List.take_succ_eq_append_getElem hroom, List.set_append_right _ _ (by simp),
    List.set_append_right _ _ (by simp)]
  simp [Nat.min_eq_left hroom.le]

/-- What `ramfs_mapping_write_begin` does to the array. -/
structure PageMapping.Grows (map map' : PageMapping) : Prop where
  length_eq : map'.pages.length = map.pages.length
  kept : map.nrPages ≤ map'.nrPages
  slots : map'.nrPages ≤ map'.pages.length

theorem PageMapping.Grows.refl (hslots : map.nrPages ≤ map.pages.length) : map.Grows map :=
  ⟨rfl, Nat.le_refl _, hslots⟩

theorem PageMapping.Grows.trans {map'' : PageMapping} (h : map.Grows map') (h' : map'.Grows map'') :
    map.Grows map'' :=
  ⟨h'.length_eq.trans h.length_eq, h.kept.trans h'.kept, h'.slots⟩

theorem Follows.writeBegin (h : Follows heap₀ map₀ data heap map.counted) (halloc : map.Allocated)
    (hnext : pos / pageSize ≤ map.nrPages) (hin : pos / pageSize < map.pages.length) :
    ∃ p heap' map', ramfsMappingWriteBegin heap map pos = some (p, heap', map') ∧
      Follows heap₀ map₀ data heap' map'.counted ∧ map.Grows map' ∧ pos / pageSize < map'.nrPages ∧
      map'.counted.pages[pos / pageSize]? = some (some p) := by
  rcases Nat.lt_or_eq_of_le hnext with hlt | heq
  · rw [writeBegin_inside (Nat.not_le.mpr hlt)]
    have hslot := getElem?_counted hlt
    cases hpage : map.pages[pos / pageSize] with
    | some q =>
        rw [List.getElem?_eq_getElem hin, hpage] at hslot
        refine ⟨q, heap, map, ?_, h, .refl halloc.slots, hlt, hslot⟩
        rw [cachePage, List.getElem?_eq_getElem hin, hpage]
    | none =>
        rw [List.getElem?_eq_getElem hin, hpage] at hslot
        have hcounted : pos / pageSize < map.counted.pages.length := (List.getElem?_eq_some_iff.mp hslot).1
        refine ⟨heap.next, heap.addCachePage, map.withPage (pos / pageSize) heap.next, ?_, ?_,
          ⟨List.length_set, Nat.le_refl _, ?_⟩, hlt, ?_⟩
        · rw [cachePage, List.getElem?_eq_getElem hin, hpage]
          exact newCachePage_eq hin
        · rw [counted_withPage]
          exact h.withPage hslot
        · exact halloc.slots.trans_eq List.length_set.symm
        · rw [counted_withPage]
          exact withPage_self hcounted
  · have hroom : map.nrPages < map.pages.length := heq ▸ hin
    have hlen := counted_length hroom.le
    have hslot : map.counted.padded.pages[map.nrPages]? = some none := by
      rw [PageMapping.padded, ← hlen]
      exact List.getElem?_concat_length
    have hfew : map.counted.pages.length < 4096 := hlen.trans_lt (hroom.trans_le halloc.few)
    -- the page of a slot that is new is not marked as a page of the cache
    have hbytes : ∀ q, ((heap.allocPage.2.pageRef heap.next).pages q).bytes =
        (heap.addCachePage.pages q).bytes := by
      intro q
      by_cases hq : q = heap.next
      · simp [hq, PageHeap.addCachePage, PageHeap.pageSetUsage, PageHeap.setPage]
      · simp [hq, PageHeap.addCachePage, PageHeap.pageSetUsage, PageHeap.setPage]
    refine ⟨heap.next, heap.allocPage.2.pageRef heap.next, map.grown heap.next, ?_, ?_,
      ⟨List.length_set, Nat.le_succ _, hroom.trans_eq List.length_set.symm⟩, heq ▸ Nat.lt_succ_self _, ?_⟩
    · have hself : (map.grown heap.next).pages[map.nrPages]? = some (some heap.next) := withPage_self hroom
      rw [writeBegin_behind heq.ge, if_pos hroom, heq, cachePage, hself]
    · rw [counted_grown hroom]
      exact ((h.padded hfew).withPage hslot).of_bytes rfl hbytes
    · rw [counted_grown hroom, heq]
      exact withPage_self (List.getElem?_eq_some_iff.mp hslot).1

end begin

/-! ### One iteration -/

/-- Only a short first chunk can cross a page boundary. -/
theorem toWrite_spec {count total pos : Nat} (hcount : count < 2 ^ 64) (htotal : total < count)
    (hfirst : pageSize ≤ count - total ∨ pos % pageSize + (count - total) ≤ pageSize) :
    0 < toWrite count total pos ∧ pos % pageSize + toWrite count total pos ≤ pageSize ∧
      (total + toWrite count total pos = count ∨
        total + toWrite count total pos < count ∧
          (pos + toWrite count total pos) % pageSize = 0) := by
  have hrem : sub64 count total = count - total := sub64_of_le (Nat.le_of_lt htotal) hcount
  have hoff : pos % pageSize < pageSize := Nat.mod_lt _ (by decide)
  by_cases hlong : pageSize ≤ count - total
  · have hchunk : toWrite count total pos = pageSize - pos % pageSize := by
      rw [toWrite, hrem, if_pos hlong]
    rw [hchunk]
    simp only [pageSize] at *
    omega
  · have hchunk : toWrite count total pos = count - total := by
      rw [toWrite, hrem, if_neg hlong]
    rw [hchunk]
    omega

/-- Between two iterations the position is at the start of a page, but for the first and the last time. -/
structure WriteLoop.InStep (count pos : Nat) (s : WriteLoop) : Prop where
  total_le : s.total ≤ count
  pos_eq : s.pos = pos + s.total
  idx_eq : s.idx = pos + s.total
  stop : s.total = 0 ∨ s.total = count ∨ (pos + s.total) % pageSize = 0

theorem WriteLoop.InStep.toWrite_spec {count pos : Nat} {s : WriteLoop} (h : s.InStep count pos)
    (hcount : count < 2 ^ 64) (hshort : pageSize ≤ count ∨ pos % pageSize + count ≤ pageSize)
    (hmore : s.total < count) :
    0 < toWrite count s.total s.pos ∧ s.pos % pageSize + toWrite count s.total s.pos ≤ pageSize ∧
      (s.total + toWrite count s.total s.pos = count ∨
        s.total + toWrite count s.total s.pos < count ∧
          (s.pos + toWrite count s.total s.pos) % pageSize = 0) := by
  refine FileIo.toWrite_spec hcount hmore ?_
  rw [h.pos_eq]
  rcases h.stop with hz | hz | hz
  · simpa only [hz, Nat.add_zero, Nat.sub_zero] using hshort
  · omega
  · rw [hz]
    omega

theorem WriteLoop.InStep.advance {count pos n : Nat} {s : WriteLoop} (h : s.InStep count pos)
    (hwrap : pos + count < 2 ^ 64)
    (hn : s.total + n = count ∨ s.total + n < count ∧ (s.pos + n) % pageSize = 0) (file : PageHeap × Inode) :
    (s.advance file n).InStep count pos := by
  have htotal : wrap64 (s.total + n) = s.total + n := wrap64_of_lt (by omega)
  have hpos : wrap64 (pos + s.total + n) = pos + (s.total + n) := by
    rw [wrap64_of_lt (by omega), Nat.add_assoc]
  refine ⟨?_, ?_, ?_, ?_⟩
  · simp only [WriteLoop.advance, htotal]
    omega
  · simp only [WriteLoop.advance, htotal, h.pos_eq, hpos]
  · simp only [WriteLoop.advance, htotal, h.idx_eq, hpos]
  · simp only [WriteLoop.advance, htotal]
    rcases hn with hall | ⟨-, hal⟩
    · exact .inr (.inl hall)
    · rw [h.pos_eq, Nat.add_assoc] at hal
      exact .inr (.inr hal)

/-- The state of the loop after `total` bytes; the position is at most at the first page that is not
counted. -/
structure WriteLoop.Good (heap₀ : PageHeap) (ino₀ : Inode) (src : Nat → UInt8) (count pos : Nat)
    (s : WriteLoop) : Prop extends s.InStep count pos where
  src_eq : s.src = s.total
  size_eq : s.ino.size = if s.total = 0 then ino₀.size else max ino₀.size (pos + s.total)
  follows : Follows heap₀ ino₀.fMap.counted (overwrite (ino₀.fMap.counted.content heap₀) pos src s.total)
    s.heap s.ino.fMap.counted
  grows : ino₀.fMap.Grows s.ino.fMap
  next : s.pos / pageSize ≤ s.ino.fMap.nrPages
  covered : s.total ≠ 0 → s.pos ≤ s.ino.fMap.nrPages * pageSize

theorem WriteLoop.Good.step {heap₀ : PageHeap} {ino₀ : Inode} {src : Nat → UInt8} {count pos : Nat}
    {s : WriteLoop} (h : s.Good heap₀ ino₀ src count pos)
    (hshort : pageSize ≤ count ∨ pos % pageSize + count ≤ pageSize)
    (hend : pos + count ≤ ino₀.fMap.pages.length * pageSize)
    (hfew : ino₀.fMap.pages.length ≤ 4096) (hmore : s.total < count) :
    ∃ t, s.body src count = some t ∧ t.Good heap₀ ino₀ src count pos ∧
      count - t.total < count - s.total := by
  have hbound : pos + count ≤ 4096 * pageSize := hend.trans (Nat.mul_le_mul_right _ hfew)
  have hpage : s.pos / pageSize < s.ino.fMap.pages.length := by
    rw [h.grows.length_eq, Nat.div_lt_iff_lt_mul (by decide), h.pos_eq]
    omega
  have halloc : s.ino.fMap.Allocated := ⟨h.grows.slots, h.grows.length_eq ▸ hfew⟩
  simp only [pageSize] at hbound
  obtain ⟨hpos, hfit, hnext⟩ := h.toWrite_spec (by omega) hshort hmore
  generalize hn : toWrite count s.total s.pos = n at hpos hfit hnext
  obtain ⟨dst, heap₁, map₁, hbegin, hfollows₁, hgrows₁, hcovers, hdst⟩ :=
    h.follows.writeBegin halloc h.next hpage
  obtain ⟨heap₂, hcopy, hfollows₂⟩ := hfollows₁.copyIn hdst (fun i => src (s.src + i)) hfit
  have hplace : s.pos / pageSize * pageSize + s.pos % pageSize = pos + s.total := by
    rw [Nat.mul_comm, Nat.div_add_mod, h.pos_eq]
  rw [hplace, h.src_eq, overwrite_append] at hfollows₂
  have htotal : wrap64 (s.total + n) = s.total + n := wrap64_of_lt (by omega)
  have hnew : wrap64 (s.pos + n) = pos + (s.total + n) := by
    rw [h.pos_eq, wrap64_of_lt (by omega), Nat.add_assoc]
  have hreach : pos + (s.total + n) ≤ map₁.nrPages * pageSize := by
    have hmul := Nat.mul_le_mul_right pageSize (Nat.succ_le_of_lt hcovers)
    rw [Nat.succ_mul] at hmul
    omega
  refine ⟨s.advance (ramfsMappingWriteEnd (heap₂.pageMkDirty dst) { s.ino with fMap := map₁ } s.pos n
    dst) n, ?_, ⟨h.toInStep.advance (by omega) hnext _, ?_, ?_, ?_, ?_, ?_, ?_⟩, ?_⟩
  · unfold WriteLoop.body
    rw [hn, hbegin, Option.bind_eq_bind, Option.bind_some]
    dsimp only
    rw [hcopy, Option.bind_eq_bind, Option.bind_some]
  · simp only [WriteLoop.advance, htotal, h.src_eq]
  · have hsize := h.size_eq
    have hsome : ¬ s.total + n = 0 := by omega
    simp only [WriteLoop.advance, ramfsMappingWriteEnd, hnew, htotal, if_neg hsome]
    split_ifs at hsize ⊢ <;> omega
  · simp only [WriteLoop.advance, htotal, ramfsMappingWriteEnd]
    refine (hfollows₂.of_bytes rfl fun q => ?_)
    rw [pageMkDirty_bytes, pageMkDirty_bytes]
  · exact h.grows.trans hgrows₁
  · simp only [WriteLoop.advance, ramfsMappingWriteEnd, hnew]
    exact Nat.div_le_of_le_mul (hreach.trans_eq (Nat.mul_comm _ _))
  · intro _
    simp only [WriteLoop.advance, ramfsMappingWriteEnd, hnew]
    exact hreach
  · simp only [WriteLoop.advance, htotal]
    omega

/-! ### The whole call -/

/-- What the write of a sequence of bytes means; each byte that is written is in a page that is counted. -/
structure Written (heap : PageHeap) (ino : Inode) (src : Nat → UInt8) (count pos : Nat)
    (s : WriteLoop) : Prop where
  total_eq : s.total = count
  pos_eq : s.pos = pos + count
  size_eq : s.ino.size = max ino.size (pos + count)
  covered : count ≠ 0 → pos + count ≤ s.ino.fMap.nrPages * pageSize
  content_eq : s.ino.fMap.counted.content s.heap = overwrite (ino.fMap.counted.content heap) pos src count
  others : ∀ p < heap.next, ¬ ino.fMap.counted.Owns p → (s.heap.pages p).bytes = (heap.pages p).bytes

/-- Nothing is written and the position is not behind the end of the file, or the write is
long or stays inside one page, and it begins at most at the first page that is not counted and ends
before the last slot of the array does. -/
def WriteFits (ino : Inode) (pos count : Nat) : Prop :=
  count = 0 ∧ pos ≤ ino.size ∨
    0 < count ∧ (pageSize ≤ count ∨ pos % pageSize + count ≤ pageSize) ∧
      pos / pageSize ≤ ino.fMap.nrPages ∧ pos + count ≤ ino.fMap.pages.length * pageSize

section call
variable {heap : PageHeap} {ino : Inode} {src : Nat → UInt8} {count pos : Nat}

theorem writeFits_of_full (hs : ino.fMap.nrPages = ino.fMap.pages.length) (hcount : 0 < count)
    (hshort : pageSize ≤ count ∨ pos % pageSize + count ≤ pageSize)
    (hend : pos + count ≤ ino.fMap.nrPages * pageSize) : WriteFits ino pos count := by
  refine .inr ⟨hcount, hshort, ?_, hs ▸ hend⟩
  rw [Nat.mul_comm] at hend
  exact Nat.div_le_of_le_mul (by omega)

theorem write_follows (hs : ino.fMap.Held heap) (hpos : pos < 2 ^ 64) (hfits : WriteFits ino pos count) :
    ∃ s, genericFileWrite count heap ino src count pos = .done s ∧ Written heap ino src count pos s ∧
      ino.fMap.Grows s.ino.fMap ∧
      Follows heap ino.fMap.counted (overwrite (ino.fMap.counted.content heap) pos src count) s.heap
        s.ino.fMap.counted := by
  rcases hfits with ⟨rfl, hle⟩ | ⟨hcount, hshort, hnext, hend⟩
  · rw [overwrite_zero]
    refine ⟨⟨heap, ino, pos, 0, 0, pos⟩, ?_, ⟨rfl, rfl, (max_eq_left hle).symm, fun h => absurd rfl h,
      (overwrite_zero _ _ _).symm, fun _ _ _ => rfl⟩, .refl hs.allocated.slots,
      Follows.start hs.counted⟩
    simp [genericFileWrite, whileFuel, wrap64_of_lt hpos]
  · have hbound : pos + count ≤ 4096 * pageSize := hend.trans (Nat.mul_le_mul_right _ hs.allocated.few)
    have hwrap : wrap64 (pos + count) = pos + count := by
      simp only [pageSize] at hbound
      exact wrap64_of_lt (by omega)
    have hstart : WriteLoop.Good heap ino src count pos ⟨heap, ino, pos, 0, 0, pos⟩ := by
      refine ⟨⟨Nat.zero_le _, rfl, rfl, .inl rfl⟩, rfl, rfl, ?_, .refl hs.allocated.slots, hnext,
        fun h => absurd rfl h⟩
      rw [overwrite_zero]
      exact Follows.start hs.counted
    have hstep : ∀ s, WriteLoop.Good heap ino src count pos s →
        decide (s.idx < wrap64 (pos + count)) = true →
          ∃ t, s.body src count = some t ∧ WriteLoop.Good heap ino src count pos t ∧
            count - t.total < count - s.total := by
      intro s hgood hcond
      have hlt := of_decide_eq_true hcond
      rw [hwrap, hgood.idx_eq] at hlt
      exact hgood.step hshort hend hs.allocated.few (by omega)
    obtain ⟨s, hdone, hgood, hstop⟩ := whileFuel_done (WriteLoop.Good heap ino src count pos)
      (fun s => count - s.total) hstep hstart (Nat.le_refl _)
    have htotal : s.total = count := by
      have hge := of_decide_eq_false hstop
      rw [hwrap, hgood.idx_eq] at hge
      have := hgood.total_le
      omega
    have hsize := hgood.size_eq
    have hcovered := hgood.covered
    have hfollows := hgood.follows
    rw [htotal, if_neg (by omega)] at hsize
    rw [htotal, hgood.pos_eq, htotal] at hcovered
    rw [htotal] at hfollows
    exact ⟨s, hdone, ⟨htotal, by rw [hgood.pos_eq, htotal], hsize, hcovered, hfollows.content_eq,
      fun p hp ho => (hfollows.others p hp ho).2⟩, hgood.grows, hfollows⟩

theorem write_tracks (hs : ino.fMap.Sound heap) (hpos : pos < 2 ^ 64) (hfits : WriteFits ino pos count) :
    ∃ s, genericFileWrite count heap ino src count pos = .done s ∧
      Written heap ino src count pos s ∧
      Tracks heap ino.fMap (overwrite (ino.fMap.content heap) pos src count) s.heap s.ino.fMap := by
  obtain ⟨s, hdone, hwritten, hgrows, hfollows⟩ := write_follows hs.held hpos hfits
  have hfull : s.ino.fMap.pages.length ≤ s.ino.fMap.nrPages :=
    hgrows.length_eq.le.trans (hs.count_eq.ge.trans hgrows.kept)
  have hcounted : s.ino.fMap.counted = s.ino.fMap := by
    rw [PageMapping.counted, List.take_of_length_le hfull]
  rw [hs.counted_eq, hcounted] at hfollows
  exact ⟨s, hdone, hwritten, hfollows, hgrows.length_eq⟩

theorem write_mode {fuel : Nat} {s : WriteLoop}
    (hdone : genericFileWrite fuel heap ino src count pos = .done s) : s.ino.mode = ino.mode := by
  refine whileFuel_preserves (fun s => s.ino.mode = ino.mode) ?_ rfl hdone
  intro s t hmode _ hbody
  unfold WriteLoop.body at hbody
  obtain ⟨⟨dst, heap₁, map₁⟩, -, hbody⟩ := Option.bind_eq_some_iff.mp hbody
  obtain ⟨heap₂, -, hbody⟩ := Option.bind_eq_some_iff.mp hbody
  rw [Option.some.injEq] at hbody
  rw [← hbody, ← hmode]
  rfl

theorem write_short_crossing (hcount : 0 < count) (hwrap : pos + count < 2 ^ 64)
    (hshort : count < pageSize) (hcross : pageSize < pos % pageSize + count) (fuel : Nat)
    (s : WriteLoop) : genericFileWrite fuel heap ino src count pos ≠ .done s := by
  refine whileFuel_not_done_of_none ?_ ?_ fuel s
  · rw [decide_eq_true_eq, wrap64_of_lt hwrap]
    exact Nat.lt_add_of_pos_right hcount
  · have hn : toWrite count 0 pos = count := by
      have hno : ¬ pageSize ≤ count := by omega
      simp only [toWrite, sub64_of_le (Nat.zero_le count) (by omega), Nat.sub_zero, if_neg hno]
    have hbad : ¬ pos % pageSize + count ≤ pageSize := by omega
    unfold WriteLoop.body
    rw [hn]
    cases ramfsMappingWriteBegin heap ino.fMap pos with
    | none => rfl
    | some r => simp [PageHeap.copyIn, hbad]

theorem write_behind_slots (hcount : 0 < count) (hwrap : pos + count < 2 ^ 64)
    (hend : ino.fMap.pages.length * pageSize < pos + count) (fuel : Nat) (s : WriteLoop) :
    genericFileWrite fuel heap ino src count pos ≠ .done s := by
  refine whileFuel_not_done (fun s => s.idx = s.pos ∧ s.idx < pos + count ∧
    s.ino.fMap.pages.length = ino.fMap.pages.length) ?_ ?_ fuel ?_ s
  · rintro s ⟨-, hlt, -⟩
    rw [decide_eq_true_eq, wrap64_of_lt hwrap]
    exact hlt
  · rintro s t ⟨hidx, hlt, hlen⟩ hbody
    unfold WriteLoop.body at hbody
    obtain ⟨⟨dst, heap₁, map₁⟩, hbegin, hbody⟩ := Option.bind_eq_some_iff.mp hbody
    obtain ⟨heap₂, hcopy, hbody⟩ := Option.bind_eq_some_iff.mp hbody
    obtain ⟨hpage, hlen₁, -⟩ := writeBegin_some hbegin
    have hfit : s.pos % pageSize + toWrite count s.total s.pos ≤ pageSize := by
      by_contra hno
      simp [PageHeap.copyIn, hno] at hcopy
    rw [Option.some.injEq] at hbody
    subst hbody
    refine ⟨by simp only [WriteLoop.advance, hidx], ?_, hlen₁.trans hlen⟩
    refine lt_of_le_of_lt (wrap64_le _) ?_
    rw [hlen] at hpage
    have hmul := Nat.mul_le_mul_right pageSize (Nat.succ_le_of_lt hpage)
    rw [Nat.succ_mul] at hmul
    have hdiv := Nat.div_add_mod s.pos pageSize
    rw [Nat.mul_comm] at hdiv
    omega
  · exact ⟨rfl, Nat.lt_add_of_pos_right hcount, rfl⟩

/-- Only one page more is counted for each page that is written, so a write that begins behind the first
page that is not counted never reaches one that is. -/
theorem write_uncovered (hwrap : pos + count < 2 ^ 64)
    (hshort : pageSize ≤ count ∨ pos % pageSize + count ≤ pageSize)
    (hjump : ino.fMap.nrPages < pos / pageSize) {fuel : Nat} {s : WriteLoop}
    (hdone : genericFileWrite fuel heap ino src count pos = .done s) :
    s.ino.fMap.nrPages * pageSize < s.pos := by
  let P (s : WriteLoop) : Prop := s.InStep count pos ∧ s.ino.fMap.nrPages * pageSize < s.pos ∧
    (s.total < count → s.ino.fMap.nrPages + 1 ≤ s.pos / pageSize)
  have hbody : ∀ s t, P s → decide (s.idx < wrap64 (pos + count)) = true → s.body src count = some t → P t := by
    rintro s t ⟨hstep, hbehind, hahead⟩ hcond hbody
    have hlt := of_decide_eq_true hcond
    rw [wrap64_of_lt hwrap, hstep.idx_eq] at hlt
    have hmore : s.total < count := by omega
    obtain ⟨hpos, hfit, hnext⟩ := hstep.toWrite_spec (by omega) hshort hmore
    unfold WriteLoop.body at hbody
    obtain ⟨⟨dst, heap₁, map₁⟩, hbegin, hbody⟩ := Option.bind_eq_some_iff.mp hbody
    obtain ⟨heap₂, -, hbody⟩ := Option.bind_eq_some_iff.mp hbody
    rw [Option.some.injEq] at hbody
    subst hbody
    have hcount := (writeBegin_some hbegin).2.2
    have hgap := Nat.mul_le_mul_right pageSize (hahead hmore)
    have hcounted := Nat.mul_le_mul_right pageSize hcount
    have hpos_eq := hstep.pos_eq
    generalize toWrite count s.total s.pos = n at *
    have hnew : wrap64 (s.pos + n) = s.pos + n := wrap64_of_lt (by omega)
    have htotal : wrap64 (s.total + n) = s.total + n := wrap64_of_lt (by omega)
    refine ⟨hstep.advance hwrap hnext _, ?_, ?_⟩
    · simp only [WriteLoop.advance, ramfsMappingWriteEnd, hnew]
      have := Nat.div_mul_le_self s.pos pageSize
      omega
    · simp only [WriteLoop.advance, ramfsMappingWriteEnd, hnew, htotal]
      intro hless
      have hahead := hahead hmore
      simp only [pageSize] at *
      omega
  have hfirst : P ⟨heap, ino, pos, 0, 0, pos⟩ := by
    refine ⟨⟨Nat.zero_le _, rfl, rfl, .inl rfl⟩, ?_, fun _ => hjump⟩
    have hmul := Nat.mul_le_mul_right pageSize (Nat.succ_le_of_lt hjump)
    rw [Nat.succ_mul] at hmul
    have := Nat.div_mul_le_self pos pageSize
    simp only [pageSize] at *
    omega
  exact (whileFuel_preserves P hbody hfirst hdone).2.1

/-- `generic_file_write` writes the file as a sequence of bytes exactly when the write fits. -/
theorem write_refines_iff (hs : ino.fMap.Held heap) (hpos : pos < 2 ^ 64) (hcount : count < 2 ^ 64) :
    (∃ fuel s, genericFileWrite fuel heap ino src count pos = .done s ∧
      Written heap ino src count pos s) ↔ WriteFits ino pos count := by
  refine ⟨?_, fun hfits => ?_⟩
  swap
  · obtain ⟨s, hdone, hwritten, -⟩ := @write_follows heap ino src count pos hs hpos hfits
    exact ⟨count, s, hdone, hwritten⟩
  rintro ⟨fuel, s, hdone, hwritten⟩
  have hnow : ¬ pos < wrap64 (pos + count) → s = ⟨heap, ino, pos, 0, 0, pos⟩ := by
    intro hno
    have hinit : genericFileWrite fuel heap ino src count pos = .done ⟨heap, ino, pos, 0, 0, pos⟩ := by
      cases fuel <;> simp [genericFileWrite, whileFuel, hno]
    exact (Outcome.done.inj (hdone.symm.trans hinit))
  rcases Nat.eq_zero_or_pos count with rfl | hcount'
  · have hsize := hwritten.size_eq
    rw [hnow (by rw [Nat.add_zero, wrap64_of_lt hpos]; omega)] at hsize
    exact .inl ⟨rfl, by simp only at hsize; omega⟩
  · have hwrap : pos + count < 2 ^ 64 := by
      by_contra hge
      have htotal := hwritten.total_eq
      rw [hnow (by rw [wrap64_of_ge (by omega) (by omega)]; omega)] at htotal
      simp only at htotal
      omega
    have hshort : pageSize ≤ count ∨ pos % pageSize + count ≤ pageSize := by
      by_contra hno
      exact write_short_crossing hcount' hwrap (by omega) (by omega) fuel s hdone
    refine .inr ⟨hcount', hshort, ?_, ?_⟩
    · by_contra hno
      have huncovered := write_uncovered hwrap hshort (Nat.lt_of_not_le hno) hdone
      have hcovered := hwritten.covered hcount'.ne'
      rw [hwritten.pos_eq] at huncovered
      omega
    · by_contra hno
      exact write_behind_slots hcount' hwrap (by omega) fuel s hdone

end call

/-- A file as `ramfs_ino_create` leaves it. -/
def newFile : Inode where
  id := 1
  mode := 0x8000
  size := 0
  dev := 0
  blocks := 0
  blockSize := pageSize
  refcnt := 1
  fMap := ⟨[none, none], 2⟩

def emptyHeap : PageHeap := ⟨fun _ => ⟨fun _ => 0, 0, 0, 0⟩, 0⟩

theorem newFile_sound (heap : PageHeap) : newFile.fMap.Sound heap := by
  have hnone : ∀ i p : Nat, newFile.fMap.pages[i]? ≠ some (some p) := by
    intro i p hi
    have hmem := List.mem_of_getElem? hi
    simp [newFile] at hmem
  exact ⟨rfl, by decide, fun i j p hi => absurd hi (hnone i p), fun p hp =>
    hp.elim fun i hi => absurd hi (hnone i p)⟩

/-- The same file with the array as `kmalloc` returns it: of the 32 bytes the last 16 are not cleared. -/
def slackFile : Inode := { newFile with fMap := ⟨[none, none, some 7, none], 2⟩ }

theorem slackFile_held (heap : PageHeap) : slackFile.fMap.Held heap :=
  ⟨⟨by decide, by decide⟩, newFile_sound heap⟩

theorem write_refines_iff_spanning :
    ∃ fuel s, genericFileWrite fuel emptyHeap slackFile (fun _ => 7) 5000 8000 = .done s ∧
      Written emptyHeap slackFile (fun _ => 7) 5000 8000 s :=
  (write_refines_iff (slackFile_held emptyHeap) (by norm_num) (by norm_num)).mpr
    (.inr ⟨by norm_num, .inl (by decide), by decide, by decide⟩)

/-- Two hundred bytes at position 4000 reach over the end of the first page. -/
theorem write_crossing_fails :
    ¬ ∀ (heap : PageHeap) (ino : Inode) (src : Nat → UInt8) (count pos : Nat),
      ino.fMap.Held heap → pos < 2 ^ 64 → count < 2 ^ 64 →
        ∃ fuel s, genericFileWrite fuel heap ino src count pos = .done s ∧
          Written heap ino src count pos s := by
  intro hall
  obtain ⟨fuel, s, hdone, -⟩ := hall emptyHeap newFile (fun _ => 7) 200 4000
    (newFile_sound emptyHeap).held (by norm_num) (by norm_num)
  exact write_short_crossing (by norm_num) (by norm_num) (by decide) (by decide) fuel s hdone

end Lucix.FileIo
