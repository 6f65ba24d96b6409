import Lucix.FileWrite

/-! `generic_file_read` against a file as a sequence of bytes. The loop runs to the
requested end while its steps stop at the end of the file, so a read over that end
never returns; a short read over a page boundary leaves its page. The read is right
exactly when neither happens and every page it needs has a slot. -/
namespace Lucix.FileIo
open Execution PagedBytes

/-! ### Signed indices -/

section index
variable {idx : Nat}

theorem tdiv_index (h : idx < 2 ^ 63) : (toInt64 idx).tdiv pageSize = ((idx / pageSize : Nat) : Int) := by
  rw [toInt64_of_lt h, Int.ofNat_tdiv]

theorem tmod_index (h : idx < 2 ^ 63) : (toInt64 idx).tmod pageSize = ((idx % pageSize : Nat) : Int) := by
  rw [toInt64_of_lt h, Int.ofNat_tmod]

theorem negative_index (h : 2 ^ 63 ≤ idx) (hlt : idx < 2 ^ 64) :
    (toInt64 idx).tdiv pageSize < 0 ∨ (toInt64 idx).tmod pageSize < 0 := by
  obtain ⟨m, hm⟩ : ∃ m, m = 2 ^ 64 - idx := ⟨_, rfl⟩
  have hneg : toInt64 idx = -(m : Int) := by
    rw [toInt64_of_ge h]
    omega
  have hpos : 0 < m := by omega
  rw [hneg, Int.neg_tdiv, Int.neg_tmod, ← Int.ofNat_tdiv, ← Int.ofNat_tmod]
  simp only [pageSize]
  omega

end index

/-! ### One iteration -/

/-- Before the end of the file a read takes the same steps as a write. -/
theorem toRead_eq {size count total pos : Nat} (htotal : total ≤ count) (hcount : count < 2 ^ 63)
    (hpos : pos < 2 ^ 63) (hin : pos + toWrite count total pos ≤ size) :
    toRead size count total pos pos = toWrite count total pos := by
  have hrem : sub64 count total = count - total := sub64_of_le htotal (by omega)
  have hint : toInt64 (count - total) = ((count - total : Nat) : Int) := toInt64_of_lt (by omega)
  have hoff : pos % pageSize < pageSize := Nat.mod_lt _ (by decide)
  have hlong : ((pageSize : Int) ≤ ((count - total : Nat) : Int)) = (pageSize ≤ count - total) :=
    propext Int.ofNat_le
  have hsub : ((pageSize : Int) - ((pos % pageSize : Nat) : Int)).toNat = pageSize - pos % pageSize := by
    omega
  have hn : toWrite count total pos = if pageSize ≤ count - total then pageSize - pos % pageSize
      else count - total := by
    simp only [toWrite, hrem]
  have hstay : ¬ size < wrap64 (pos + toWrite count total pos) := by
    have := wrap64_le (pos + toWrite count total pos)
    omega
  simp only [toRead, hrem, hint, tmod_index hpos, hlong, hsub, ← hn, if_neg hstay]

theorem toRead_le {size count total pos idx : Nat} (hpos : pos ≤ size) (hsize : size < 2 ^ 64) :
    wrap64 (pos + toRead size count total pos idx) ≤ size := by
  simp only [toRead]
  generalize (if (pageSize : Int) ≤ toInt64 (sub64 count total) then
    ((pageSize : Int) - (toInt64 idx).tmod pageSize).toNat else sub64 count total) = n
  split_ifs with hclamp
  · rw [sub64_of_le hpos hsize, Nat.add_sub_cancel' hpos]
    exact wrap64_le _
  · exact Nat.le_of_not_lt hclamp

/-- The state of the loop after `total` bytes. -/
structure ReadLoop.Good (heap₀ : PageHeap) (ino₀ : Inode) (count pos : Nat) (s : ReadLoop) :
    Prop where
  total_le : s.total ≤ count
  pos_eq : s.pos = pos + s.total
  idx_eq : s.idx = pos + s.total
  size_eq : s.ino.size = ino₀.size
  out_eq : s.out = (List.range s.total).map fun i => ino₀.fMap.content heap₀ (pos + i)
  tracks : Tracks heap₀ ino₀.fMap (ino₀.fMap.content heap₀) s.heap s.ino.fMap
  stop : s.total = 0 ∨ s.total = count ∨ (pos + s.total) % pageSize = 0

section step
variable {heap₀ heap : PageHeap} {ino₀ : Inode} {map : PageMapping} {count pos n : Nat} {s : ReadLoop}

theorem ReadLoop.Good.advance (h : s.Good heap₀ ino₀ count pos)
    (htracks : Tracks heap₀ ino₀.fMap (ino₀.fMap.content heap₀) heap map) (hle : s.total + n ≤ count)
    (hbound : pos + count < 2 ^ 64) (hstop : s.total + n = count ∨ (s.pos + n) % pageSize = 0) :
    (s.advance heap map ((List.range n).map fun k => ino₀.fMap.content heap₀ (pos + s.total + k)) n).Good
      heap₀ ino₀ count pos := by
  have htotal : wrap64 (s.total + n) = s.total + n := wrap64_of_lt (by omega)
  have hnew : wrap64 (pos + s.total + n) = pos + (s.total + n) := by
    rw [wrap64_of_lt (by omega), Nat.add_assoc]
  constructor
  case total_le => rwa [ReadLoop.advance, htotal]
  case pos_eq => simp only [ReadLoop.advance, htotal, h.pos_eq, hnew]
  case idx_eq => simp only [ReadLoop.advance, htotal, h.idx_eq, hnew]
  case size_eq => exact h.size_eq
  case out_eq =>
    simp only [ReadLoop.advance, htotal, h.out_eq, List.range_add, List.map_append, List.map_map]
    simp only [Function.comp_def, Nat.add_assoc]
  case tracks => exact htracks
  case stop =>
    rw [h.pos_eq, Nat.add_assoc] at hstop
    rw [ReadLoop.advance, htotal]
    exact .inr hstop

theorem ReadLoop.Good.step (h : s.Good heap₀ ino₀ count pos)
    (hshort : pageSize ≤ count ∨ pos % pageSize + count ≤ pageSize) (hin : pos + count ≤ ino₀.size)
    (hend : pos + count ≤ ino₀.fMap.pages.length * pageSize)
    (hfew : ino₀.fMap.pages.length ≤ 4096) (hmore : s.total < count) :
    ∃ t, s.body count = some t ∧ t.Good heap₀ ino₀ count pos ∧
      count - t.total < count - s.total := by
  have hbound : pos + count ≤ 4096 * pageSize := hend.trans (Nat.mul_le_mul_right _ hfew)
  have hfirst : pageSize ≤ count - s.total ∨ s.pos % pageSize + (count - s.total) ≤ pageSize := by
    rw [h.pos_eq]
    rcases h.stop with hz | hz | hz
    · simpa only [hz, Nat.add_zero, Nat.sub_zero] using hshort
    · omega
    · rw [hz]
      omega
  have hpage : s.pos / pageSize < s.ino.fMap.pages.length := by
    rw [h.tracks.length_eq, Nat.div_lt_iff_lt_mul (by decide), h.pos_eq]
    omega
  simp only [pageSize] at hbound
  obtain ⟨hpos, hfit, hnext⟩ := toWrite_spec (by omega) hmore hfirst
  have hidx : s.idx = s.pos := h.idx_eq.trans h.pos_eq.symm
  have hsmall : s.pos < 2 ^ 63 := by
    rw [h.pos_eq]
    omega
  have hn : toRead s.ino.size count s.total s.pos s.idx = toWrite count s.total s.pos := by
    rw [hidx, h.size_eq]
    refine toRead_eq h.total_le (by omega) hsmall ?_
    have hpos_eq := h.pos_eq
    omega
  generalize toWrite count s.total s.pos = n at hpos hfit hnext hn
  obtain ⟨p, heap₁, map₁, hcache, htracks₁, hp⟩ := h.tracks.cachePage hpage
  have hread : readCachePage s.heap s.ino.fMap ((toInt64 s.idx).tdiv pageSize) =
      some (p, heap₁, map₁) := by
    rw [hidx, tdiv_index hsmall, readCachePage,
      if_neg (Int.not_lt.mpr (Int.natCast_nonneg _)), Int.toNat_natCast, hcache]
  have hplace : s.pos / pageSize * pageSize + s.pos % pageSize = pos + s.total := by
    rw [Nat.mul_comm, Nat.div_add_mod, h.pos_eq]
  have hcopy := htracks₁.copyOut hp hfit
  rw [hplace] at hcopy
  have hle : s.total + n ≤ count := hnext.elim Nat.le_of_eq (fun hlt => hlt.1.le)
  refine ⟨_, ?_, h.advance htracks₁ hle (by omega) (hnext.imp_right And.right), ?_⟩
  · unfold ReadLoop.body
    rw [hn, hread, Option.bind_eq_bind, Option.bind_some]
    dsimp only
    rw [hidx, tmod_index hsmall, hcopy, Option.bind_eq_bind, Option.bind_some]
  · have htotal : wrap64 (s.total + n) = s.total + n := wrap64_of_lt (by omega)
    simp only [ReadLoop.advance, htotal]
    omega

end step

/-! ### The whole call -/

/-- What the read of a sequence of bytes means. -/
structure ReadDone (heap : PageHeap) (ino : Inode) (count pos : Nat) (s : ReadLoop) : Prop where
  total_eq : s.total = if ino.size ≤ pos then 0 else min count (ino.size - pos)
  pos_eq : s.pos = pos + s.total
  out_eq : s.out = (List.range s.total).map fun i => ino.fMap.content heap (pos + i)
  content_eq : s.ino.fMap.content s.heap = ino.fMap.content heap
  size_eq : s.ino.size = ino.size

/-- The position is at or behind the end of the file, or nothing is read, or the read ends
before the file does, is long or stays inside one page, and needs only pages with a slot. -/
def ReadFits (ino : Inode) (pos count : Nat) : Prop :=
  ino.size ≤ pos ∨ count = 0 ∨
    pos + count ≤ ino.size ∧ (pageSize ≤ count ∨ pos % pageSize + count ≤ pageSize) ∧
      pos + count ≤ ino.fMap.nrPages * pageSize

section call
variable {heap : PageHeap} {ino : Inode} {count pos : Nat}

theorem read_at_once (hpos : ino.size ≤ pos ∨ ¬ pos < wrap64 (count + pos)) (fuel : Nat) :
    genericFileRead fuel heap ino count pos = .done ⟨heap, ino, pos, 0, [], pos⟩ := by
  by_cases hend : ino.size ≤ pos
  · simp only [genericFileRead, if_pos hend]
  · have hno := hpos.resolve_left hend
    rw [genericFileRead, if_neg hend]
    cases fuel <;> simp [whileFuel, hno]

theorem read_tracks (hs : ino.fMap.Sound heap) (hsize : ino.size < 2 ^ 64) (hpos : pos < 2 ^ 64)
    (hfits : ReadFits ino pos count) :
    ∃ s, genericFileRead count heap ino count pos = .done s ∧ ReadDone heap ino count pos s ∧
      Tracks heap ino.fMap (ino.fMap.content heap) s.heap s.ino.fMap := by
  by_cases hbehind : ino.size ≤ pos
  · exact ⟨_, read_at_once (.inl hbehind) count, ⟨by simp only [if_pos hbehind], rfl, rfl, rfl, rfl⟩,
      Tracks.start hs⟩
  rcases hfits with hno | rfl | ⟨hin, hshort, hend⟩
  · exact absurd hno hbehind
  · refine ⟨_, read_at_once (.inr ?_) 0, ⟨by simp, rfl, rfl, rfl, rfl⟩, Tracks.start hs⟩
    rw [Nat.zero_add, wrap64_of_lt hpos]
    exact Nat.lt_irrefl _
  rw [hs.count_eq] at hend
  have hwrap : wrap64 (count + pos) = pos + count := by
    rw [Nat.add_comm]
    exact wrap64_of_lt (by omega)
  have hstart : ReadLoop.Good heap ino count pos ⟨heap, ino, pos, 0, [], pos⟩ :=
    ⟨Nat.zero_le _, rfl, rfl, rfl, rfl, Tracks.start hs, .inl rfl⟩
  have hstep : ∀ s, ReadLoop.Good heap ino count pos s →
      decide (s.idx < wrap64 (count + pos)) = true →
        ∃ t, s.body count = some t ∧ ReadLoop.Good heap ino count pos t ∧
          count - t.total < count - s.total := by
    intro s hgood hcond
    have hlt := of_decide_eq_true hcond
    rw [hwrap, hgood.idx_eq] at hlt
    exact hgood.step hshort hin hend hs.few (by omega)
  obtain ⟨s, hdone, hgood, hstop⟩ := whileFuel_done (ReadLoop.Good heap ino count pos)
    (fun s => count - s.total) hstep hstart (Nat.le_refl _)
  have htotal : s.total = count := by
    have hge := of_decide_eq_false hstop
    rw [hwrap, hgood.idx_eq] at hge
    have := hgood.total_le
    omega
  refine ⟨s, ?_, ⟨?_, hgood.pos_eq, hgood.out_eq, hgood.tracks.content_eq, hgood.size_eq⟩, hgood.tracks⟩
  · rw [genericFileRead, if_neg hbehind]
    exact hdone
  · rw [htotal, if_neg hbehind]
    omega

theorem read_of_fits (hs : ino.fMap.Sound heap) (hsize : ino.size < 2 ^ 64) (hpos : pos < 2 ^ 64)
    (hfits : ReadFits ino pos count) :
    ∃ s, genericFileRead count heap ino count pos = .done s ∧ ReadDone heap ino count pos s := by
  obtain ⟨s, hdone, hread, -⟩ := read_tracks hs hsize hpos hfits
  exact ⟨s, hdone, hread⟩

/-- Over the end of the file the loop stays at the end of the file. -/
theorem read_over_end (hsize : ino.size < 2 ^ 64) (hpos : pos < ino.size)
    (hwrap : pos + count < 2 ^ 64) (hover : ino.size < pos + count) (fuel : Nat) (s : ReadLoop) :
    genericFileRead fuel heap ino count pos ≠ .done s := by
  rw [genericFileRead, if_neg (by omega)]
  refine whileFuel_not_done (fun s => s.idx = s.pos ∧ s.pos ≤ ino.size ∧ s.ino.size = ino.size)
    ?_ ?_ fuel ⟨rfl, Nat.le_of_lt hpos, rfl⟩ s
  · rintro s ⟨hidx, hle, -⟩
    rw [decide_eq_true_eq, Nat.add_comm, wrap64_of_lt hwrap]
    omega
  · rintro s t ⟨hidx, hle, hsz⟩ hbody
    unfold ReadLoop.body at hbody
    obtain ⟨⟨p, heap₁, map₁⟩, -, hbody⟩ := Option.bind_eq_some_iff.mp hbody
    obtain ⟨bytes, -, hbody⟩ := Option.bind_eq_some_iff.mp hbody
    rw [Option.some.injEq] at hbody
    subst hbody
    refine ⟨by simp only [ReadLoop.advance, hidx], ?_, hsz⟩
    simp only [ReadLoop.advance, hsz]
    exact toRead_le hle hsize

/-- A read that ends behind the last slot gets there and faults. -/
theorem read_behind_slots (hcount : 0 < count) (hpos : pos < ino.size)
    (hwrap : pos + count < 2 ^ 64)
    (hend : ino.fMap.pages.length * pageSize < pos + count) (fuel : Nat) (s : ReadLoop) :
    genericFileRead fuel heap ino count pos ≠ .done s := by
  rw [genericFileRead, if_neg (by omega)]
  refine whileFuel_not_done (fun s => s.idx < pos + count ∧
    s.ino.fMap.pages.length = ino.fMap.pages.length) ?_ ?_ fuel
    ⟨Nat.lt_add_of_pos_right hcount, rfl⟩ s
  · rintro s ⟨hlt, -⟩
    rw [decide_eq_true_eq, Nat.add_comm, wrap64_of_lt hwrap]
    exact hlt
  · rintro s t ⟨hlt, hlen⟩ hbody
    unfold ReadLoop.body at hbody
    obtain ⟨⟨p, heap₁, map₁⟩, hread, hbody⟩ := Option.bind_eq_some_iff.mp hbody
    obtain ⟨bytes, hcopy, hbody⟩ := Option.bind_eq_some_iff.mp hbody
    rw [Option.some.injEq] at hbody
    subst hbody
    generalize toRead s.ino.size count s.total s.pos s.idx = n at hcopy ⊢
    by_cases hneg : (toInt64 s.idx).tdiv pageSize < 0
    · simp [readCachePage, hneg] at hread
    rw [readCachePage, if_neg hneg] at hread
    obtain ⟨hpage, -, hlen₁⟩ := cachePage_some hread
    refine ⟨lt_of_le_of_lt (wrap64_le _) ?_, hlen₁.trans hlen⟩
    rcases Nat.eq_zero_or_pos n with rfl | hn
    · exact hlt
    have hfit : 0 ≤ (toInt64 s.idx).tmod pageSize ∧ (toInt64 s.idx).tmod pageSize + n ≤ pageSize := by
      by_contra hno
      simp [PageHeap.copyOut, Nat.pos_iff_ne_zero.mp hn, hno] at hcopy
    have hsmall : s.idx < 2 ^ 63 := by
      by_contra hbig
      rcases negative_index (Nat.le_of_not_lt hbig) (by omega) with hbad | hbad
      · exact hneg hbad
      · omega
    rw [tmod_index hsmall] at hfit
    rw [tdiv_index hsmall, Int.toNat_natCast, hlen] at hpage
    have hmul := Nat.mul_le_mul_right pageSize (Nat.succ_le_of_lt hpage)
    rw [Nat.succ_mul] at hmul
    have hdiv := Nat.div_add_mod s.idx pageSize
    rw [Nat.mul_comm] at hdiv
    omega

theorem read_short_crossing (hcount : 0 < count) (hsize : ino.size < 2 ^ 64)
    (hin : pos + count ≤ ino.size) (hsmall : pos < 2 ^ 63) (hshort : count < pageSize)
    (hcross : pageSize < pos % pageSize + count) (fuel : Nat) (s : ReadLoop) :
    genericFileRead fuel heap ino count pos ≠ .done s := by
  rw [genericFileRead, if_neg (by omega)]
  refine whileFuel_not_done_of_none ?_ ?_ fuel s
  · rw [decide_eq_true_eq, Nat.add_comm, wrap64_of_lt (by omega)]
    exact Nat.lt_add_of_pos_right hcount
  · have hw : toWrite count 0 pos = count := by
      have hno : ¬ pageSize ≤ count := by omega
      simp only [toWrite, sub64_of_le (Nat.zero_le count) (by omega), Nat.sub_zero, if_neg hno]
    have hn : toRead ino.size count 0 pos pos = count := by
      rw [toRead_eq (Nat.zero_le _) (by simp only [pageSize] at hshort; omega) hsmall (by omega),
        hw]
    unfold ReadLoop.body
    rw [hn]
    cases readCachePage heap ino.fMap ((toInt64 pos).tdiv pageSize) with
    | none => rfl
    | some r =>
        have hbad : ¬ (0 ≤ (toInt64 pos).tmod pageSize ∧
            (toInt64 pos).tmod pageSize + (count : Int) ≤ pageSize) := by
          rw [tmod_index hsmall]
          omega
        simp [PageHeap.copyOut, Nat.pos_iff_ne_zero.mp hcount, hbad]

theorem read_returns_iff (hs : ino.fMap.Sound heap) (hsize : ino.size < 2 ^ 63) (hin : pos + count ≤ ino.size) :
    (∃ s, genericFileRead count heap ino count pos = .done s) ↔ ReadFits ino pos count := by
  constructor
  · rintro ⟨s, hdone⟩
    rcases Nat.eq_zero_or_pos count with hzero | hcount
    · exact .inr (.inl hzero)
    have hend : pos + count ≤ ino.fMap.pages.length * pageSize := by
      by_contra hno
      exact read_behind_slots hcount (by omega) (by omega) (by omega) count s hdone
    refine .inr (.inr ⟨hin, ?_, hs.count_eq ▸ hend⟩)
    by_contra hno
    exact read_short_crossing hcount (by omega) hin (by omega) (by omega) (by omega) count s hdone
  · intro hfits
    obtain ⟨s, hdone, -⟩ := read_of_fits hs (by omega) (by omega) hfits
    exact ⟨s, hdone⟩

/-- `generic_file_read` reads the file as a sequence of bytes exactly when the read fits. -/
theorem read_refines_iff (hs : ino.fMap.Sound heap) (hsize : ino.size < 2 ^ 64)
    (hpos : pos < 2 ^ 64) (hcount : count < 2 ^ 64) :
    (∃ fuel s, genericFileRead fuel heap ino count pos = .done s ∧ ReadDone heap ino count pos s) ↔
      ReadFits ino pos count := by
  refine ⟨?_, fun hfits => ⟨count, read_of_fits hs hsize hpos hfits⟩⟩
  rintro ⟨fuel, s, hdone, hread⟩
  by_cases hbehind : ino.size ≤ pos
  · exact .inl hbehind
  rcases Nat.eq_zero_or_pos count with hzero | hcount'
  · exact .inr (.inl hzero)
  have hwrap : pos + count < 2 ^ 64 := by
    by_contra hge
    have hnow : ¬ pos < wrap64 (count + pos) := by
      rw [wrap64_of_ge (by omega) (by omega)]
      omega
    have htotal := hread.total_eq
    rw [← Outcome.done.inj ((read_at_once (.inr hnow) fuel).symm.trans hdone), if_neg hbehind] at htotal
    simp only at htotal
    omega
  have hin : pos + count ≤ ino.size := by
    by_contra hno
    exact read_over_end hsize (by omega) hwrap (by omega) fuel s hdone
  have hend : pos + count ≤ ino.fMap.pages.length * pageSize := by
    by_contra hno
    exact read_behind_slots hcount' (by omega) hwrap (by omega) fuel s hdone
  refine .inr (.inr ⟨hin, ?_, hs.count_eq ▸ hend⟩)
  by_contra hno
  have hbound : pos + count ≤ 4096 * pageSize := hend.trans (Nat.mul_le_mul_right _ hs.few)
  refine read_short_crossing hcount' hsize hin ?_ (by omega) (by omega) fuel s hdone
  simp only [pageSize] at hbound
  omega

end call

/-- A new file after something has set its size; its pages are holes. -/
def sizedFile (size : Nat) : Inode := { newFile with size := size }

theorem sizedFile_sound (heap : PageHeap) (size : Nat) : (sizedFile size).fMap.Sound heap :=
  newFile_sound heap

theorem read_refines_iff_holes :
    ∃ fuel s, genericFileRead fuel emptyHeap (sizedFile 6000) 5000 100 = .done s ∧
      ReadDone emptyHeap (sizedFile 6000) 5000 100 s :=
  (read_refines_iff (sizedFile_sound emptyHeap 6000) (by decide) (by norm_num) (by norm_num)).mpr
    (.inr (.inr ⟨by decide, .inl (by decide), by decide⟩))

/-- Asking for two hundred bytes of a file of one hundred never returns. -/
theorem read_over_end_fails :
    ¬ ∀ (heap : PageHeap) (ino : Inode) (count pos : Nat), ino.fMap.Sound heap →
      ino.size < 2 ^ 64 → pos < 2 ^ 64 → count < 2 ^ 64 →
        ∃ fuel s, genericFileRead fuel heap ino count pos = .done s ∧
          ReadDone heap ino count pos s := by
  intro hall
  obtain ⟨fuel, s, hdone, -⟩ := hall emptyHeap (sizedFile 100) 200 0 (sizedFile_sound emptyHeap 100)
    (by decide) (by norm_num) (by norm_num)
  exact read_over_end (by decide) (by decide) (by norm_num) (by decide) fuel s hdone

end Lucix.FileIo
