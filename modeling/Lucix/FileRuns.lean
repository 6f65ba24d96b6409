import Lucix.FileRead
import Lucix.FileWrite

/-! Runs of reads, writes and seeks on several open files of several inodes, against files that are
sequences of bytes. -/
namespace Lucix.FileIo
open Execution PagedBytes

variable {ι φ : Type*} [DecidableEq ι] [DecidableEq φ]

/-- The inodes and the field `offset` of each open file, over one heap of pages. -/
structure FileTable (ι φ : Type*) where
  heap : PageHeap
  inodes : ι → Inode
  offsets : φ → Nat

/-- The function `vfs_lseek` for a file without an operation of its own: what it returns, and the offset. -/
def vfsLseek (ino : Inode) (cur offset whence : Nat) : Int × Nat :=
  match whence with
  | 0 => (0, offset)
  | 1 => (0, wrap64 (cur + offset))
  | 2 => (0, wrap64 (ino.size + offset))
  | _ => (-22, cur)

inductive FileCall (φ : Type*) where
  | read (file : φ) (count : Nat)
  | write (file : φ) (src : List UInt8)
  | lseek (file : φ) (offset whence : Nat)
  deriving DecidableEq, Repr

/-- What a call returns; a read also returns the bytes that it has stored. -/
inductive FileRet where
  | read (total : Nat) (bytes : List UInt8)
  | wrote (total : Nat)
  | code (ret : Int)
  deriving DecidableEq, Repr

/-- A call with `&file->offset`; `none` where it faults or is not over. -/
def FileTable.call (inodeOf : φ → ι) (t : FileTable ι φ) : FileCall φ → Option (FileRet × FileTable ι φ)
  | .read file count =>
      match genericFileRead count t.heap (t.inodes (inodeOf file)) count (t.offsets file) with
      | .done s => some (.read s.total s.out,
          ⟨s.heap, Function.update t.inodes (inodeOf file) s.ino, Function.update t.offsets file s.pos⟩)
      | _ => none
  | .write file src =>
      match genericFileWrite src.length t.heap (t.inodes (inodeOf file)) (src.getD · 0) src.length
          (t.offsets file) with
      | .done s => some (.wrote s.total,
          ⟨s.heap, Function.update t.inodes (inodeOf file) s.ino, Function.update t.offsets file s.pos⟩)
      | _ => none
  | .lseek file offset whence =>
      let (ret, cur) := vfsLseek (t.inodes (inodeOf file)) (t.offsets file) offset whence
      some (.code ret, { t with offsets := Function.update t.offsets file cur })

/-- The calls of a run with what they have returned so far. -/
def FileTable.step (inodeOf : φ → ι) (s : FileTable ι φ × List FileRet) (call : FileCall φ) :
    Option (FileTable ι φ × List FileRet) :=
  (s.1.call inodeOf call).map fun (ret, t) => (t, s.2 ++ [ret])

/-! ### Files as sequences of bytes -/

structure Files (ι φ : Type*) where
  data : ι → List UInt8
  offsets : φ → Nat

/-- The bytes at a position replaced, behind zeros where the file ends in front of it. -/
def writeAt (data : List UInt8) (pos : Nat) (src : List UInt8) : List UInt8 :=
  (List.range (max data.length (pos + src.length))).map fun x =>
    if pos ≤ x ∧ x < pos + src.length then src.getD (x - pos) 0 else data.getD x 0

def readAt (data : List UInt8) (pos count : Nat) : List UInt8 := (data.drop pos).take count

def seekTo (size cur offset whence : Nat) : Int × Nat :=
  match whence with
  | 0 => (0, offset)
  | 1 => (0, (cur + offset) % 2 ^ 64)
  | 2 => (0, (size + offset) % 2 ^ 64)
  | _ => (-22, cur)

def Files.call (inodeOf : φ → ι) (a : Files ι φ) : FileCall φ → FileRet × Files ι φ
  | .read file count =>
      let bytes := readAt (a.data (inodeOf file)) (a.offsets file) count
      (.read bytes.length bytes,
        { a with offsets := Function.update a.offsets file (a.offsets file + bytes.length) })
  | .write file src =>
      (.wrote src.length,
        ⟨Function.update a.data (inodeOf file) (writeAt (a.data (inodeOf file)) (a.offsets file) src),
          Function.update a.offsets file (a.offsets file + src.length)⟩)
  | .lseek file offset whence =>
      let (ret, cur) := seekTo (a.data (inodeOf file)).length (a.offsets file) offset whence
      (.code ret, { a with offsets := Function.update a.offsets file cur })

def Files.next (inodeOf : φ → ι) (a : Files ι φ × List FileRet) (call : FileCall φ) : Files ι φ × List FileRet :=
  ((a.1.call inodeOf call).2, a.2 ++ [(a.1.call inodeOf call).1])

/-- A transfer has a page or more of bytes left to its last one, or stays inside one page. -/
def PageWise (pos count : Nat) : Prop := pageSize ≤ count ∨ pos % pageSize + count ≤ pageSize

/-- Nothing is written behind the end or behind the slots of the mapping, and nothing is read over the
end of the file but from behind it. -/
def Files.Fits (capacity : ι → Nat) (inodeOf : φ → ι) (a : Files ι φ × List FileRet) : FileCall φ → Prop
  | .read file count =>
      let size := (a.1.data (inodeOf file)).length
      size ≤ a.1.offsets file ∨ count = 0 ∨
        a.1.offsets file + count ≤ size ∧ PageWise (a.1.offsets file) count
  | .write file src =>
      src = [] ∧ a.1.offsets file ≤ (a.1.data (inodeOf file)).length ∨
        src ≠ [] ∧ PageWise (a.1.offsets file) src.length ∧
          a.1.offsets file + src.length ≤ capacity (inodeOf file) * pageSize
  | .lseek _ offset _ => offset < 2 ^ 64

/-! ### The inodes show the files -/

structure FileTable.Shows (capacity : ι → Nat) (a : Files ι φ) (t : FileTable ι φ) : Prop where
  sound : ∀ i, (t.inodes i).fMap.Sound t.heap
  apart : ∀ i j p, i ≠ j → (t.inodes i).fMap.Owns p → ¬ (t.inodes j).fMap.Owns p
  slots : ∀ i, (t.inodes i).fMap.nrPages = capacity i
  size : ∀ i, (t.inodes i).size = (a.data i).length
  content : ∀ i, (t.inodes i).fMap.content t.heap = ((a.data i).getD · 0)
  inside : ∀ i, (a.data i).length ≤ capacity i * pageSize
  offsets : t.offsets = a.offsets
  offset_lt : ∀ f, a.offsets f < 2 ^ 64

section proofs
variable {capacity : ι → Nat} {inodeOf : φ → ι} {a : Files ι φ} {t : FileTable ι φ} {data src : List UInt8}
  {pos count : Nat}

theorem content_congr {heap heap' : PageHeap} {map : PageMapping}
    (h : ∀ p, map.Owns p → (heap'.pages p).bytes = (heap.pages p).bytes) : map.content heap' = map.content heap := by
  unfold PageMapping.content
  congr 1
  funext i
  cases hi : map.pages[i]? with
  | none => rfl
  | some slot =>
      cases slot with
      | none => rfl
      | some p => exact congrArg some (h p ⟨i, hi⟩)

theorem writeAt_length (data : List UInt8) (pos : Nat) (src : List UInt8) :
    (writeAt data pos src).length = max data.length (pos + src.length) := by
  rw [writeAt, List.length_map, List.length_range]

theorem writeAt_content (data : List UInt8) (pos : Nat) (src : List UInt8) :
    ((writeAt data pos src).getD · 0) = overwrite (data.getD · 0) pos (src.getD · 0) src.length := by
  funext x
  unfold writeAt overwrite
  rw [List.getD_eq_getElem?_getD, List.getElem?_map]
  by_cases hx : x < max data.length (pos + src.length)
  · rw [List.getElem?_range hx]
    rfl
  · rw [List.getElem?_eq_none (by rw [List.length_range]; omega), if_neg (by omega)]
    exact (List.getD_eq_default data 0 (show data.length ≤ x by omega)).symm

theorem readAt_length (data : List UInt8) (pos count : Nat) :
    (readAt data pos count).length = min count (data.length - pos) := by
  rw [readAt, List.length_take, List.length_drop]

theorem readAt_eq (data : List UInt8) (pos count : Nat) :
    readAt data pos count = (List.range (min count (data.length - pos))).map fun i => data.getD (pos + i) 0 := by
  refine List.ext_getElem? fun i => ?_
  rw [readAt, List.getElem?_map]
  by_cases hi : i < min count (data.length - pos)
  · rw [List.getElem?_take_of_lt (by omega), List.getElem?_drop, List.getElem?_range hi, Option.map_some,
      List.getD_eq_getElem?_getD, List.getElem?_eq_getElem (by omega)]
    rfl
  · rw [List.getElem?_eq_none (by rw [List.length_take, List.length_drop]; omega),
      List.getElem?_eq_none (by rw [List.length_range]; omega)]
    rfl

theorem FileTable.Shows.transfer (h : t.Shows capacity a) {i : ι} {data : List UInt8} {heap : PageHeap} {ino : Inode}
    (htracks : Tracks t.heap (t.inodes i).fMap (data.getD · 0) heap ino.fMap) (hsize : ino.size = data.length)
    (hinside : data.length ≤ capacity i * pageSize) (f : φ) {pos : Nat} (hpos : pos < 2 ^ 64) :
    FileTable.Shows capacity ⟨Function.update a.data i data, Function.update a.offsets f pos⟩
      ⟨heap, Function.update t.inodes i ino, Function.update t.offsets f pos⟩ := by
  -- the pages of another file are neither written nor taken
  have hother : ∀ j, j ≠ i → ∀ p, (t.inodes j).fMap.Owns p →
      ¬ ino.fMap.Owns p ∧ (heap.pages p).bytes = (t.heap.pages p).bytes :=
    fun j hj p hp => htracks.others p ((h.sound j).handed p hp) (h.apart j i p hj hp)
  refine ⟨fun j => ?_, fun j k p hjk hj hk => ?_, fun j => ?_, fun j => ?_, fun j => ?_, fun j => ?_, ?_, fun g => ?_⟩
  · by_cases hj : j = i
    · subst hj
      simp only [Function.update_self]
      exact htracks.sound
    · simp only [Function.update_of_ne hj]
      exact { h.sound j with handed := fun p hp => ((h.sound j).handed p hp).trans_le htracks.next_le }
  · by_cases hji : j = i
    · subst hji
      simp only [Function.update_self, Function.update_of_ne (Ne.symm hjk)] at hj hk
      exact (hother k (Ne.symm hjk) p hk).1 hj
    · simp only [Function.update_of_ne hji] at hj
      by_cases hki : k = i
      · subst hki
        simp only [Function.update_self] at hk
        exact (hother j hji p hj).1 hk
      · simp only [Function.update_of_ne hki] at hk
        exact h.apart j k p hjk hj hk
  · by_cases hj : j = i
    · subst hj
      simp only [Function.update_self]
      rw [htracks.sound.count_eq, htracks.length_eq, ← (h.sound j).count_eq, h.slots j]
    · simp only [Function.update_of_ne hj]
      exact h.slots j
  · by_cases hj : j = i
    · subst hj
      simp only [Function.update_self]
      exact hsize
    · simp only [Function.update_of_ne hj]
      exact h.size j
  · by_cases hj : j = i
    · subst hj
      simp only [Function.update_self]
      exact htracks.content_eq
    · simp only [Function.update_of_ne hj]
      rw [← h.content j]
      exact content_congr fun p hp => (hother j hj p hp).2
  · by_cases hj : j = i
    · subst hj
      simp only [Function.update_self]
      exact hinside
    · simp only [Function.update_of_ne hj]
      exact h.inside j
  · simp only [h.offsets]
  · simp only [Function.update_apply]
    split_ifs
    · exact hpos
    · exact h.offset_lt g

omit [DecidableEq ι] [DecidableEq φ] in
theorem FileTable.Shows.size_lt (h : t.Shows capacity a) (i : ι) :
    (a.data i).length ≤ 4096 * pageSize ∧ capacity i ≤ 4096 := by
  have hfew : capacity i ≤ 4096 := by
    rw [← h.slots i, (h.sound i).count_eq]
    exact (h.sound i).few
  exact ⟨(h.inside i).trans (Nat.mul_le_mul_right _ hfew), hfew⟩

theorem shows_read (h : t.Shows capacity a) (f : φ) {log : List FileRet}
    (hfits : Files.Fits capacity inodeOf (a, log) (.read f count)) :
    ∃ t', t.call inodeOf (.read f count) = some ((a.call inodeOf (.read f count)).1, t') ∧
      FileTable.Shows capacity (a.call inodeOf (.read f count)).2 t' := by
  obtain ⟨hsize, -⟩ := h.size_lt (inodeOf f)
  have hinside := h.inside (inodeOf f)
  have hoffset := h.offset_lt f
  have hread : ReadFits (t.inodes (inodeOf f)) (t.offsets f) count := by
    rw [ReadFits, h.size, h.offsets, h.slots]
    rcases hfits with hend | hnone | ⟨hin, hpage⟩
    · exact Or.inl hend
    · exact Or.inr (Or.inl hnone)
    · exact Or.inr (Or.inr ⟨hin, hpage, hin.trans hinside⟩)
  obtain ⟨s, hdone, hdid, htracks⟩ := read_tracks (h.sound (inodeOf f))
    (by rw [h.size]; simp only [pageSize] at hsize; omega) (by rw [h.offsets]; exact hoffset) hread
  have htotal : s.total = (readAt (a.data (inodeOf f)) (a.offsets f) count).length := by
    rw [hdid.total_eq, h.size, h.offsets, readAt_length]
    split_ifs with hend
    · omega
    · rfl
  have hout : s.out = readAt (a.data (inodeOf f)) (a.offsets f) count := by
    rw [hdid.out_eq, htotal, readAt_length, readAt_eq, h.content, h.offsets]
  have hpos : s.pos = a.offsets f + (readAt (a.data (inodeOf f)) (a.offsets f) count).length := by
    rw [hdid.pos_eq, htotal, h.offsets]
  rw [h.content] at htracks
  have hshows := h.transfer htracks (hdid.size_eq.trans (h.size _)) hinside f
    (show s.pos < 2 ^ 64 by
      rw [hpos, readAt_length]
      simp only [pageSize] at hsize
      by_cases hend : (a.data (inodeOf f)).length ≤ a.offsets f
      · omega
      · omega)
  refine ⟨⟨s.heap, Function.update t.inodes (inodeOf f) s.ino, Function.update t.offsets f s.pos⟩, ?_, ?_⟩
  · rw [FileTable.call, hdone]
    dsimp only
    rw [htotal, hout]
    rfl
  · rw [Function.update_eq_self, hpos] at hshows
    rw [hpos]
    exact hshows

theorem shows_write (h : t.Shows capacity a) (f : φ) {log : List FileRet}
    (hfits : Files.Fits capacity inodeOf (a, log) (.write f src)) :
    ∃ t', t.call inodeOf (.write f src) = some ((a.call inodeOf (.write f src)).1, t') ∧
      FileTable.Shows capacity (a.call inodeOf (.write f src)).2 t' := by
  obtain ⟨hsize, hfew⟩ := h.size_lt (inodeOf f)
  have hinside := h.inside (inodeOf f)
  have hoffset := h.offset_lt f
  have hwrite : WriteFits (t.inodes (inodeOf f)) (t.offsets f) src.length := by
    rcases hfits with ⟨rfl, hle⟩ | ⟨hne, hpage, hend⟩
    · refine Or.inl ⟨rfl, ?_⟩
      rw [h.size, h.offsets]
      exact hle
    · refine writeFits_of_full (h.sound (inodeOf f)).count_eq (List.length_pos_iff.mpr hne) ?_ ?_
      · rw [h.offsets]
        exact hpage
      · rw [h.offsets, h.slots]
        exact hend
  have hend : a.offsets f + src.length ≤ capacity (inodeOf f) * pageSize := by
    rcases hfits with ⟨rfl, hle⟩ | ⟨-, -, hend⟩
    · exact (Nat.add_le_add_right hle _).trans hinside
    · exact hend
  have htracked := @write_tracks t.heap (t.inodes (inodeOf f)) (src.getD · 0) src.length (t.offsets f)
    (h.sound (inodeOf f)) (by rw [h.offsets]; exact hoffset) hwrite
  obtain ⟨s, hdone, hdid, htracks⟩ := htracked
  have hpos : s.pos = a.offsets f + src.length := by rw [hdid.pos_eq, h.offsets]
  rw [h.content, h.offsets, ← writeAt_content] at htracks
  have hshows := h.transfer htracks
    (by rw [hdid.size_eq, h.size, h.offsets, writeAt_length])
    (by rw [writeAt_length]; omega) f
    (show s.pos < 2 ^ 64 by
      have := hend.trans (Nat.mul_le_mul_right pageSize hfew)
      simp only [pageSize] at this
      omega)
  refine ⟨⟨s.heap, Function.update t.inodes (inodeOf f) s.ino, Function.update t.offsets f s.pos⟩, ?_, ?_⟩
  · rw [FileTable.call, hdone]
    dsimp only
    rw [hdid.total_eq]
    rfl
  · rw [hpos] at hshows ⊢
    exact hshows

omit [DecidableEq ι] [DecidableEq φ] in
theorem vfsLseek_eq (h : t.Shows capacity a) (f : φ) (offset whence : Nat) :
    vfsLseek (t.inodes (inodeOf f)) (t.offsets f) offset whence =
      seekTo (a.data (inodeOf f)).length (a.offsets f) offset whence := by
  unfold vfsLseek seekTo
  rw [h.size, h.offsets]
  simp only [wrap64]

theorem seekTo_lt {size cur offset : Nat} (hcur : cur < 2 ^ 64) (hoffset : offset < 2 ^ 64) (whence : Nat) :
    (seekTo size cur offset whence).2 < 2 ^ 64 := by
  unfold seekTo
  split
  · exact hoffset
  · exact Nat.mod_lt _ (by norm_num)
  · exact Nat.mod_lt _ (by norm_num)
  · exact hcur

theorem shows_lseek (h : t.Shows capacity a) (f : φ) {offset : Nat} (whence : Nat) (hoffset : offset < 2 ^ 64) :
    ∃ t', t.call inodeOf (.lseek f offset whence) = some ((a.call inodeOf (.lseek f offset whence)).1, t') ∧
      FileTable.Shows capacity (a.call inodeOf (.lseek f offset whence)).2 t' := by
  refine ⟨⟨t.heap, t.inodes, Function.update t.offsets f
    (seekTo (a.data (inodeOf f)).length (a.offsets f) offset whence).2⟩, ?_, ?_⟩
  · rw [FileTable.call, vfsLseek_eq h]
    rfl
  · refine ⟨h.sound, h.apart, h.slots, h.size, h.content, h.inside, ?_, fun g => ?_⟩
    · simp only [h.offsets, Files.call]
    · simp only [Files.call, Function.update_apply]
      split_ifs
      · exact seekTo_lt (h.offset_lt f) hoffset whence
      · exact h.offset_lt g

/-- In whatever order files are read, written and moved in through whichever of their descriptors, a run whose
calls fit returns what the same run on sequences of bytes returns, and leaves the inodes showing its files. -/
theorem run_files (h : t.Shows capacity a) (calls : List (FileCall φ))
    (hfits : Guarded (fun a call => some (Files.next inodeOf a call)) (Files.Fits capacity inodeOf) (a, []) calls) :
    ∃ t', run (FileTable.step inodeOf) (t, []) calls = some (t', (calls.foldl (Files.next inodeOf) (a, [])).2) ∧
      t'.Shows capacity (calls.foldl (Files.next inodeOf) (a, [])).1 := by
  have hstep : ∀ (x : Files ι φ × List FileRet) (s : FileTable ι φ × List FileRet) (call : FileCall φ),
      (s.1.Shows capacity x.1 ∧ s.2 = x.2) → Files.Fits capacity inodeOf x call →
        ∃ s', FileTable.step inodeOf s call = some s' ∧
          s'.1.Shows capacity (Files.next inodeOf x call).1 ∧ s'.2 = (Files.next inodeOf x call).2 := by
    rintro ⟨a, log⟩ ⟨t, log'⟩ call ⟨hshows, rfl⟩ hcall
    have hcalled : ∃ t', t.call inodeOf call = some ((a.call inodeOf call).1, t') ∧
        FileTable.Shows capacity (a.call inodeOf call).2 t' := by
      cases call with
      | read f count => exact shows_read hshows f hcall
      | write f src => exact shows_write hshows f hcall
      | lseek f offset whence => exact shows_lseek hshows f whence hcall
    obtain ⟨t', ht', hnext⟩ := hcalled
    refine ⟨(t', log' ++ [(a.call inodeOf call).1]), ?_, hnext, rfl⟩
    rw [FileTable.step, ht']
    rfl
  obtain ⟨⟨t', log⟩, hrun, hshows, rfl⟩ := run_simulates
    (fun (x : Files ι φ × List FileRet) (s : FileTable ι φ × List FileRet) => s.1.Shows capacity x.1 ∧ s.2 = x.2)
    (a := (a, [])) (s := (t, [])) hstep ⟨h, rfl⟩ hfits
  exact ⟨t', hrun, hshows⟩

end proofs

theorem newFile_slot (i : Nat) : newFile.fMap.pages[i]?.join = none := by
  cases hi : newFile.fMap.pages[i]? with
  | none => rfl
  | some slot => simpa [newFile] using List.mem_of_getElem? hi

omit [DecidableEq ι] [DecidableEq φ] in
theorem newFiles_shows (heap : PageHeap) :
    FileTable.Shows (fun _ => 2) (⟨fun _ => [], fun _ => 0⟩ : Files ι φ) ⟨heap, fun _ => newFile, fun _ => 0⟩ where
  sound _ := newFile_sound heap
  apart := by
    rintro i j p - ⟨k, hk⟩
    have hnone := newFile_slot k
    rw [hk] at hnone
    contradiction
  slots _ := rfl
  size _ := rfl
  content _ := by
    funext x
    simp only [PageMapping.content, newFile_slot, Option.map_none, view]
    rfl
  inside _ := Nat.zero_le _
  offsets := rfl
  offset_lt _ := by norm_num

/-- Two descriptors of one file and one of another. -/
theorem run_files_shared :
    ∃ t', run (FileTable.step fun f : Fin 3 => decide (f = 2)) (⟨emptyHeap, fun _ => newFile, fun _ => 0⟩, [])
      [.write 0 [1, 2], .write 2 [3], .lseek 1 1 0, .read 1 1] =
        some (t', [.wrote 2, .wrote 1, .code 0, .read 1 [2]]) := by
  obtain ⟨t', hrun, -⟩ := @run_files Bool (Fin 3) _ _ _ (fun f => decide (f = 2)) _ _ (newFiles_shows emptyHeap)
    [.write 0 [1, 2], .write 2 [3], .lseek 1 1 0, .read 1 1] (by
      simp [Guarded, Files.Fits, Files.next, Files.call, PageWise, seekTo, writeAt, pageSize])
  exact ⟨t', hrun⟩

end Lucix.FileIo
