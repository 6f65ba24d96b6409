import Lucix.Tar
import Lucix.FileWrite

/-! One member of an archive. A member is unpacked right when the walk along its path
ends in the directory that the path names; otherwise something else is made, under
names that are longer. -/
namespace Lucix.Initramfs
open Ramfs Vfs Execution
open FileIo (PageHeap Inode PageMapping)

section blocks
variable {mach : Machine} {s : State} {pos : Nat} {m : Member} {ds t c : CString} {p : Path}

theorem unpackBlock_skip (hsize : pos + 512 ≤ s.disk.size) (h : ¬ LooksLikeHeader s.disk pos) :
    unpackBlock mach s pos = some (0, s) := by
  rw [unpackBlock, tarValidHeader_eq hsize]
  simp [h]

theorem unpackBlock_header (h : HeaderOf s.disk pos m) (hsize : pos + 512 ≤ s.disk.size) :
    unpackBlock mach s pos =
      if m.typeflag = dirtype then processDirectory s pos
      else if m.typeflag = regtype then processFile mach s pos
      else some (0, s) := by
  have hflag : s.disk.read (pos + 156) = some m.typeflag := by
    rw [Ramdisk.read, if_pos (by omega), h.typeflag]
  rw [unpackBlock, tarValidHeader_eq hsize]
  simp [h.looksLike, hflag]

theorem processDirectory_root (h : Spells s.disk pos [dot, slash]) :
    processDirectory s pos = some (0, s) := by
  rw [processDirectory, h.string]
  simp

/-- No directory is found for a path that does not begin with a slash. -/
theorem vfsMkdir_relative {v : Vfs.State} {path : CString} (h : path.head? ≠ some slash) (mode : Nat) :
    vfsMkdir v path mode = none := by
  rw [vfsMkdir]
  cases v.rootFs with
  | none => rfl
  | some fs => rw [Option.bind_eq_bind, Option.bind_some, vfsLookup, if_neg h]; rfl

theorem vfsOpen_relative {v : Vfs.State} {path : CString} (h : path.head? ≠ some slash)
    (oflags mode : Nat) : vfsOpen mach v path oflags mode = none := by
  rw [vfsOpen]
  cases v.rootFs with
  | none => rfl
  | some fs =>
      have hopen : openInode fs path oflags mode = none := by rw [openInode, vfsLookup, if_neg h]; rfl
      rw [Option.bind_eq_bind, Option.bind_some, hopen]
      rfl

theorem processDirectory_lost (h : Lost s.disk pos ds t) : processDirectory s pos = none := by
  rw [processDirectory, h.spells.string, Option.bind_eq_bind, Option.bind_some,
    if_neg (not_or.mpr h.not_root)]
  cases hcall : sanitizeName s.disk pos with
  | none => rfl
  | some r =>
      obtain ⟨path, hstring, hhead⟩ := sanitizeName_lost h.spells h.dots h.not_dot h.no_path hcall
      simp [hstring, vfsMkdir_relative hhead]

theorem processFile_lost (mach : Machine) (h : Lost s.disk pos ds t) : processFile mach s pos = none := by
  rw [processFile]
  cases strtol (s.disk.tail (pos + 124)) 8 with
  | none => rfl
  | some size =>
      rw [Option.bind_eq_bind, Option.bind_some]
      cases hcall : sanitizeName s.disk pos with
      | none => rfl
      | some r =>
          obtain ⟨path, hstring, hhead⟩ := sanitizeName_lost h.spells h.dots h.not_dot h.no_path hcall
          simp [hstring, vfsOpen_relative hhead]

theorem ReadsAs.agrees (h : ReadsAs s.disk pos m ds t p c) {disk' : Ramdisk}
    (hsize : disk'.size = s.disk.size)
    (hbytes : ∀ k, pos + (ds ++ t).length ≤ k → disk'.bytes k = s.disk.bytes k) :
    AgreesFrom (pos + 512) s.disk disk' := by
  have hshort := h.short
  exact ⟨hsize, fun k hk => hbytes k (by omega)⟩

theorem ReadsAs.plain_last (h : ReadsAs s.disk pos m ds t p c) : Plain c := h.plain c (by simp)

theorem processDirectory_eq (h : ReadsAs s.disk pos m ds t p c) :
    ∃ disk', AgreesFrom (pos + 512) s.disk disk' ∧
      processDirectory s pos = (vfsMkdir s.vfs (joinPath (p ++ [c])) 0).map fun (ret, vfs) =>
        (ret, { s with disk := disk', vfs := vfs }) := by
  obtain ⟨disk', hsanitize, hstring, hsize, hbytes⟩ := sanitizeName_path h.spells h.dots.2 h.plain_last h.path
  have hlong : 2 ≤ t.length := by
    have hpos := List.length_pos_iff.mpr h.plain_last.ne_nil
    have hjoin : 2 ≤ (joinPath (p ++ [c])).length := by
      rw [joinPath_concat, List.length_append, List.length_cons]
      omega
    rcases h.path with rfl | rfl
    · exact hjoin
    · rw [List.length_append]
      omega
  have hsome : 1 ≤ ds.length := List.length_pos_iff.mpr h.dots.1
  have hroot : ¬ (ds ++ t = [dot, slash] ∨ ds ++ t = [slash]) := by
    rintro (heq | heq) <;>
      · have hlen := congrArg List.length heq
        simp only [List.length_append, List.length_cons, List.length_nil] at hlen
        omega
  refine ⟨disk', h.agrees hsize hbytes, ?_⟩
  rw [processDirectory, h.spells.string]
  simp only [Option.bind_eq_bind, Option.bind_some, if_neg hroot, hsanitize, hstring]
  cases vfsMkdir s.vfs (joinPath (p ++ [c])) 0 <;> rfl

theorem creating_flags : (oCreat ||| oWronly) &&& oCreat ≠ 0 := by decide

/-- The end of `process_file`, with the file open. -/
def storeData (disk : Ramdisk) (vfs : Vfs.State) (heap : PageHeap) (id : Nat) (src : Nat → UInt8)
    (size : Nat) : Option (Int × State) :=
  (writeFile vfs heap id src size).bind fun (vfs, heap) =>
    (vfsClose vfs id).map fun vfs => (0, ⟨disk, vfs, heap⟩)

theorem processFile_eq (mach : Machine) (h : HeaderOf s.disk pos m) (hr : ReadsAs s.disk pos m ds t p c)
    (hdata : pos + 512 + m.data.length ≤ s.disk.size) :
    ∃ disk', AgreesFrom (pos + 512) s.disk disk' ∧
      processFile mach s pos =
        (vfsOpen mach s.vfs (joinPath (p ++ [c])) (oCreat ||| oWronly) 0o777).bind fun (file, vfs) =>
          file.bind fun id => storeData disk' vfs s.heap id (fun i => disk'.bytes (pos + 512 + i))
            m.data.length := by
  obtain ⟨disk', hsanitize, hstring, hsize, hbytes⟩ :=
    sanitizeName_path hr.spells hr.dots.2 hr.plain_last hr.path
  obtain ⟨n, hn⟩ := h.strtol_size (by omega)
  refine ⟨disk', hr.agrees hsize hbytes, ?_⟩
  have hinside : ¬ (m.data.length ≠ 0 ∧ disk'.size < pos + 512 + m.data.length) := by
    rw [hsize]
    omega
  rw [processFile, hn]
  simp only [Option.bind_eq_bind, Option.bind_some, hsanitize, hstring, if_neg hinside]
  generalize vfsOpen mach s.vfs (joinPath (p ++ [c])) (oCreat ||| oWronly) 0o777 = opened
  rcases opened with - | ⟨file, vfs⟩
  · rfl
  · rcases file with - | id
    · rfl
    · simp only [Option.bind_some, storeData]
      generalize writeFile vfs s.heap id _ _ = written
      rcases written with - | ⟨vfs', heap⟩
      · rfl
      · simp only [Option.bind_some]
        cases vfsClose vfs' id <;> rfl

end blocks

/-! ### Storing the data -/

section storing
variable {mach : Machine} {v : Vfs.State} {fs : Fs} {heap : PageHeap} {src : Nat → UInt8}
  {ino oflags size : Nat} {disk : Ramdisk} {N : Names}

/-- The tree after the data has been written: one inode has changed, and counters. -/
structure Stored (fs : Fs) (ino : Nat) (node : Inode) (fs' : Fs) : Prop where
  root_eq : fs'.root = fs.root
  next_eq : fs'.next = fs.next
  lists_eq : fs'.dirEntries = fs.dirEntries
  cache_eq : fs'.nameCacheList = fs.nameCacheList
  same : (fs.setInode ino node).SameFiles fs'

theorem Stored.shows' {node : Inode} {fs' : Fs} (h : Stored fs ino node fs') (hN : N.Shows fs)
    (hmode : node.mode = (fs.inodes ino).mode) : N.Shows fs' := by
  have hset : N.Shows (fs.setInode ino node) := by
    refine { hN with types := fun p hp => ?_ }
    rw [← hN.types p hp]
    by_cases hi : N.inode p = ino
    · simp [Fs.setInode, hi, inoType, hmode]
    · simp [Fs.setInode, hi]
  exact hset.of_same h.same h.root_eq h.next_eq h.lists_eq h.cache_eq

/-- The state after the write of an open file. -/
def written (mach : Machine) (v : Vfs.State) (fs : Fs) (ino oflags : Nat) (w : FileIo.WriteLoop) :
    Vfs.State :=
  { (openFile mach v fs ino oflags).setFs ((fs.inoRef ino).setInode ino w.ino) with
    files := (openFile mach v fs ino oflags).files.map fun f =>
      if f.id = v.nextFile then { f with offset := w.pos } else f }

theorem writeFile_open (htype : inoType (fs.inodes ino) ≠ sIfchr) :
    writeFile (openFile mach v fs ino oflags) heap v.nextFile src size =
      match FileIo.genericFileWrite size heap ((fs.inoRef ino).inodes ino) src size 0 with
      | .done w => some (written mach v fs ino oflags w, w.heap)
      | _ => none := by
  have hroot : (openFile mach v fs ino oflags).rootFs = some (fs.inoRef ino) := rfl
  have hfind : (openFile mach v fs ino oflags).files.find? (fun f => decide (f.id = v.nextFile)) =
      some ⟨v.nextFile, ino, oflags, 0, (mach.fileMemory v.nextFile + 1) % 2 ^ 32⟩ := by
    simp [openFile]
  have htype' : inoType ((fs.inoRef ino).inodes ino) ≠ sIfchr := by
    rw [(Fs.SameFiles.inoRef fs ino).inoType_eq]
    exact htype
  simp only [writeFile, hroot, hfind, Option.bind_eq_bind, Option.bind_some, if_neg htype']
  rfl

theorem vfsClose_found {s : Vfs.State} {id : Nat} {file : File} (hroot : s.rootFs = some fs)
    (hfind : (s.files.find? fun f => decide (f.id = id)) = some file) :
    ∃ v' fs', vfsClose s id = some v' ∧ v'.rootFs = some fs' ∧
      (fs' = fs.inoDeref file.inode ∨ fs' = fs) := by
  unfold vfsClose
  rw [hroot, Option.bind_eq_bind, Option.bind_some, hfind, Option.bind_eq_bind, Option.bind_some]
  generalize (file.refcnt + 2 ^ 32 - 1) % 2 ^ 32 = refcnt
  by_cases hlast : refcnt = 0
  · simp only [if_pos hlast]
    exact ⟨_, fs.inoDeref file.inode, rfl, rfl, .inl rfl⟩
  · simp only [if_neg hlast]
    exact ⟨_, fs, rfl, hroot, .inr rfl⟩

theorem written_find (mach : Machine) (v : Vfs.State) (fs : Fs) (ino oflags : Nat) (w : FileIo.WriteLoop) :
    ∃ file, ((written mach v fs ino oflags w).files.find? fun f => decide (f.id = v.nextFile)) = some file ∧
      file.inode = ino := by
  unfold written openFile
  generalize (mach.fileMemory v.nextFile + 1) % 2 ^ 32 = refcnt
  exact ⟨⟨v.nextFile, ino, oflags, w.pos, refcnt⟩, by simp, rfl⟩

theorem store_done (mach : Machine) (v : Vfs.State) (oflags : Nat) (disk : Ramdisk)
    (htype : inoType (fs.inodes ino) ≠ sIfchr) {w : FileIo.WriteLoop}
    (hw : FileIo.genericFileWrite size heap ((fs.inoRef ino).inodes ino) src size 0 = .done w) :
    ∃ v' fs', storeData disk (openFile mach v fs ino oflags) heap v.nextFile src size =
        some (0, ⟨disk, v', w.heap⟩) ∧ v'.rootFs = some fs' ∧ Stored (fs.inoRef ino) ino w.ino fs' := by
  have hroot : (written mach v fs ino oflags w).rootFs = some ((fs.inoRef ino).setInode ino w.ino) := rfl
  obtain ⟨file, hfind, hino⟩ := written_find mach v fs ino oflags w
  obtain ⟨v', fs', hclose, hfs', hcases⟩ := vfsClose_found hroot hfind
  rw [hino] at hcases
  refine ⟨v', fs', ?_, hfs', ?_⟩
  · rw [storeData, writeFile_open htype, hw]
    simp only [Option.bind_some, hclose, Option.map_some]
  · rcases hcases with rfl | rfl
    · exact ⟨rfl, rfl, rfl, rfl, .inoDeref _ _⟩
    · exact ⟨rfl, rfl, rfl, rfl, .refl _⟩

theorem store_written (htype : inoType (fs.inodes ino) ≠ sIfchr) {r : Int × State}
    (h : storeData disk (openFile mach v fs ino oflags) heap v.nextFile src size = some r) :
    ∃ w, FileIo.genericFileWrite size heap ((fs.inoRef ino).inodes ino) src size 0 = .done w := by
  rw [storeData, writeFile_open htype] at h
  generalize FileIo.genericFileWrite size heap ((fs.inoRef ino).inodes ino) src size 0 = o at h ⊢
  cases o with
  | done w => exact ⟨w, rfl⟩
  | fault => simp at h
  | running w => simp at h

theorem vfsOpen_eq {path : CString} {mode : Nat} {fs' : Fs} (hroot : v.rootFs = some fs)
    (hopen : openInode fs path oflags mode = some (some ino, fs'))
    (htype : inoType (fs'.inodes ino) = sIfreg ∨ inoType (fs'.inodes ino) = sIfdir) :
    vfsOpen mach v path oflags mode =
      if ino ≠ fs'.root then some (some v.nextFile, openFile mach v fs' ino oflags) else none := by
  have hchr : inoType (fs'.inodes ino) ≠ sIfchr := by
    rcases htype with htype | htype <;> rw [htype] <;> decide
  have hblk : inoType (fs'.inodes ino) ≠ sIfblk := by
    rcases htype with htype | htype <;> rw [htype] <;> decide
  simp only [vfsOpen, hroot, hopen, Option.bind_eq_bind, Option.bind_some, if_neg hchr, if_neg hblk, htype,
    true_and]

end storing

/-! ### What a file holds -/

/-- The file has this size and begins with these bytes, in pages that have been handed out. -/
structure FileOf (heap : PageHeap) (node : Inode) (size : Nat) (data : List UInt8) : Prop where
  size_eq : node.size = size
  content : ∀ k b, data[k]? = some b → node.fMap.content heap k = b
  handed : ∀ p, node.fMap.Owns p → p < heap.next

section files
variable {heap heap' : PageHeap} {node node' : Inode} {size : Nat} {data : List UInt8}

theorem content_congr {map : PageMapping}
    (h : ∀ p, map.Owns p → (heap'.pages p).bytes = (heap.pages p).bytes) :
    map.content heap' = map.content heap := by
  unfold PageMapping.content
  congr 1
  funext i
  cases hslot : map.pages[i]?.join with
  | none => rfl
  | some p =>
      rw [Option.map_some, Option.map_some, h p ⟨i, Option.join_eq_some_iff.mp hslot⟩]

theorem FileOf.keep (h : FileOf heap node size data) (hsize : node'.size = node.size)
    (hmap : node'.fMap = node.fMap) (hnext : heap.next ≤ heap'.next)
    (hpages : ∀ p < heap.next, (heap'.pages p).bytes = (heap.pages p).bytes) :
    FileOf heap' node' size data where
  size_eq := hsize.trans h.size_eq
  content k b hb := by
    rw [hmap, content_congr fun p hp => hpages p (h.handed p hp)]
    exact h.content k b hb
  handed p hp := lt_of_lt_of_le (h.handed p (hmap ▸ hp)) hnext

theorem write_new_file (heap : PageHeap) {src : Nat → UInt8} (hmap : node.fMap = ⟨[none, none], 2⟩)
    (hfits : data.length ≤ 2 * pageSize) (hsrc : ∀ k b, data[k]? = some b → src k = b) :
    ∃ w, FileIo.genericFileWrite data.length heap node src data.length 0 = .done w ∧
      FileOf w.heap w.ino (max node.size data.length) data ∧ w.ino.mode = node.mode ∧
      heap.next ≤ w.heap.next ∧ ∀ p < heap.next, (w.heap.pages p).bytes = (heap.pages p).bytes := by
  have hsound : node.fMap.Sound heap := hmap ▸ FileIo.newFile_sound heap
  have hslots : node.fMap.nrPages = 2 := by rw [hmap]
  have hunowned : ∀ p, ¬ node.fMap.Owns p := by
    rintro p ⟨i, hi⟩
    have hmem := List.mem_of_getElem? hi
    simp [hmap] at hmem
  have hwrite : FileIo.WriteFits node 0 data.length := by
    rcases Nat.eq_zero_or_pos data.length with hzero | hpos
    · exact .inl ⟨hzero, Nat.zero_le _⟩
    · refine FileIo.writeFits_of_full hsound.count_eq hpos ?_ (by rw [hslots]; omega)
      rw [Nat.zero_mod]
      omega
  obtain ⟨w, hdone, hwritten, htracks⟩ := FileIo.write_tracks hsound (by decide) hwrite
  refine ⟨w, hdone, ⟨?_, ?_, htracks.sound.handed⟩, FileIo.write_mode hdone, htracks.next_le, ?_⟩
  · rw [hwritten.size_eq, Nat.zero_add]
  · intro k b hb
    have hlt : k < data.length := (List.getElem?_eq_some_iff.mp hb).1
    rw [htracks.content_eq, PagedBytes.overwrite, if_pos (by omega), Nat.sub_zero]
    exact hsrc k b hb
  · exact fun p hp => (htracks.others p hp (hunowned p)).2

/-- A new file holds no more. -/
theorem write_new_file_fits {src : Nat → UInt8} {n : Nat} {w : FileIo.WriteLoop}
    (hmap : node.fMap = ⟨[none, none], 2⟩) (hn : n < 2 ^ 64)
    (hdone : FileIo.genericFileWrite n heap node src n 0 = .done w) : n ≤ 2 * pageSize := by
  by_contra hlong
  refine FileIo.write_behind_slots (by omega) (by omega) ?_ n w hdone
  rw [hmap]
  show 2 * pageSize < 0 + n
  omega

end files

/-! ### One member -/

/-- What the tree should hold for the member. -/
def Member.node (m : Member) : Node :=
  ⟨m.path.dropLast, m.path.getLastD [], decide (m.typeflag = dirtype)⟩

/-- The walk along the path of the member looks for its last name in the right directory, and
for a file it does not find that name. -/
def Finds (N : Names) (m : Member) : Prop :=
  ∃ r ∈ N.walk [] [] m.path, if m.typeflag = regtype then r.2 = .missing m.path.dropLast true
    else r.2.parent = some m.path.dropLast

/-- The table with the member in its place. -/
def placed (N : Names) (m : Member) : Names :=
  match N.walk [] [] m.path with
  | none => N
  | some (N', _) => N'.add m.node

instance (N : Names) (m : Member) : Decidable (Finds N m) :=
  inferInstanceAs (Decidable (∃ r ∈ N.walk [] [] m.path, _))

section members
variable {mach : Machine} {s : State} {fs : Fs} {N N' : Names} {pos : Nat} {m : Member} {p : Path}
  {ds t c : CString} {w : Walked} {isDir : Bool}

theorem Member.node_path (hpath : m.path ≠ []) : m.node.path = m.path := by
  obtain ⟨p, c, hpc⟩ := (List.eq_nil_or_concat' m.path).resolve_left hpath
  rw [Node.path, Member.node, hpc]
  simp

theorem Member.node_eq (hpc : p ++ [c] = m.path) :
    m.node = ⟨p, c, decide (m.typeflag = dirtype)⟩ := by
  simp [Member.node, ← hpc]

theorem make_eq (hwalk : N.walk [] [] (p ++ [c]) = some (N', w)) (hw : w.parent = some p)
    (hnew : p ++ [c] ∉ N.paths) (hshort : c.length < ramfsMaxFilename) :
    N.make p c isDir = some (N'.add ⟨p, c, isDir⟩) := by
  have hfree : ¬ (p ++ [c] ∈ N.paths ∨ ramfsMaxFilename ≤ c.length) := by
    rw [not_or]
    exact ⟨hnew, Nat.not_le.mpr hshort⟩
  simp only [Names.make, hwalk, hw, if_neg hfree]

theorem ReadsAs.last_short (h : ReadsAs s.disk pos m ds t p c) : c.length < ramfsMaxFilename := by
  have hshort := h.short
  rw [List.length_append] at hshort
  have hjoin : c.length < (joinPath (p ++ [c])).length := by
    rw [joinPath_concat, List.length_append, List.length_cons]
    omega
  have hle : (joinPath (p ++ [c])).length ≤ t.length := by
    rcases h.path with rfl | rfl
    · exact Nat.le_refl _
    · rw [List.length_append]
      omega
  simp only [ramfsMaxFilename]
  omega

/-- The file system after a step, with the table that it shows. -/
structure Shown (N : Names) (v : Vfs.State) (fs : Fs) : Prop where
  root_eq : v.rootFs = some fs
  sound : N.Sound
  shows' : N.Shows fs

/-- A directory whose parent the walk finds is made. -/
theorem directory_placed (h : Shown N s.vfs fs) (hr : ReadsAs s.disk pos m ds t p c)
    (hdir : m.typeflag = dirtype) (hnamed : NamedInFull s.disk pos) (hfinds : Finds N m)
    (hnew : m.path ∉ N.paths) :
    ∃ s' fs', processDirectory s pos = some (0, s') ∧ Shown (placed N m) s'.vfs fs' ∧
      fs.SameOld fs' ∧ s'.heap = s.heap ∧ AgreesFrom (pos + 512) s.disk s'.disk := by
  have hpc := hr.whole hnamed
  obtain ⟨disk', hagrees, hcall⟩ := processDirectory_eq hr
  have hmkdir := vfsMkdir_shows h.root_eq h.sound h.shows' hr.plain
  have hne : m.typeflag ≠ regtype := by
    rw [hdir]
    decide
  obtain ⟨⟨N', w⟩, hwalk, hw⟩ := hfinds
  rw [Option.mem_def, ← hpc] at hwalk
  rw [if_neg hne, ← hpc, List.dropLast_concat] at hw
  rw [← hpc] at hnew
  rw [make_eq hwalk hw hnew hr.last_short] at hmkdir
  obtain ⟨fs', hvfs, hsound, hshows, hold⟩ := hmkdir
  have hplaced : placed N m = N'.add ⟨p, c, true⟩ := by
    simp [placed, ← hpc, hwalk, Member.node_eq hpc, hdir]
  rw [hcall, hvfs, hplaced]
  exact ⟨_, fs', rfl, ⟨rfl, hsound, hshows⟩, hold, rfl, hagrees⟩

theorem added_inode {x : Node} {fs' : Fs} (hnew : x.path ∉ N.paths) (h : N.Shows fs)
    (h' : (N.add x).Shows fs') :
    inoType (fs'.inodes fs.next) = (if x.isDir then sIfdir else sIfreg) ∧ fs.next ≠ fs'.root := by
  have htype := h'.types x.path (by rw [Names.add_paths]; simp)
  rw [Names.add_inode_new hnew, Names.add_isDirectory_new hnew, ← h.next_eq] at htype
  refine ⟨htype, ?_⟩
  rw [h'.root_eq, h.next_eq]
  simp [Names.paths]

theorem Stored.sameOld {fs₁ fs₂ fs₃ : Fs} {node : Inode} (hnew : fs₁.NewFile fs₂)
    (hstored : Stored (fs₂.inoRef fs₁.next) fs₁.next node fs₃) : fs₁.SameOld fs₃ := by
  intro i hi
  obtain ⟨k, hk⟩ := hstored.same i
  obtain ⟨l, hl⟩ := (hnew.old.trans (.inoRef fs₂ fs₁.next)) i hi
  have hset : ((fs₂.inoRef fs₁.next).setInode fs₁.next node).inodes i = (fs₂.inoRef fs₁.next).inodes i := by
    simp [Fs.setInode, hi]
  exact ⟨k, by rw [hk, hset, hl]⟩

/-- The frame of a step that puts a file of this size and data in the first free object. -/
structure FileMade (s : State) (fs : Fs) (data : List UInt8) (s' : State) (fs' : Fs) : Prop where
  old : fs.SameOld fs'
  file : FileOf s'.heap (fs'.inodes fs.next) (max (fs.inodes fs.next).size data.length) data
  next_le : s.heap.next ≤ s'.heap.next
  pages : ∀ p < s.heap.next, (s'.heap.pages p).bytes = (s.heap.pages p).bytes

theorem store_new_file (mach : Machine) (v : Vfs.State) (oflags : Nat) (heap : PageHeap)
    (disk : Ramdisk) {fs₁ fs₂ : Fs} {src : Nat → UInt8} {data : List UInt8}
    (hnew : fs₁.NewFile fs₂) (hshows : N.Shows fs₂)
    (hsound : N.Sound) (htype : inoType (fs₂.inodes fs₁.next) = sIfreg)
    (hfits : data.length ≤ 2 * pageSize) (hsrc : ∀ k b, data[k]? = some b → src k = b) :
    ∃ s' fs₃, storeData disk (openFile mach v fs₂ fs₁.next oflags) heap v.nextFile src data.length =
        some (0, s') ∧ s'.disk = disk ∧ Shown N s'.vfs fs₃ ∧
        FileMade ⟨disk, v, heap⟩ fs₁ data s' fs₃ := by
  have hnode : (fs₂.inoRef fs₁.next).inodes fs₁.next = { fs₂.inodes fs₁.next with
      refcnt := ((fs₂.inodes fs₁.next).refcnt + 1) % 2 ^ 32 } := by
    simp [Fs.inoRef, Fs.setInode]
  have hmap : ((fs₂.inoRef fs₁.next).inodes fs₁.next).fMap = ⟨[none, none], 2⟩ := by
    rw [hnode]
    exact hnew.map_eq
  obtain ⟨w, hdone, hfile, hmode, hnext, hpages⟩ := write_new_file heap hmap hfits hsrc
  have hchr : inoType (fs₂.inodes fs₁.next) ≠ sIfchr := by
    rw [htype]
    decide
  obtain ⟨v', fs₃, hstore, hroot, hstored⟩ := store_done mach v oflags disk hchr hdone
  refine ⟨_, fs₃, hstore, rfl, ⟨hroot, hsound, hstored.shows' (hshows.inoRef _) hmode⟩,
    hstored.sameOld hnew, ?_, hnext, hpages⟩
  obtain ⟨k, hk⟩ := hstored.same fs₁.next
  have hself : ((fs₂.inoRef fs₁.next).setInode fs₁.next w.ino).inodes fs₁.next = w.ino := by
    simp [Fs.setInode]
  have hsize : ((fs₂.inoRef fs₁.next).inodes fs₁.next).size = (fs₁.inodes fs₁.next).size := by
    rw [hnode]
    exact hnew.size_eq
  rw [← hsize]
  refine hfile.keep ?_ ?_ (Nat.le_refl _) fun _ _ => rfl
  · rw [hk, hself]
  · rw [hk, hself]

theorem Member.not_dirtype (hreg : m.typeflag = regtype) : decide (m.typeflag = dirtype) = false := by
  rw [hreg]
  decide

/-- The data of the member stand behind its header. -/
theorem data_byte {disk' : Ramdisk} {k : Nat} {b : UInt8} (ha : AgreesFrom (pos + 512) s.disk disk')
    (hdata : s.disk.slice (pos + 512) m.data.length = m.data) (hb : m.data[k]? = some b) :
    disk'.bytes (pos + 512 + k) = b := by
  have hlt : k < m.data.length := (List.getElem?_eq_some_iff.mp hb).1
  have hslice := slice_getElem? s.disk (pos + 512) hlt
  rw [hdata, hb] at hslice
  rw [ha.bytes_eq _ (by omega)]
  exact (Option.some.inj hslice).symm

theorem file_placed (h : Shown N s.vfs fs) (hhead : HeaderOf s.disk pos m)
    (hr : ReadsAs s.disk pos m ds t p c) (hreg : m.typeflag = regtype)
    (hnamed : NamedInFull s.disk pos) (hfinds : Finds N m) (hnew : m.path ∉ N.paths)
    (hinside : pos + 512 + m.data.length ≤ s.disk.size)
    (hdata : s.disk.slice (pos + 512) m.data.length = m.data) (hfits : m.data.length ≤ 2 * pageSize) :
    ∃ s' fs', processFile mach s pos = some (0, s') ∧ Shown (placed N m) s'.vfs fs' ∧
      FileMade s fs m.data s' fs' ∧ AgreesFrom (pos + 512) s.disk s'.disk := by
  have hpc := hr.whole hnamed
  obtain ⟨disk', hagrees, hcall⟩ := processFile_eq mach hhead hr hinside
  obtain ⟨⟨N', w⟩, hwalk, hw⟩ := hfinds
  rw [Option.mem_def, ← hpc] at hwalk
  rw [if_pos hreg, ← hpc, List.dropLast_concat] at hw
  subst hw
  rw [← hpc] at hnew
  obtain ⟨hsound, hnodes⟩ := Names.walk_keeps h.sound hwalk
  have hpaths := (Names.same_tree hnodes).1
  have hnew' : p ++ [c] ∉ N'.paths := hpaths ▸ hnew
  have hopen := openInode_shows h.sound h.shows' hr.plain creating_flags 0o777
  rw [hwalk] at hopen
  obtain ⟨fs₁, hshows₁, hsame₁, hopen⟩ := hopen
  have hcreate := createFile_shows hsound hshows₁ hr.plain 0o777
  rw [make_eq (Names.walk_again h.sound hwalk) rfl hnew' hr.last_short] at hcreate
  obtain ⟨fs₂, hcreated, hsound₂, hshows₂, hmade⟩ := hcreate
  rw [hcreated] at hopen
  obtain ⟨htype, hroot⟩ := added_inode hnew' hshows₁ hshows₂
  have hsrc : ∀ k b, m.data[k]? = some b → disk'.bytes (pos + 512 + k) = b :=
    fun _ _ hb => data_byte hagrees hdata hb
  obtain ⟨s', fs₃, hstore, hdisk, hshown, hfile⟩ := store_new_file mach s.vfs (oCreat ||| oWronly)
    s.heap disk' hmade hshows₂ hsound₂ htype hfits hsrc
  have hplaced : placed N m = N'.add ⟨p, c, false⟩ := by
    simp [placed, ← hpc, hwalk, Member.node_eq hpc, Member.not_dirtype hreg]
  have hnext : fs₁.next = fs.next := by rw [hshows₁.next_eq, hpaths, h.shows'.next_eq]
  have hsize : (fs₁.inodes fs.next).size = (fs.inodes fs.next).size := by
    obtain ⟨k, hk⟩ := hsame₁ fs.next
    rw [hk]
  refine ⟨s', fs₃, ?_, ?_, ⟨?_, ?_, hfile.next_le, hfile.pages⟩, hdisk ▸ hagrees⟩
  · rw [hcall, vfsOpen_eq h.root_eq hopen (.inl htype), if_pos hroot]
    exact hstore
  · rw [hplaced]
    exact hshown
  · intro i hi
    obtain ⟨k, hk⟩ := hfile.old i (hnext ▸ hi)
    obtain ⟨l, hl⟩ := hsame₁ i
    exact ⟨k, by rw [hk, hl]⟩
  · have hmax := hfile.file
    rw [hnext, hsize] at hmax
    exact hmax

/-- The member can be unpacked: the kernel reads its whole name, the walk finds its place and a
file fits into the two slots of a new inode. -/
structure Ready (disk : Ramdisk) (pos : Nat) (N : Names) (m : Member) : Prop where
  named : NamedInFull disk pos
  finds : Finds N m
  fits : m.typeflag = regtype → m.data.length ≤ 2 * pageSize

/-- What a step that returned 0 can have done: nothing new, something under longer names, or
the member in its place. -/
def Puts (disk : Ramdisk) (pos : Nat) (N N' : Names) (m : Member) : Prop :=
  N'.nodes = N.nodes ∨ ∃ x, N'.nodes = N.nodes ++ [x] ∧
    (weight m.path < weight x.path ∨ (x.path = m.path ∧ Ready disk pos N m ∧ N' = placed N m))

/-- The path that was made is no lighter than that of the member. -/
theorem made_weight {d : Path} (hr : ReadsAs s.disk pos m ds t p c) (hd : List.Forall₂ (· <+: ·) p d) :
    weight m.path < weight (d ++ [c]) ∨ (NamedInFull s.disk pos ∧ d = p) := by
  obtain ⟨hle, heq⟩ := weight_le_of_prefixes hd
  have hp := weight_append p [c]
  have hd' := weight_append d [c]
  by_cases hnamed : NamedInFull s.disk pos
  · rw [← hr.whole hnamed]
    by_cases hback : weight d ≤ weight p
    · exact .inr ⟨hnamed, (heq hback).symm⟩
    · left
      omega
  · left
    have hlonger := hr.longer hnamed
    omega

theorem make_some {N'' : Names} (h : N.make p c isDir = some N'') :
    ∃ N' w d, N.walk [] [] (p ++ [c]) = some (N', w) ∧ w.parent = some d ∧
      ¬ (d ++ [c] ∈ N.paths ∨ ramfsMaxFilename ≤ c.length) ∧ N'' = N'.add ⟨d, c, isDir⟩ := by
  unfold Names.make at h
  split at h
  · contradiction
  · rename_i N' w hwalk
    split at h
    · contradiction
    · rename_i d hd
      split_ifs at h with hfree
      exact ⟨N', w, d, hwalk, hd, hfree, (Option.some.inj h).symm⟩

theorem made_puts {d : Path} (hr : ReadsAs s.disk pos m ds t p c) (hwalk : N.walk [] [] (p ++ [c]) = some (N', w))
    (hnodes : N'.nodes = N.nodes) (hfollows : List.Forall₂ (· <+: ·) p d)
    (hplace : if m.typeflag = regtype then w = .missing d true else w.parent = some d)
    (hflag : decide (m.typeflag = dirtype) = isDir) (hfits : m.typeflag = regtype → m.data.length ≤ 2 * pageSize) :
    Puts s.disk pos N (N'.add ⟨d, c, isDir⟩) m := by
  refine .inr ⟨⟨d, c, isDir⟩, by rw [Names.add, hnodes], ?_⟩
  rcases made_weight hr hfollows with hheavy | ⟨hnamed, rfl⟩
  · exact .inl hheavy
  · have hpc := hr.whole hnamed
    refine .inr ⟨hpc, ⟨hnamed, ⟨(N', w), ?_, ?_⟩, hfits⟩, ?_⟩
    · rw [← hpc]
      exact hwalk
    · rw [← hpc, List.dropLast_concat]
      exact hplace
    · simp [placed, ← hpc, hwalk, Member.node_eq hpc, hflag]

theorem eq_of_missing_parent {dir d : Path} {last : Bool} (hd : (Walked.missing dir last).parent = some d) :
    Walked.missing dir last = .missing d true := by
  cases last with
  | true => rw [Option.some.inj hd]
  | false => simp [Walked.parent] at hd

theorem directory_puts {s' : State} (h : Shown N s.vfs fs) (hr : ReadsAs s.disk pos m ds t p c)
    (hdir : m.typeflag = dirtype) (hcall : processDirectory s pos = some (0, s')) :
    ∃ N' fs', Shown N' s'.vfs fs' ∧ AgreesFrom (pos + 512) s.disk s'.disk ∧
      Puts s.disk pos N N' m := by
  obtain ⟨disk', hagrees, heq⟩ := processDirectory_eq hr
  have hmkdir := vfsMkdir_shows h.root_eq h.sound h.shows' hr.plain
  rw [heq] at hcall
  cases hmake : N.make p c true with
  | none =>
      rw [hmake] at hmkdir
      obtain ⟨⟨ret, v⟩, hv, hpair⟩ := Option.map_eq_some_iff.mp hcall
      simp only [Prod.mk.injEq] at hpair
      rw [hpair.1] at hv
      exact absurd hv (hmkdir v)
  | some N'' =>
      rw [hmake] at hmkdir
      obtain ⟨fs', hvfs, hsound, hshows, -⟩ := hmkdir
      rw [hvfs, Option.map_some] at hcall
      simp only [Option.some.injEq, Prod.mk.injEq, true_and] at hcall
      subst hcall
      refine ⟨N'', fs', ⟨rfl, hsound, hshows⟩, hagrees, ?_⟩
      obtain ⟨N', w, d, hwalk, hd, hfree, rfl⟩ := make_some hmake
      have hmakes : N.Makes p c true N' _ d := .of_walk h.sound hwalk hd hfree
      have hne : m.typeflag ≠ regtype := by
        rw [hdir]
        decide
      exact made_puts hr hwalk hmakes.nodes_eq hmakes.follows (by rwa [if_neg hne]) (decide_eq_true hdir)
        fun hreg => absurd hreg hne

/-- Data that was stored leaves the tree as it was. -/
theorem store_keeps {v : Vfs.State} {ino oflags size : Nat} {heap : PageHeap} {disk : Ramdisk}
    {src : Nat → UInt8} {r : Int × State} (hsound : N.Sound) (hshows : N.Shows fs)
    (htype : inoType (fs.inodes ino) = sIfreg ∨ inoType (fs.inodes ino) = sIfdir)
    (h : storeData disk (openFile mach v fs ino oflags) heap v.nextFile src size = some r) :
    (∃ fs', Shown N r.2.vfs fs') ∧ r.2.disk = disk ∧ ∃ w, FileIo.genericFileWrite size heap
      ((fs.inoRef ino).inodes ino) src size 0 = .done w := by
  have hchr : inoType (fs.inodes ino) ≠ sIfchr := by
    rcases htype with htype | htype <;> rw [htype] <;> decide
  obtain ⟨w, hw⟩ := store_written hchr h
  obtain ⟨v', fs', hstore, hroot, hstored⟩ := store_done mach v oflags disk hchr hw
  rw [h, Option.some.injEq] at hstore
  subst hstore
  exact ⟨⟨fs', hroot, hsound, hstored.shows' (hshows.inoRef ino) (FileIo.write_mode hw)⟩, rfl, w, hw⟩

theorem inoType_of_shows {q : Path} (h : N.Shows fs) (hq : q ∈ N.paths) :
    inoType (fs.inodes (N.inode q)) = sIfreg ∨ inoType (fs.inodes (N.inode q)) = sIfdir := by
  rw [h.types q hq]
  split_ifs
  · exact .inr rfl
  · exact .inl rfl

theorem file_puts {s' : State} (h : Shown N s.vfs fs) (hhead : HeaderOf s.disk pos m)
    (hr : ReadsAs s.disk pos m ds t p c) (hreg : m.typeflag = regtype)
    (hinside : pos + 512 + m.data.length ≤ s.disk.size)
    (hcall : processFile mach s pos = some (0, s')) :
    ∃ N' fs', Shown N' s'.vfs fs' ∧ AgreesFrom (pos + 512) s.disk s'.disk ∧
      Puts s.disk pos N N' m := by
  obtain ⟨disk', hagrees, heq⟩ := processFile_eq mach hhead hr hinside
  rw [heq] at hcall
  obtain ⟨⟨file, v⟩, hopened, hcall⟩ := Option.bind_eq_some_iff.mp hcall
  obtain ⟨id, rfl, hstore⟩ := Option.bind_eq_some_iff.mp hcall
  have hopen := openInode_shows h.sound h.shows' hr.plain creating_flags 0o777
  cases hwalk : N.walk [] [] (p ++ [c]) with
  | none =>
      rw [hwalk] at hopen
      simp [vfsOpen, h.root_eq, hopen] at hopened
  | some found =>
      obtain ⟨N₁, w⟩ := found
      obtain ⟨hsound₁, hnodes₁⟩ := Names.walk_keeps h.sound hwalk
      obtain ⟨hpaths₁, hinode₁, -⟩ := Names.same_tree hnodes₁
      rw [hwalk] at hopen
      cases w with
      | found par cur =>
          obtain ⟨fs₁, hshows₁, -, hopen⟩ := hopen
          have hcur : cur ∈ N₁.paths := by
            rw [hpaths₁]
            exact Names.walk_found_mem h.sound hwalk Names.nil_mem_paths
          have htype := inoType_of_shows hshows₁ hcur
          rw [hinode₁] at htype
          rw [vfsOpen_eq h.root_eq hopen htype] at hopened
          split_ifs at hopened
          simp only [Option.some.injEq, Prod.mk.injEq] at hopened
          obtain ⟨rfl, rfl⟩ := hopened
          obtain ⟨⟨fs', hshown⟩, hdisk, -⟩ := store_keeps hsound₁ hshows₁ htype hstore
          exact ⟨N₁, fs', hshown, hdisk ▸ hagrees, .inl hnodes₁⟩
      | missing dir last =>
          obtain ⟨fs₁, hshows₁, hsame₁, hopen⟩ := hopen
          have hcreate := createFile_shows hsound₁ hshows₁ hr.plain 0o777
          cases hmake : N₁.make p c false with
          | none =>
              rw [hmake] at hcreate
              rw [hcreate] at hopen
              simp [vfsOpen, h.root_eq, hopen] at hopened
          | some N'' =>
              rw [hmake] at hcreate
              obtain ⟨fs₂, hcreated, hsound₂, hshows₂, hnew⟩ := hcreate
              rw [hcreated] at hopen
              obtain ⟨N', w, d, hwalk₁, hd, hfree, rfl⟩ := make_some hmake
              rw [Names.walk_again h.sound hwalk] at hwalk₁
              obtain ⟨rfl, rfl⟩ := Prod.mk.inj (Option.some.inj hwalk₁)
              have hmakes : N₁.Makes p c false N₁ _ d :=
                .of_walk hsound₁ (Names.walk_again h.sound hwalk) hd hfree
              obtain ⟨htype, -⟩ := added_inode hmakes.unused hshows₁ hshows₂
              rw [vfsOpen_eq h.root_eq hopen (.inl htype)] at hopened
              split_ifs at hopened
              simp only [Option.some.injEq, Prod.mk.injEq] at hopened
              obtain ⟨rfl, rfl⟩ := hopened
              obtain ⟨⟨fs', hshown⟩, hdisk, w, hw⟩ := store_keeps hsound₂ hshows₂ (.inl htype) hstore
              refine ⟨_, fs', hshown, hdisk ▸ hagrees, ?_⟩
              have hmap : ((fs₂.inoRef fs₁.next).inodes fs₁.next).fMap = ⟨[none, none], 2⟩ := by
                rw [← hnew.map_eq]
                simp [Fs.inoRef, Fs.setInode]
              exact made_puts hr hwalk hnodes₁ hmakes.follows (by rw [if_pos hreg, eq_of_missing_parent hd])
                (Member.not_dirtype hreg) fun _ => write_new_file_fits hmap hhead.size_lt hw

end members
end Lucix.Initramfs
