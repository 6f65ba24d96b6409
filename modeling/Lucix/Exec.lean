import Lucix.ProcessMemory
import Lucix.FileRuns
import Lucix.Elf
import Lucix.Privilege

/-!
# Starting a program, `kernel/exec.c`, `fs/binfmt_elf.c` and `arch/x86_64/process.c`

The old contents of the objects that `kmalloc` and `mem_cache_alloc_obj` return are
arguments, like the values of `VMA_FILE` and `VMA_STACK`. The files are opened outside.
-/
namespace Lucix.Exec
open Mm PageTable FileIo Execution Elf Privilege

/-- What the source leaves open in one call of `elf_load_binary`. -/
structure Leftovers extends Elf.Leftovers where
  vmaStack : Nat
  stackObject : VmArea

/-- The macro `USER_STACK_BOTTOM`. -/
def userStackBottom : Nat := 0x00007fffff000000

/-- The call of `do_mmap` for the stack. -/
def stackCall (old : Leftovers) : MmapCall where
  file := none
  addr := userStackBottom
  length := userStackSize
  prot := ⟨true, true, false, true, false, 0⟩
  flags := ⟨true, false, false, 0⟩
  type := old.vmaStack
  pgoff := 0
  object := old.stackObject
  addr_lt := by decide
  length_pos := by decide
  length_lt := by decide

/-- The result of a `load_binary` operation, `*cpu_state`, and the offset of the file. -/
structure Loaded where
  ret : Int
  cpuState : Option CpuState
  offset : Nat
  sys : System

/-- A `load_binary` operation on an open file. -/
abbrev LoadBinary := File → Nat → System → Option Loaded

section load
variable (pages : Nat → Nat) (frames : Frames) (old : Leftovers) (k : Nat)

/-- The function `cpu_setup_process` in the task whose address space has number `k`. -/
def cpuSetupProcess (s : System) (entry : Nat) : Option (CpuState × System) :=
  (doMmap pages frames s k (stackCall old)).map fun (stackStart, s) => (newCpuState stackStart entry, s)

/-- The function `elf_load_binary`. -/
def elfLoad : LoadBinary := fun file offset s => do
  let (ret, header, offset, s) ← elfLoadBinary old.toLeftovers k s file offset
  if ret = 0 then do
    let (state, s) ← cpuSetupProcess pages frames old k s header.entry
    some ⟨0, some state, offset, s⟩
  else some ⟨ret, none, offset, s⟩

end load

/-- How `do_execve` ends: with a value, or by a switch to the state of the program. -/
inductive ExecEnd where
  | returned (ret : Int)
  | switched (state : CpuState)
  deriving DecidableEq, Repr

/-- The loop of `do_execve`. The formats share the open file, and its offset stays where the one
before has left it; a switch to a null state faults. -/
def tryFormats (file : File) : List LoadBinary → Nat → System → Option (ExecEnd × System)
  | [], _, s => some (.returned (-1), s)
  | load :: rest, offset, s => (load file offset s).bind fun r =>
      if r.ret = 0 then r.cpuState.map fun state => (.switched state, r.sys)
      else tryFormats file rest r.offset r.sys

/-- The function `do_execve`, with the file that `vfs_open` has returned. The pointer is not checked
before the formats follow it. -/
def doExecve (formats : List LoadBinary) (opened : Option File) (s : System) : Option (ExecEnd × System) :=
  if formats = [] then some (.returned (-1), s) else opened.bind fun file => tryFormats file formats 0 s

/-! ### Reading a file that is in the cache -/

section cached
variable {heap : PageHeap} {ino : Inode} {count pos : Nat}

/-- The pages of all bytes of the file are there. -/
def Cached (ino : Inode) : Prop := ∀ x < ino.size, ∃ p, ino.fMap.pages[x / pageSize]? = some (some p)

/-- An iteration inside the file leaves the pages and the inode. -/
theorem body_cached (hcached : Cached ino) {s t : ReadLoop} (hheap : s.heap = heap) (hino : s.ino = ino)
    (hidx : s.idx < ino.size) (hsize : ino.size < 2 ^ 63) (h : s.body count = some t) :
    t.heap = heap ∧ t.ino = ino := by
  obtain ⟨p, hp⟩ := hcached s.idx hidx
  unfold ReadLoop.body at h
  have hpage : readCachePage s.heap s.ino.fMap ((toInt64 s.idx).tdiv pageSize) = some (p, heap, ino.fMap) := by
    rw [tdiv_index (by omega), readCachePage, if_neg (Int.not_lt.mpr (Int.natCast_nonneg _)), Int.toNat_natCast,
      cachePage, hino, hp, hheap]
  rw [hpage, Option.bind_eq_bind, Option.bind_some] at h
  obtain ⟨bytes, -, h⟩ := Option.bind_eq_some_iff.mp h
  obtain rfl := Option.some.inj h
  refine ⟨rfl, ?_⟩
  dsimp only [ReadLoop.advance]
  rw [hino]

theorem read_cached (hs : ino.fMap.Sound heap) (hcached : Cached ino) (hin : pos + count ≤ ino.size)
    (hslots : ino.size ≤ ino.fMap.nrPages * pageSize) (hwise : PageWise pos count) (hcount : 0 < count) :
    ∃ r, genericFileRead count heap ino count pos = .done r ∧ r.heap = heap ∧ r.ino = ino ∧ r.pos = pos + count ∧
      r.out = (List.range count).map fun i => ino.fMap.content heap (pos + i) := by
  rw [hs.count_eq] at hslots
  have hfew := Nat.mul_le_mul_right pageSize hs.few
  have hbound : ino.size < 2 ^ 63 := by
    unfold pageSize at *
    omega
  have hwrap : wrap64 (count + pos) = pos + count := by
    rw [Nat.add_comm]
    exact wrap64_of_lt (by omega)
  have hstart : ReadLoop.Good heap ino count pos ⟨heap, ino, pos, 0, [], pos⟩ ∧ heap = heap ∧ ino = ino :=
    ⟨⟨Nat.zero_le _, rfl, rfl, rfl, rfl, Tracks.start hs, .inl rfl⟩, rfl, rfl⟩
  have hstep : ∀ s, ReadLoop.Good heap ino count pos s ∧ s.heap = heap ∧ s.ino = ino →
      decide (s.idx < wrap64 (count + pos)) = true → ∃ t, s.body count = some t ∧
        (ReadLoop.Good heap ino count pos t ∧ t.heap = heap ∧ t.ino = ino) ∧ count - t.total < count - s.total := by
    rintro s ⟨hgood, hheap, hino⟩ hcond
    have hlt := of_decide_eq_true hcond
    rw [hwrap] at hlt
    have htotal := hgood.idx_eq
    obtain ⟨t, ht, hgood', hless⟩ := hgood.step hwise hin (hin.trans hslots) hs.few (by omega)
    exact ⟨t, ht, ⟨hgood', body_cached hcached hheap hino (by omega) hbound ht⟩, hless⟩
  obtain ⟨r, hdone, ⟨hgood, hheap, hino⟩, hstop⟩ := whileFuel_done
    (fun s : ReadLoop => ReadLoop.Good heap ino count pos s ∧ s.heap = heap ∧ s.ino = ino)
    (fun s => count - s.total) hstep hstart (Nat.le_refl _)
  have htotal : r.total = count := by
    have hge := of_decide_eq_false hstop
    rw [hwrap, hgood.idx_eq] at hge
    have := hgood.total_le
    omega
  refine ⟨r, ?_, hheap, hino, ?_, ?_⟩
  · rw [genericFileRead, if_neg (by omega)]
    exact hdone
  · rw [hgood.pos_eq, htotal]
  · rw [hgood.out_eq, htotal]

end cached

theorem readFile_cached {s : System} {file : File} {ino : Inode} {pos count : Nat}
    (hino : s.inodes[file.ino]? = some ino) (hs : ino.fMap.Sound s.heap) (hcached : Cached ino)
    (hin : pos + count ≤ ino.size) (hslots : ino.size ≤ ino.fMap.nrPages * pageSize) (hwise : PageWise pos count)
    (hcount : 0 < count) : readFile s file pos count =
      some ((List.range count).map fun i => ino.fMap.content s.heap (pos + i), pos + count, s) := by
  obtain ⟨r, hdone, hheap, hr, hpos, hout⟩ := read_cached hs hcached hin hslots hwise hcount
  obtain ⟨hlt, hget⟩ := List.getElem?_eq_some_iff.mp hino
  have hsame : s.inodes.set file.ino ino = s.inodes := by
    rw [← hget]
    exact List.set_getElem_self hlt
  rw [readFile, hino, Option.bind_some, hdone]
  dsimp only
  rw [hheap, hr, hpos, hout, hsame]

/-! ### The program in its file -/

section program
variable (s₀ : System) (old : Leftovers) (ino : Inode)

def programSegments : List (ElfHeaderEntry64 × VmArea) := fileSegments s₀ ino old.toLeftovers

/-- What the program finds in its memory: its stack is cleared, and a page of a segment has the bytes
of its page in the file. -/
def image (va : Nat) : Option UInt8 :=
  if userStackBottom ≤ va ∧ va < userStackBottom + userStackSize then some 0
  else ((programSegments s₀ old ino).find? fun s => decide (s.1.hint ≤ va ∧ va < s.1.hint + s.1.rounded)).map
    fun s => fileBytes s₀ ino (s.1.offsetData / pageSize * pageSize + (va - s.1.hint))

/-- A read of what is there, or a write to the stack. -/
def InImage : Access → Prop
  | .read va => (image s₀ old ino va).isSome
  | .write va _ => userStackBottom ≤ va ∧ va < userStackBottom + userStackSize

instance : DecidablePred (InImage s₀ old ino)
  | .read _ => inferInstanceAs (Decidable (_ = _))
  | .write .. => inferInstanceAs (Decidable (_ ∧ _))

/-- An executable of the ramfs with its pages in the cache. The header and the table can be read, and
there is an object for the table; the segments can have their ranges below the stack, and their bytes
are in the file. -/
structure Program (file : File) : Prop where
  ramfs : file.mmap = some .ramfs
  inode : s₀.inodes[file.ino]? = some ino
  sound : ino.fMap.Sound s₀.heap
  cached : Cached ino
  slots : ino.size ≤ ino.fMap.nrPages * pageSize
  header : 64 ≤ ino.size
  valid : isValidElf (fileHeader s₀ ino) = true
  entries : 0 < (fileHeader s₀ ino).numProgramHeaderEntries
  object : 56 * (fileHeader s₀ ino).numProgramHeaderEntries ≤ 32768
  table : (fileHeader s₀ ino).programHeaderTablePos + 56 * (fileHeader s₀ ino).numProgramHeaderEntries ≤ ino.size
  wise : PageWise (fileHeader s₀ ino).programHeaderTablePos (56 * (fileHeader s₀ ino).numProgramHeaderEntries)
  placed : Placed (programSegments s₀ old ino)
  inside : ∀ s ∈ programSegments s₀ old ino, s.1.offsetData + s.1.sizeInFile ≤ ino.size
  below : ∀ s ∈ programSegments s₀ old ino, s.1.hint + s.1.rounded ≤ userStackBottom
  stack : old.stackObject.vmOps = .null

/-- A memory that is nothing but bytes. -/
def bytesStep (w : Nat → Option UInt8) : Access → Option (MemRet × (Nat → Option UInt8))
  | .read va => (w va).map fun b => (.byte b, w)
  | .write va b => (w va).map fun _ => (.stored, Function.update w va (some b))

end program

section start
variable {pages : Nat → Nat} {frames : Frames} {limit frameLimit : Nat} {s₀ s : System} {m : Nat → Space}
  {old : Leftovers} {file : File} {ino : Inode} {k : Nat} {mm : ProcMm} {areas : List VmArea}

theorem Program.now (hprog : Program s₀ old ino file) (h : Shown pages frames limit frameLimit s₀ s m) :
    ino.fMap.Sound s.heap ∧ ino.fMap.content s.heap = fileBytes s₀ ino := by
  refine ⟨⟨hprog.sound.count_eq, hprog.sound.few, hprog.sound.inj, fun p hp =>
    lt_of_lt_of_le (hprog.sound.handed p hp) h.older⟩, ?_⟩
  unfold fileBytes PageMapping.content
  congr 1
  funext i
  cases hslot : ino.fMap.pages[i]?.join with
  | none => rfl
  | some p =>
      have howns : ino.fMap.Owns p := ⟨i, Option.join_eq_some_iff.mp hslot⟩
      rw [Option.map_some, Option.map_some, h.kept p (hprog.sound.handed p howns)]

theorem Program.read (hprog : Program s₀ old ino file) (h : Shown pages frames limit frameLimit s₀ s m)
    {pos count : Nat} (hin : pos + count ≤ ino.size) (hwise : PageWise pos count) (hcount : 0 < count) :
    readFile s file pos count =
      some ((List.range count).map fun i => fileBytes s₀ ino (pos + i), pos + count, s) := by
  obtain ⟨hsound, hcontent⟩ := hprog.now h
  have hino : s.inodes[file.ino]? = some ino := by
    rw [h.inodes]
    exact hprog.inode
  rw [readFile_cached hino hsound hprog.cached hin hprog.slots hwise hcount, hcontent]

theorem Program.page (hprog : Program s₀ old ino file) {seg : ElfHeaderEntry64 × VmArea}
    (hseg : seg ∈ programSegments s₀ old ino) {va : Nat} (hva : seg.1.Holds va) :
    (va - seg.1.hint) / pageSize + seg.1.pgoff = seg.1.offsetData / pageSize + (va - seg.1.hint) / pageSize ∧
      (seg.1.offsetData / pageSize + (va - seg.1.hint) / pageSize) * pageSize < ino.size := by
  obtain ⟨-, hrounded, -, -, -, hpgoff⟩ := (hprog.placed.fits seg hseg).range
  have hsome := (hprog.placed.fits seg hseg).some
  have hinside := hprog.inside seg hseg
  obtain ⟨hge, hlt⟩ := hva
  rw [hrounded] at hlt
  rw [hpgoff]
  unfold pageSize
  omega

theorem Program.plain (hprog : Program s₀ old ino file) {seg : ElfHeaderEntry64 × VmArea}
    (hseg : seg ∈ programSegments s₀ old ino) : (placedArea old.vmaFile file seg).Plain s₀ := by
  obtain ⟨hhint, hrounded, -, -, hend, -⟩ := (hprog.placed.fits seg hseg).range
  refine ⟨?_, ?_, ?_, .inr ⟨?_, file, ino, rfl, hprog.inode, fun va hva => ?_⟩⟩
  · show seg.1.hint % pageSize = 0
    unfold pageSize
    omega
  · show (seg.1.hint + seg.1.rounded) % pageSize = 0
    unfold pageSize
    omega
  · show seg.1.storedProt.user = true
    unfold ElfHeaderEntry64.storedProt
    split_ifs <;> rfl
  · show file.mmap.getD seg.2.vmOps = .ramfs
    rw [hprog.ramfs]
    rfl
  · obtain ⟨hpage, hin⟩ := hprog.page hseg hva
    obtain ⟨p, hp⟩ := hprog.cached _ hin
    rw [Nat.mul_div_cancel _ (by decide)] at hp
    have hindex : pgoffset (placedArea old.vmaFile file seg) va + (placedArea old.vmaFile file seg).fpgOff =
        seg.1.offsetData / pageSize + (va - seg.1.hint) / pageSize := by
      rw [pgoffset_eq hend hva]
      exact hpage
    rw [hindex]
    exact ⟨p, hprog.sound.handed p ⟨_, hp⟩, hp⟩

theorem stackCall_length (old : Leftovers) : (stackCall old).length = userStackSize := rfl

theorem stackCall_addr (old : Leftovers) : (stackCall old).addr = userStackBottom := rfl

theorem Program.stackFits (hprog : Program s₀ old ino file)
    (hlaid : Laid old.vmaFile file (programSegments s₀ old ino) areas) : (stackCall old).Fits areas ∧
      ((stackCall old).area areas).start = userStackBottom ∧ (stackCall old).rounded = userStackSize := by
  have hrounded : (stackCall old).rounded = userStackSize := by
    unfold MmapCall.rounded
    rw [stackCall_length]
    decide +kernel
  have hvalid : isValidVaddrForVma areas userStackBottom userStackSize = true := by
    refine isValidVaddrForVma_of_clear (by decide) (by decide) (fun a ha => (hlaid.laid.bounds a ha).1)
      fun a ha => ?_
    obtain ⟨seg, hseg, rfl⟩ := (hlaid.mem a).mp ha
    exact .inl (hprog.below seg hseg)
  have haccepted : (stackCall old).addr ≠ 0 ∧
      isValidVaddrForVma areas (stackCall old).addr (stackCall old).rounded = true := by
    rw [hrounded, stackCall_addr]
    exact ⟨by decide, hvalid⟩
  refine ⟨⟨?_, ?_⟩, ?_, hrounded⟩
  · rw [stackCall_length]
    decide
  · rw [if_pos haccepted, hrounded, stackCall_addr]
    refine ⟨by decide, ?_⟩
    rintro a ha - ⟨hfile, -⟩
    obtain ⟨seg, hseg, rfl⟩ := (hlaid.mem a).mp ha
    contradiction
  · show ((stackCall old).place areas).1 = userStackBottom
    rw [MmapCall.place, if_pos haccepted]
    rfl

theorem Program.stackPlain (hprog : Program s₀ old ino file) : (stackCall old).Plain s₀ := by
  refine ⟨rfl, rfl, ?_, hprog.stack⟩
  rw [stackCall_addr]
  decide

/-- The header and the table are read as they stand in the file, and the loop runs over the entries. -/
theorem Program.loadBinary (hprog : Program s₀ old ino file) (h : Shown pages frames limit frameLimit s₀ s m)
    (hk : s.procs[k]? = some mm) (hempty : m k = Space.empty) {areas : List VmArea}
    (hrun : run (loadStep old.vmaFile file) [] (programSegments s₀ old ino) = some areas) :
    elfLoadBinary old.toLeftovers k s file 0 = some (0, fileHeader s₀ ino,
      (fileHeader s₀ ino).programHeaderTablePos + 56 * (fileHeader s₀ ino).numProgramHeaderEntries,
      s.setAreas k mm areas) := by
  obtain ⟨bytes, hread, hbuf⟩ : ∃ bytes, readFile s file 0 64 = some (bytes, 64, s) ∧
      ∀ i < 64, filled bytes old.header i = fileBytes s₀ ino i := by
    refine ⟨_, hprog.read h ((Nat.zero_add 64).trans_le hprog.header) (.inr (by decide)) (by decide), ?_⟩
    intro i hi
    rw [filled_range _ _ hi, Nat.zero_add]
  have hheader : elfHeader (filled bytes old.header) = fileHeader s₀ ino := elfHeader_congr hbuf
  have hentries := hprog.entries
  have htable := hprog.read h hprog.table hprog.wise (by omega)
  have hsegments : segments (fileHeader s₀ ino) (filled ((List.range
      (56 * (fileHeader s₀ ino).numProgramHeaderEntries)).map fun i =>
        fileBytes s₀ ino ((fileHeader s₀ ino).programHeaderTablePos + i)) old.table) old.objects =
      programSegments s₀ old ino :=
    segments_congr fun i hi => filled_range _ _ hi
  obtain ⟨object, hobject⟩ := Option.isSome_iff_exists.mp ((Sys.kmallocBytes_isSome_iff _).mpr hprog.object)
  have hino : s.inodes[file.ino]? = some ino := by
    rw [h.inodes]
    exact hprog.inode
  have hareas : mm.vmAreas = [] := by
    rw [h.areas k mm hk, hempty]
    rfl
  simp only [elfLoadBinary, hread, hheader, hprog.valid, elfLoadSegments, hobject, hino, vfsLseek, htable, hk,
    loadEntries, hsegments, hareas, hrun, Option.bind_eq_bind, Option.bind_some, if_true, Option.map_some]

theorem Program.load (hprog : Program s₀ old ino file) (h : Shown pages frames limit frameLimit s₀ s m)
    (hk : s.procs[k]? = some mm) (hempty : m k = Space.empty) :
    ∃ areas t, Laid old.vmaFile file (programSegments s₀ old ino) areas ∧
      elfLoad pages frames old k file 0 s = some ⟨0, some (newCpuState userStackBottom (fileHeader s₀ ino).entry),
        (fileHeader s₀ ino).programHeaderTablePos + 56 * (fileHeader s₀ ino).numProgramHeaderEntries, t⟩ ∧
      Shown pages frames limit frameLimit s₀ t
        (Function.update m k ⟨insertSorted ((stackCall old).area areas) areas, fun _ => none⟩) := by
  have hlaid₀ : Laid old.vmaFile file [] [] := ⟨⟨by simp, .nil⟩, .nil, by simp⟩
  obtain ⟨areas, hrun, hlaid⟩ : ∃ areas,
      run (loadStep old.vmaFile file) [] (programSegments s₀ old ino) = some areas ∧
        Laid old.vmaFile file (programSegments s₀ old ino) areas := hlaid₀.run hprog.placed
  obtain ⟨hfits, hstart, -⟩ := hprog.stackFits hlaid
  have hload := hprog.loadBinary h hk hempty hrun
  -- the areas
  have hsound : Space.Sound s₀ { m k with areas := areas } := by
    refine ⟨hlaid.laid, hlaid.apart, fun vma hvma => ?_⟩
    obtain ⟨seg, hseg, rfl⟩ := (hlaid.mem vma).mp hvma
    exact hprog.plain hseg
  have hshown := h.setAreas hk hsound (by rw [hempty]; simp [Space.empty])
  have hlt : k < (s.setAreas k mm areas).procs.length := by
    rw [System.setAreas, List.length_set]
    exact (List.getElem?_eq_some_iff.mp hk).1
  have hmk : Function.update m k { m k with areas := areas } k = ⟨areas, fun _ => none⟩ := by
    rw [Function.update_self, hempty]
    rfl
  -- the stack
  have hfits' : (stackCall old).Fits (Function.update m k { m k with areas := areas } k).areas := by
    rw [hmk]
    exact hfits
  obtain ⟨r, x, t, hx, ht, hshown'⟩ := hshown.mmap hlt hfits' hprog.stackPlain
  rw [hmk, Space.step, (mapArea_fits hlaid.laid hlaid.apart hfits).1] at hx
  obtain ⟨rfl, rfl⟩ := Prod.mk.inj (Option.some.inj hx)
  obtain ⟨⟨start, t'⟩, hcall, hpair⟩ := Option.map_eq_some_iff.mp ht
  obtain ⟨hret, rfl⟩ := Prod.mk.inj hpair
  have hsetup : cpuSetupProcess pages frames old k (s.setAreas k mm areas) (fileHeader s₀ ino).entry =
      some (newCpuState userStackBottom (fileHeader s₀ ino).entry, t') := by
    rw [cpuSetupProcess, hcall, Option.map_some]
    dsimp only
    rw [MemRet.mapped.inj hret, hstart]
  refine ⟨areas, t', hlaid, ?_, ?_⟩
  · simp only [elfLoad, hload, hsetup, Option.bind_eq_bind, Option.bind_some, if_true]
  · rw [Function.update_idem] at hshown'
    exact hshown'

theorem Program.image_eq (hprog : Program s₀ old ino file)
    (hlaid : Laid old.vmaFile file (programSegments s₀ old ino) areas) (va : Nat) : image s₀ old ino va =
      (findVmaForAddress va (insertSorted ((stackCall old).area areas) areas)).map fun vma => s₀.initial vma va := by
  obtain ⟨hfits, hstart, hrounded⟩ := hprog.stackFits hlaid
  obtain ⟨-, hfinal, -, hend⟩ := mapArea_fits hlaid.laid hlaid.apart hfits
  rw [hstart, hrounded] at hend
  have hmem : ∀ vma, vma ∈ insertSorted ((stackCall old).area areas) areas ↔ vma = (stackCall old).area areas ∨
      ∃ seg ∈ programSegments s₀ old ino, vma = placedArea old.vmaFile file seg := by
    intro vma
    rw [mem_insertSorted, hlaid.mem]
  unfold image
  by_cases hstack : userStackBottom ≤ va ∧ va < userStackBottom + userStackSize
  · have hfound : findVmaForAddress va (insertSorted ((stackCall old).area areas) areas) =
        some ((stackCall old).area areas) := by
      refine hfinal.find_iff.mpr ⟨(hmem _).mpr (.inl rfl), ?_⟩
      rw [VmArea.Contains, hstart, hend]
      exact hstack
    have hzero : s₀.initial ((stackCall old).area areas) va = 0 := initial_anonymous rfl va
    rw [if_pos hstack, hfound, Option.map_some, hzero]
  · rw [if_neg hstack]
    cases hfind : (programSegments s₀ old ino).find? fun s =>
      decide (s.1.hint ≤ va ∧ va < s.1.hint + s.1.rounded) with
    | some seg =>
        have hseg := List.mem_of_find?_eq_some hfind
        have hholds : seg.1.Holds va := by simpa [ElfHeaderEntry64.Holds] using List.find?_some hfind
        have hfound : findVmaForAddress va (insertSorted ((stackCall old).area areas) areas) =
            some (placedArea old.vmaFile file seg) :=
          hfinal.find_iff.mpr ⟨(hmem _).mpr (.inr ⟨seg, hseg, rfl⟩), hholds⟩
        have hpgoff := (hprog.placed.fits seg hseg).range.2.2.2.2.2
        have hbyte : s₀.initial (placedArea old.vmaFile file seg) va =
            fileBytes s₀ ino (seg.1.pgoff * pageSize + (va - seg.1.hint)) := by
          rw [System.initial, show (placedArea old.vmaFile file seg).file = some file from rfl, Option.bind_some,
            hprog.inode]
          rfl
        rw [hfound, Option.map_some, Option.map_some, hbyte, hpgoff]
        rfl
    | none =>
        have hnone : findVmaForAddress va (insertSorted ((stackCall old).area areas) areas) = none := by
          rw [Option.eq_none_iff_forall_ne_some]
          intro vma hfound
          obtain ⟨hvma, hin⟩ := hfinal.find_iff.mp hfound
          rcases (hmem vma).mp hvma with rfl | ⟨seg, hseg, rfl⟩
          · rw [VmArea.Contains, hstart, hend] at hin
            exact hstack hin
          · have hout := List.find?_eq_none.mp hfind seg hseg
            rw [decide_eq_true_eq] at hout
            exact hout hin
        rw [hnone]
        rfl

/-- The memory of the program is what its areas give, under what it has written. -/
def Remembers (pages : Nat → Nat) (frames : Frames) (limit frameLimit : Nat) (s₀ : System) (k : Nat)
    (areas : List VmArea) (s : System) (w : Nat → Option UInt8) : Prop :=
  ∃ m, Shown pages frames limit frameLimit s₀ s m ∧ (m k).areas = areas ∧
    ∀ va, w va = (findVmaForAddress va areas).map fun vma => ((m k).written va).getD (s₀.initial vma va)

theorem Remembers.read (hp : Supply pages limit) (hf : FrameSupply frames frameLimit) {w : Nat → Option UInt8}
    (h : Remembers pages frames limit frameLimit s₀ k areas s w) {va : Nat}
    (hin : (findVmaForAddress va areas).isSome) (fuel : Nat)
    (hroom : s.HasRoom pages frames limit frameLimit (k, .access (.read va))) :
    ∃ r x s', bytesStep w (.read va) = some (r, x) ∧ s.access pages frames k (.read va) (fuel + 1) = some (r, s') ∧
      Remembers pages frames limit frameLimit s₀ k areas s' x := by
  obtain ⟨m, hshown, hareas, hw⟩ := h
  obtain ⟨vma, hfind⟩ := Option.isSome_iff_exists.mp hin
  have hallowed : (m k).Allowed s₀ (.access (.read va)) := by
    rw [Space.Allowed, hareas]
    exact hin
  obtain ⟨r, x, s', hx, hs', hshown'⟩ := hshown.access hp hf fuel hallowed hroom
  rw [Space.step, hareas, hfind] at hx
  obtain ⟨rfl, rfl⟩ := Prod.mk.inj (Option.some.inj hx)
  rw [Function.update_eq_self] at hshown'
  refine ⟨_, w, s', ?_, hs', m, hshown', hareas, hw⟩
  rw [bytesStep, hw, hfind]
  rfl

theorem Remembers.write (hp : Supply pages limit) (hf : FrameSupply frames frameLimit) {w : Nat → Option UInt8}
    (h : Remembers pages frames limit frameLimit s₀ k areas s w) {va : Nat} {vma : VmArea}
    (hfind : findVmaForAddress va areas = some vma) (hfile : vma.file = none) (b : UInt8) (fuel : Nat)
    (hroom : s.HasRoom pages frames limit frameLimit (k, .access (.write va b))) :
    ∃ r x s', bytesStep w (.write va b) = some (r, x) ∧
      s.access pages frames k (.write va b) (fuel + 1) = some (r, s') ∧
      Remembers pages frames limit frameLimit s₀ k areas s' x := by
  obtain ⟨m, hshown, hareas, hw⟩ := h
  have hallowed : (m k).Allowed s₀ (.access (.write va b)) := by
    rw [Space.Allowed, hareas]
    exact ⟨vma, hfind, hfile⟩
  obtain ⟨r, x, s', hx, hs', hshown'⟩ := hshown.access hp hf fuel hallowed hroom
  rw [Space.step, hareas, hfind] at hx
  obtain ⟨rfl, rfl⟩ := Prod.mk.inj (Option.some.inj hx)
  refine ⟨_, Function.update w va (some b), s', ?_, hs', _, hshown', ?_, fun va' => ?_⟩
  · rw [bytesStep, hw, hfind]
    rfl
  · rw [Function.update_self]
    exact hareas
  · rw [Function.update_self]
    by_cases hva : va' = va
    · subst hva
      rw [Function.update_self, hfind]
      simp [Space.store]
    · rw [Function.update_of_ne hva, hw]
      simp [Space.store, hva]

/-- A program that `do_execve` starts, whatever other processes have in their memory: it is entered at
its entry point with its stack pointer at the end of its stack, and as long as it reads its image and
writes to its stack, all its accesses are performed, and return the bytes of the file or those that it
has written. -/
theorem exec_runs_program (hp : Supply pages limit) (hf : FrameSupply frames frameLimit)
    (h : Shown pages frames limit frameLimit s₀ s m) (hk : k < s.procs.length) (hempty : m k = Space.empty)
    (hprog : Program s₀ old ino file) (rest : List LoadBinary) :
    ∃ t, doExecve (elfLoad pages frames old k :: rest) (some file) s =
        some (.switched (newCpuState userStackBottom (fileHeader s₀ ino).entry), t) ∧
      ∀ (fuel : Nat) (accesses : List Access),
        Guarded (silent fun s a => s.access pages frames k a (fuel + 1)) (fun s a => InImage s₀ old ino a ∧
          s.HasRoom pages frames limit frameLimit (k, .access a)) t accesses →
        ∃ rets t' w, answers (fun s a => s.access pages frames k a (fuel + 1)) t accesses = some (rets, t') ∧
          answers bytesStep (image s₀ old ino) accesses = some (rets, w) := by
  have hmm : s.procs[k]? = some s.procs[k] := List.getElem?_eq_getElem hk
  obtain ⟨areas, t, hlaid, hload, hshown⟩ := hprog.load h hmm hempty
  refine ⟨t, ?_, fun fuel accesses hguard => ?_⟩
  · rw [doExecve, if_neg (List.cons_ne_nil _ _), Option.bind_some, tryFormats, hload]
    rfl
  have himage := hprog.image_eq hlaid
  obtain ⟨hfits, hstart, hrounded⟩ := hprog.stackFits hlaid
  obtain ⟨-, hfinal, -, hend⟩ := mapArea_fits hlaid.laid hlaid.apart hfits
  rw [hstart, hrounded] at hend
  have hstack : ∀ va, userStackBottom ≤ va ∧ va < userStackBottom + userStackSize →
      findVmaForAddress va (insertSorted ((stackCall old).area areas) areas) = some ((stackCall old).area areas) := by
    intro va hva
    refine hfinal.find_iff.mpr ⟨mem_insertSorted.mpr (.inl rfl), ?_⟩
    rw [VmArea.Contains, hstart, hend]
    exact hva
  have hloaded : Remembers pages frames limit frameLimit s₀ k (insertSorted ((stackCall old).area areas) areas) t
      (image s₀ old ino) := by
    refine ⟨_, hshown, by rw [Function.update_self], fun va => ?_⟩
    rw [Function.update_self, himage]
    rfl
  have hstep : ∀ (s : System) (w : Nat → Option UInt8) (a : Access),
      Remembers pages frames limit frameLimit s₀ k (insertSorted ((stackCall old).area areas) areas) s w →
      InImage s₀ old ino a ∧ s.HasRoom pages frames limit frameLimit (k, .access a) →
      ∃ r x s', bytesStep w a = some (r, x) ∧ s.access pages frames k a (fuel + 1) = some (r, s') ∧
        Remembers pages frames limit frameLimit s₀ k (insertSorted ((stackCall old).area areas) areas) s' x := by
    rintro s w a hs ⟨hin, hroom⟩
    cases a with
    | read va =>
        have hsome : (image s₀ old ino va).isSome := hin
        rw [himage, Option.isSome_map] at hsome
        exact hs.read hp hf hsome fuel hroom
    | write va b => exact hs.write hp hf (hstack va hin) rfl b fuel hroom
  obtain ⟨rets, t', w, hrun, hrun', -⟩ := answers_agree hstep hloaded hguard
  exact ⟨rets, t', w, hrun, hrun'⟩

end start

/-! ### A program of one page -/

/-- A header and its table, in a segment that is the whole file. -/
def tinySystem : System := elfSystem 1 (entryBytes 1 5 0 0x400000 0x1000 0x1000)

def tinyLeftovers : Leftovers := ⟨noLeftovers, 2, clearedObject⟩

theorem tinySystem_unmapped : Unmapped lowPages (2 ^ 30) (2 ^ 30) tinySystem where
  grounded := newSpace_grounded _ _ _
  few := Nat.one_le_two_pow
  areas := by decide
  leaves := by
    intro k addr _
    rw [tinySystem, elfSystem, newSpace_leaf]
    decide

theorem tinyProgram_segments : programSegments tinySystem tinyLeftovers onePage =
    [(⟨1, 5, 0, 0x400000, 0x1000, 0x1000, by decide⟩, clearedObject)] := by
  decide +kernel

theorem tinyProgram_program : Program tinySystem tinyLeftovers onePage program where
  ramfs := rfl
  inode := rfl
  sound := onePage_sound _ rfl
  cached := by
    intro x hx
    have hzero : x / pageSize = 0 := Nat.div_eq_of_lt hx
    exact ⟨0, by rw [hzero]; rfl⟩
  slots := by decide
  header := by decide
  valid := by decide +kernel
  entries := by decide +kernel
  object := by decide +kernel
  table := by decide +kernel
  wise := .inr (by decide +kernel)
  placed := by
    rw [tinyProgram_segments]
    refine ⟨?_, List.pairwise_singleton _ _⟩
    intro s hs
    obtain rfl := List.mem_singleton.mp hs
    exact ⟨by decide, by decide, by decide, by decide⟩
  inside := by
    rw [tinyProgram_segments]
    decide
  below := by
    rw [tinyProgram_segments]
    decide +kernel
  stack := rfl

/-- The program reads its header, and writes to its stack. -/
theorem exec_runs_program_tiny : ∃ t t',
    doExecve [elfLoad lowPages lowFrames tinyLeftovers 0] (some program) tinySystem =
        some (.switched (newCpuState userStackBottom 0x400000), t) ∧
      answers (fun s a => s.access lowPages lowFrames 0 a 1) t
        [.read 0x400001, .write 0x7fffff7ffff8 5, .read 0x7fffff7ffff8, .read 0x7fffff7ffff0] =
        some ([.byte 0x45, .stored, .byte 5, .byte 0], t') := by
  obtain ⟨t, hexec, hall⟩ := exec_runs_program lowPages_supply lowFrames_supply
    tinySystem_unmapped.start (k := 0) Nat.one_pos rfl tinyProgram_program []
  have hentry : (fileHeader tinySystem onePage).entry = 0x400000 := by decide +kernel
  rw [hentry] at hexec
  have hguards : ∀ r ∈ doExecve [elfLoad lowPages lowFrames tinyLeftovers 0] (some program) tinySystem,
      Guarded (silent fun s a => s.access lowPages lowFrames 0 a 1) (fun s a =>
        InImage tinySystem tinyLeftovers onePage a ∧
          s.HasRoom lowPages lowFrames (2 ^ 30) (2 ^ 30) (0, .access a)) r.2
        [.read 0x400001, .write 0x7fffff7ffff8 5, .read 0x7fffff7ffff8, .read 0x7fffff7ffff0] := by
    decide +kernel
  obtain ⟨rets, t', w, hrun, himage⟩ := hall 0 _ (hguards _ hexec)
  have hbytes : (answers bytesStep (image tinySystem tinyLeftovers onePage) [.read 0x400001,
      .write 0x7fffff7ffff8 5, .read 0x7fffff7ffff8, .read 0x7fffff7ffff0]).map Prod.fst =
      some [.byte 0x45, .stored, .byte 5, .byte 0] := by
    decide +kernel
  rw [himage] at hbytes
  obtain rfl := Option.some.inj hbytes
  exact ⟨t, t', hexec, hrun⟩

end Lucix.Exec
