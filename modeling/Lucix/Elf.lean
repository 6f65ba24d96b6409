import Lucix.ProcessMemory
import Lucix.FileRuns
import Lucix.Syscall

/-!
# Loading an ELF executable, `fs/binfmt_elf.c`

The old contents of the objects that `kmalloc` and `mem_cache_alloc_obj` return are
arguments, and so is the value of `VMA_FILE`, whose header is not in the repository.
The file is opened outside.
-/
namespace Lucix.Elf
open Mm PageTable FileIo Execution

/-- A little-endian word of `n` bytes. -/
def readLe (buf : Nat → UInt8) : Nat → Nat → Nat
  | _, 0 => 0
  | pos, n + 1 => (buf pos).toNat + 256 * readLe buf (pos + 1) n

theorem readLe_lt (buf : Nat → UInt8) (pos n : Nat) : readLe buf pos n < 256 ^ n := by
  induction n generalizing pos with
  | zero => exact Nat.one_pos
  | succ n ih =>
      have hbyte := (buf pos).toNat_lt
      have hrest := ih (pos + 1)
      rw [readLe, Nat.pow_succ]
      omega

/-- The struct `elf_header_64`, less the fields that are not read. -/
structure ElfHeader64 where
  magic : List Nat
  bits : Nat
  endian : Nat
  type : Nat
  entry : Nat
  programHeaderTablePos : Nat
  numProgramHeaderEntries : Nat

def elfHeader (buf : Nat → UInt8) : ElfHeader64 where
  magic := (List.range 4).map fun i => (buf i).toNat
  bits := (buf 4).toNat
  endian := (buf 5).toNat
  type := readLe buf 16 2
  entry := readLe buf 24 8
  programHeaderTablePos := readLe buf 32 8
  numProgramHeaderEntries := readLe buf 56 2

def elfMagic : List Nat := [0x7f, 0x45, 0x4c, 0x46]

/-- The value `elf_type_executable`. -/
def elfTypeExecutable : Nat := 2

def isValidElf (header : ElfHeader64) : Bool :=
  if header.magic ≠ elfMagic then false
  else if header.bits ≠ 1 ∧ header.bits ≠ 2 then false
  else if header.endian ≠ 1 ∧ header.endian ≠ 2 then false
  else decide (header.type = elfTypeExecutable)

/-- The struct `elf_header_entry_64`, less the fields that are not read. -/
structure ElfHeaderEntry64 where
  segmentType : Nat
  flags : Nat
  offsetData : Nat
  pVaddr : Nat
  sizeInFile : Nat
  sizeInMem : Nat
  sizeInFile_lt : sizeInFile < 2 ^ 64
  deriving DecidableEq

/-- The value `elf_load_segment`. -/
def elfLoadSegment : Nat := 1

/-- The entry `i` of the table that was read. -/
def elfEntry (table : Nat → UInt8) (i : Nat) : ElfHeaderEntry64 where
  segmentType := readLe table (56 * i) 4
  flags := readLe table (56 * i + 4) 4
  offsetData := readLe table (56 * i + 8) 8
  pVaddr := readLe table (56 * i + 16) 8
  sizeInFile := readLe table (56 * i + 32) 8
  sizeInMem := readLe table (56 * i + 40) 8
  sizeInFile_lt := readLe_lt table _ 8

namespace ElfHeaderEntry64

/-- The value of `vm_prot_flags`. -/
def prot (e : ElfHeaderEntry64) : Prot where
  read := decide (e.flags &&& 4 ≠ 0)
  write := decide (e.flags &&& 2 ≠ 0)
  exec := decide (e.flags &&& 1 ≠ 0)
  user := true
  mayWrite := false
  rest := 0

def hint (e : ElfHeaderEntry64) : Nat := pageFrame e.pVaddr

/-- The last argument of `do_mmap` is a `uint32_t`. -/
def pgoff (e : ElfHeaderEntry64) : Nat := e.offsetData / pageSize % 2 ^ 32

/-- The value of `num_pages * PAGE_SIZE` in `do_mmap`. -/
def rounded (e : ElfHeaderEntry64) : Nat :=
  wrap64 ((e.sizeInFile / pageSize + if e.sizeInFile % pageSize ≠ 0 then 1 else 0) * pageSize)

end ElfHeaderEntry64

/-- The flags `VM_FLAG_PRIVATE`. -/
def privateFlags : VmFlags := ⟨false, true, false, 0⟩

section load
variable (vmaFile : Nat) (file : File)

/-- The call of `do_mmap` for an entry with bytes in the file. -/
def segmentCall (e : ElfHeaderEntry64) (object : VmArea) (hpos : 0 < e.sizeInFile) : MmapCall where
  file := some file
  addr := e.hint
  length := e.sizeInFile
  prot := e.prot
  flags := privateFlags
  type := vmaFile
  pgoff := e.pgoff
  object := object
  addr_lt := Nat.lt_of_le_of_lt Nat.and_le_right (by decide)
  length_pos := hpos
  length_lt := e.sizeInFile_lt

/-- What `do_mmap` does for an entry without bytes in the file: the area has no addresses. -/
def emptyArea (e : ElfHeaderEntry64) (object : VmArea) (areas : List VmArea) : VmArea :=
  let place := if e.hint ≠ 0 ∧ isValidVaddrForVma areas e.hint 0 = true then (e.hint, e.hint)
    else (cpuAssignVmaVaddr areas 0).getD (object.start, object.endAddr)
  { start := place.1
    endAddr := place.2
    length := 0
    prot := if e.prot.write then { e.prot with write := false, mayWrite := true } else e.prot
    flags := privateFlags
    file := some file
    type := vmaFile
    fpgOff := e.pgoff
    vmOps := file.mmap.getD object.vmOps }

/-- One iteration of the loop, with the object that `do_mmap` gets. -/
def loadStep (areas : List VmArea) : ElfHeaderEntry64 × VmArea → Option (List VmArea)
  | (e, object) =>
      if hpos : 0 < e.sizeInFile then layoutStep areas (segmentCall vmaFile file e object hpos)
      else match insertVma areas (emptyArea vmaFile file e object areas) with
        | (areas', none) => some areas'
        | (_, some _) => none

/-- The entries of the table, each with the object for its area. -/
def segments (header : ElfHeader64) (table : Nat → UInt8) (objects : Nat → VmArea) :
    List (ElfHeaderEntry64 × VmArea) :=
  (List.range header.numProgramHeaderEntries).map fun i => (elfEntry table i, objects i)

/-- The loop of `elf_load_segments`: it goes on whatever `do_mmap` returns. -/
def loadEntries (areas : List VmArea) (header : ElfHeader64) (table : Nat → UInt8)
    (objects : Nat → VmArea) : Option (List VmArea) :=
  run (loadStep vmaFile file) areas (segments header table objects)

end load

/-- What the source leaves open in one call: the value of `VMA_FILE`, and the old contents of the
objects for the header, for the table and for the areas. -/
structure Leftovers where
  vmaFile : Nat
  header : Nat → UInt8
  table : Nat → UInt8
  objects : Nat → VmArea

/-- A buffer after bytes were stored at its start. -/
def filled (bytes : List UInt8) (old : Nat → UInt8) : Nat → UInt8 := fun i => bytes.getD i (old i)

/-- The call `file->ops->read(file, dst, count, &file->offset)` for a file of the ramfs: the bytes
that it has stored, and the offset. -/
def readFile (s : System) (file : File) (offset count : Nat) : Option (List UInt8 × Nat × System) :=
  s.inodes[file.ino]?.bind fun ino =>
    match genericFileRead count s.heap ino count offset with
    | .done r => some (r.out, r.pos, { s with heap := r.heap, inodes := s.inodes.set file.ino r.ino })
    | _ => none

section load
variable (old : Leftovers) (k : Nat)

/-- The function `elf_load_segments` in the task whose address space has number `k`. For a table that
is too large for `kmalloc` it goes on with a null pointer. -/
def elfLoadSegments (s : System) (file : File) (offset : Nat) (header : ElfHeader64) :
    Option (Nat × System) := do
  let _ ← Sys.kmallocBytes (56 * header.numProgramHeaderEntries)
  let ino ← s.inodes[file.ino]?
  let (_, offset) := vfsLseek ino offset header.programHeaderTablePos 0
  let (bytes, offset, s) ← readFile s file offset (56 * header.numProgramHeaderEntries)
  let mm ← s.procs[k]?
  let areas ← loadEntries old.vmaFile file mm.vmAreas header (filled bytes old.table) old.objects
  some (offset, s.setAreas k mm areas)

/-- The function `elf_load_binary` up to `cpu_setup_process`: its result, the header, and the offset
of the file. -/
def elfLoadBinary (s : System) (file : File) (offset : Nat) :
    Option (Int × ElfHeader64 × Nat × System) := do
  let (bytes, offset, s) ← readFile s file offset 64
  let header := elfHeader (filled bytes old.header)
  if isValidElf header then
    (elfLoadSegments old k s file offset header).map fun (offset, s) => (0, header, offset, s)
  else some (-22, header, offset, s)

end load

/-! ### What the file asks for -/

/-- The addresses of an entry lie in areas, and the fault path finds the file page of each byte
that comes from the file. -/
structure Mapped (areas : List VmArea) (e : ElfHeaderEntry64) : Prop where
  memory : ∀ va, e.pVaddr ≤ va → va < e.pVaddr + e.sizeInMem →
    ∃ a, findVmaForAddress va areas = some a
  file : ∀ va, e.pVaddr ≤ va → va < e.pVaddr + e.sizeInFile →
    ∃ a, findVmaForAddress va areas = some a ∧
      pgoffset a va + a.fpgOff = (e.offsetData + (va - e.pVaddr)) / pageSize

section file
variable (s : System) (ino : Inode)

/-- The bytes of the file. -/
def fileBytes : Nat → UInt8 := ino.fMap.content s.heap

def fileHeader : ElfHeader64 := elfHeader (fileBytes s ino)

/-- The entries of the file, each with the object for its area. -/
def fileSegments (old : Leftovers) : List (ElfHeaderEntry64 × VmArea) :=
  segments (fileHeader s ino) (fun i => fileBytes s ino ((fileHeader s ino).programHeaderTablePos + i))
    old.objects

/-- An executable in a file of the ramfs: its header and its table are inside. -/
structure Executable (file : File) : Prop where
  inode : s.inodes[file.ino]? = some ino
  sound : ino.fMap.Sound s.heap
  size : ino.size < 2 ^ 63
  header : 64 ≤ ino.size
  table : (fileHeader s ino).programHeaderTablePos + 56 * (fileHeader s ino).numProgramHeaderEntries ≤ ino.size
  valid : isValidElf (fileHeader s ino) = true

/-- The header and the table can be read: both reads fit, and there is an object for the table. -/
structure TableRead : Prop where
  header : ReadFits ino 0 64
  object : 56 * (fileHeader s ino).numProgramHeaderEntries ≤ 32768
  table : ReadFits ino (fileHeader s ino).programHeaderTablePos
    (56 * (fileHeader s ino).numProgramHeaderEntries)

/-- The executable is loaded into an empty address space as its table says: every loadable entry is
mapped, and an entry that is not loadable leaves the areas as they are. -/
def Loads (old : Leftovers) (k : Nat) (file : File) : Prop :=
  ∃ header offset s' mm, elfLoadBinary old k s file 0 = some (0, header, offset, s') ∧
    s'.procs[k]? = some mm ∧
    Along (loadStep old.vmaFile file)
      (fun areas s areas' => s.1.segmentType ≠ elfLoadSegment → areas' = areas) [] (fileSegments s ino old) ∧
    ∀ e ∈ fileSegments s ino old, e.1.segmentType = elfLoadSegment → Mapped mm.vmAreas e.1

end file

/-- The entry has bytes in the file, its first page is a page of the user half other than the
first, and its file pages have numbers of 32 bits. -/
structure ElfHeaderEntry64.Fits (e : ElfHeaderEntry64) : Prop where
  some : 0 < e.sizeInFile
  first : pageSize ≤ e.pVaddr
  limit : e.pVaddr + e.sizeInFile ≤ x86Limit
  offset : e.offsetData < 2 ^ 44

/-- The ranges of two entries, in whole pages, are disjoint, and where they touch their
protections are different. -/
structure Clear (e e' : ElfHeaderEntry64) : Prop where
  apart : e.hint + e.rounded ≤ e'.hint ∨ e'.hint + e'.rounded ≤ e.hint
  kinds : e.hint + e.rounded = e'.hint ∨ e'.hint + e'.rounded = e.hint → e.prot ≠ e'.prot

/-- Every entry can have the range it asks for. -/
structure Placed (segs : List (ElfHeaderEntry64 × VmArea)) : Prop where
  fits : ∀ s ∈ segs, s.1.Fits
  clear : segs.Pairwise fun s s' => Clear s.1 s'.1

/-- The address is in the range of the entry. -/
def ElfHeaderEntry64.Holds (e : ElfHeaderEntry64) (va : Nat) : Prop :=
  e.hint ≤ va ∧ va < e.hint + e.rounded

/-- The addresses of an entry behind its own range, which is its file size in whole pages from the
start of its first page, lie in the ranges of other entries; for bytes of the file these are as
far from their file pages. -/
def TailCovered (segs : List (ElfHeaderEntry64 × VmArea)) (e : ElfHeaderEntry64) : Prop :=
  ∀ va, e.hint + e.rounded ≤ va → va < e.pVaddr + max e.sizeInMem e.sizeInFile →
    ∃ s ∈ segs, s.1.Holds va ∧ (va < e.pVaddr + e.sizeInFile →
      s.1.offsetData / pageSize + e.hint / pageSize = e.offsetData / pageSize + s.1.hint / pageSize)

/-! ### The ranges -/

section ranges
variable {e e' : ElfHeaderEntry64}

theorem hint_eq (h : e.pVaddr < 2 ^ 48) : e.hint = e.pVaddr / 0x1000 * 0x1000 := by
  rw [ElfHeaderEntry64.hint, pageFrame_eq]
  omega

theorem rounded_eq (h : e.sizeInFile ≤ x86Limit) :
    e.rounded = (e.sizeInFile + 0xfff) / 0x1000 * 0x1000 := by
  unfold ElfHeaderEntry64.rounded
  unfold x86Limit at h
  rw [pageSize]
  split_ifs
  all_goals
    rw [wrap64_of_lt (by omega)]
    omega

theorem ElfHeaderEntry64.Fits.range (h : e.Fits) :
    e.hint = e.pVaddr / 0x1000 * 0x1000 ∧ e.rounded = (e.sizeInFile + 0xfff) / 0x1000 * 0x1000 ∧
      e.hint ≠ 0 ∧ 0 < e.rounded ∧ e.hint + e.rounded ≤ x86Limit ∧ e.pgoff = e.offsetData / 0x1000 := by
  obtain ⟨hsome, hfirst, hlimit, hoffset⟩ := h
  have hhint := @hint_eq e (by unfold x86Limit at hlimit; omega)
  have hrounded := @rounded_eq e (by omega)
  have hlast : e.hint + e.rounded ≤ x86Limit := by
    rw [hhint, hrounded]
    unfold x86Limit at hlimit ⊢
    omega
  have hpgoff : e.pgoff = e.offsetData / 0x1000 := by
    rw [ElfHeaderEntry64.pgoff, pageSize]
    omega
  unfold pageSize at hfirst
  exact ⟨hhint, hrounded, by omega, by omega, hlast, hpgoff⟩

end ranges

/-! ### The areas -/

/-- The protection that a private mapping of the entry gets. -/
def ElfHeaderEntry64.storedProt (e : ElfHeaderEntry64) : Prot :=
  if e.prot.write then { e.prot with write := false, mayWrite := true } else e.prot

theorem storedProt_inj {e e' : ElfHeaderEntry64} (h : e.storedProt = e'.storedProt) : e.prot = e'.prot := by
  unfold ElfHeaderEntry64.storedProt ElfHeaderEntry64.prot at h
  unfold ElfHeaderEntry64.prot
  split_ifs at h <;> simp_all

section areas
variable (vmaFile : Nat) (file : File)

/-- The area of an entry that gets the range it asks for. -/
def placedArea (s : ElfHeaderEntry64 × VmArea) : VmArea where
  start := s.1.hint
  endAddr := s.1.hint + s.1.rounded
  length := s.1.sizeInFile
  prot := s.1.storedProt
  flags := privateFlags
  file := some file
  type := vmaFile
  fpgOff := s.1.pgoff
  vmOps := file.mmap.getD s.2.vmOps

/-- The areas are those of the entries so far. -/
structure Laid (segs : List (ElfHeaderEntry64 × VmArea)) (areas : List VmArea) : Prop where
  laid : WellLaid areas
  apart : Apart areas
  mem : ∀ a, a ∈ areas ↔ ∃ s ∈ segs, a = placedArea vmaFile file s

variable {vmaFile file} {segs : List (ElfHeaderEntry64 × VmArea)} {s : ElfHeaderEntry64 × VmArea}
  {areas : List VmArea}

theorem Laid.step (h : Laid vmaFile file segs areas) {e : ElfHeaderEntry64} (object : VmArea) (hfits : e.Fits)
    (hclear : ∀ s ∈ segs, Clear s.1 e) :
    loadStep vmaFile file areas (e, object) =
        some (insertSorted (placedArea vmaFile file (e, object)) areas) ∧
      Laid vmaFile file (segs ++ [(e, object)]) (insertSorted (placedArea vmaFile file (e, object)) areas) := by
  obtain ⟨-, -, hhint, hpos, hend, -⟩ := hfits.range
  have hsome := hfits.some
  have hlimit := hfits.limit
  have hwrap : e.hint + e.rounded < 2 ^ 64 := by
    unfold x86Limit at hend
    omega
  have hsides : ∀ a ∈ areas, a.endAddr ≤ e.hint ∨ e.hint + e.rounded ≤ a.start := by
    intro a ha
    obtain ⟨s, hs, rfl⟩ := (h.mem a).mp ha
    exact (hclear s hs).apart
  have hvalid : isValidVaddrForVma areas e.hint e.rounded = true :=
    isValidVaddrForVma_of_clear hpos hwrap (fun a ha => (h.laid.bounds a ha).1) hsides
  have haccepted : (segmentCall vmaFile file e object hsome).addr ≠ 0 ∧
      isValidVaddrForVma areas (segmentCall vmaFile file e object hsome).addr
        (segmentCall vmaFile file e object hsome).rounded = true := ⟨hhint, hvalid⟩
  have hjoins : (segmentCall vmaFile file e object hsome).JoinsNothing areas e.hint := by
    rintro a ha htouch ⟨-, -, hprot, -⟩
    obtain ⟨s, hs, rfl⟩ := (h.mem a).mp ha
    exact (hclear s hs).kinds htouch (storedProt_inj hprot)
  have hcall : (segmentCall vmaFile file e object hsome).Fits areas := by
    constructor
    · show e.sizeInFile ≤ 2 ^ 64 - pageSize
      unfold x86Limit at hlimit
      unfold pageSize
      omega
    · rw [if_pos haccepted]
      exact ⟨hend, hjoins⟩
  have harea : (segmentCall vmaFile file e object hsome).area areas = placedArea vmaFile file (e, object) := by
    have hplace : (segmentCall vmaFile file e object hsome).place areas = (e.hint, e.hint + e.rounded) := by
      rw [MmapCall.place, if_pos haccepted]
      exact congrArg (Prod.mk e.hint) (wrap64_of_lt hwrap)
    rw [MmapCall.area, hplace]
    rfl
  obtain ⟨hmap, hlaid, hapart, -⟩ := mapArea_fits h.laid h.apart hcall
  rw [harea] at hmap hlaid hapart
  refine ⟨?_, hlaid, hapart, ?_⟩
  · rw [loadStep, dif_pos hsome, layoutStep, hmap]
    rfl
  · intro a
    rw [mem_insertSorted, h.mem]
    simp only [List.mem_append, List.mem_singleton, or_and_right, exists_or, exists_eq_left]
    exact or_comm

theorem Laid.run (h : Laid vmaFile file segs areas) {rest : List (ElfHeaderEntry64 × VmArea)}
    (hplaced : Placed (segs ++ rest)) :
    ∃ areas', Execution.run (loadStep vmaFile file) areas rest = some areas' ∧
      Laid vmaFile file (segs ++ rest) areas' := by
  induction rest generalizing segs areas with
  | nil => exact ⟨areas, rfl, by rwa [List.append_nil]⟩
  | cons s rest ih =>
      obtain ⟨e, object⟩ := s
      have hclear : ∀ s ∈ segs, Clear s.1 e := fun s hs =>
        (List.pairwise_append.mp hplaced.clear).2.2 s hs _ List.mem_cons_self
      have hfits : e.Fits := hplaced.fits (e, object) (List.mem_append_right _ List.mem_cons_self)
      obtain ⟨hstep, hlaid⟩ := h.step object hfits hclear
      rw [List.append_cons] at hplaced ⊢
      obtain ⟨areas', hrun, hlaid'⟩ := ih hlaid hplaced
      refine ⟨areas', ?_, hlaid'⟩
      rw [Execution.run, hstep, Option.bind_some, hrun]

theorem loadStep_length {areas' : List VmArea} (h : loadStep vmaFile file areas s = some areas') :
    areas'.length = areas.length + 1 := by
  obtain ⟨e, object⟩ := s
  unfold loadStep at h
  dsimp only at h
  split_ifs at h with hpos
  · obtain ⟨⟨r, areas''⟩, hmap, rfl⟩ := Option.map_eq_some_iff.mp h
    unfold mapArea at hmap
    split at hmap
    next hinsert =>
      obtain ⟨-, rfl⟩ := Prod.mk.inj (Option.some.inj hmap)
      exact insertVma_length hinsert
    next => contradiction
  · split at h
    next hinsert => exact Option.some.inj h ▸ insertVma_length hinsert
    next => contradiction

/-- Every entry must be loadable for entries that are not to leave the areas as they are. -/
theorem along_load_iff {areas' : List VmArea}
    (hrun : Execution.run (loadStep vmaFile file) areas segs = some areas') :
    Along (loadStep vmaFile file) (fun areas s areas' => s.1.segmentType ≠ elfLoadSegment → areas' = areas)
      areas segs ↔ ∀ s ∈ segs, s.1.segmentType = elfLoadSegment := by
  induction segs generalizing areas with
  | nil => simp [Along]
  | cons s rest ih =>
      obtain ⟨t, ht, hrest⟩ := Option.bind_eq_some_iff.mp hrun
      have hkeeps : (s.1.segmentType ≠ elfLoadSegment → t = areas) ↔ s.1.segmentType = elfLoadSegment := by
        refine ⟨fun hsame => ?_, fun hload hne => absurd hload hne⟩
        by_contra hne
        have := loadStep_length ht
        rw [hsame hne] at this
        omega
      rw [List.forall_mem_cons, ← ih hrest, ← hkeeps, Along]
      constructor
      · rintro ⟨u, hu, hfirst, halong⟩
        obtain rfl := Option.some.inj (ht.symm.trans hu)
        exact ⟨hfirst, halong⟩
      · rintro ⟨hfirst, halong⟩
        exact ⟨t, ht, hfirst, halong⟩

theorem Laid.find_iff (h : Laid vmaFile file segs areas) {va : Nat} {a : VmArea} :
    findVmaForAddress va areas = some a ↔ ∃ s ∈ segs, a = placedArea vmaFile file s ∧ s.1.Holds va := by
  constructor
  · intro hfind
    obtain ⟨hmem, hva⟩ := findVmaForAddress_some hfind
    obtain ⟨s, hs, rfl⟩ := (h.mem a).mp hmem
    exact ⟨s, hs, rfl, hva⟩
  · rintro ⟨s, hs, rfl, hva⟩
    have hmem := (h.mem _).mpr ⟨s, hs, rfl⟩
    cases hfind : findVmaForAddress va areas with
    | none =>
        exact absurd hva (findVmaForAddress_none hfind hmem)
    | some b =>
        obtain ⟨hmem', hvb⟩ := findVmaForAddress_some hfind
        rw [h.laid.unique hmem' hmem hvb hva]

/-! ### Addresses and file pages -/

theorem placedArea_page (hfits : s.1.Fits) {va : Nat} (hva : s.1.Holds va) :
    pgoffset (placedArea vmaFile file s) va + (placedArea vmaFile file s).fpgOff + s.1.hint / 0x1000 =
      va / 0x1000 + s.1.offsetData / 0x1000 := by
  obtain ⟨hhint, -, -, -, hend, hpgoff⟩ := hfits.range
  obtain ⟨hlow, hhigh⟩ := hva
  have hsub : sub64 va s.1.hint = va - s.1.hint := sub64_of_le hlow (by unfold x86Limit at hend; omega)
  show sub64 va s.1.hint / 0x1000 + s.1.pgoff + s.1.hint / 0x1000 = _
  rw [hsub, hpgoff]
  omega

/-- An entry is mapped exactly when the addresses behind its own range are covered. -/
theorem Laid.mapped_iff (h : Laid vmaFile file segs areas) (hplaced : Placed segs) (hs : s ∈ segs)
    (hcongr : s.1.pVaddr % pageSize = s.1.offsetData % pageSize) :
    Mapped areas s.1 ↔ TailCovered segs s.1 := by
  obtain ⟨hhint, hrounded, -, hpos, -, -⟩ := (hplaced.fits s hs).range
  have hown : ∀ va, s.1.pVaddr ≤ va → va < s.1.hint + s.1.rounded → s.1.Holds va := by
    intro va hlow hhigh
    exact ⟨by omega, hhigh⟩
  unfold pageSize at hcongr
  constructor
  · intro hmapped va htail hva
    by_cases hfile : va < s.1.pVaddr + s.1.sizeInFile
    · obtain ⟨a, hfind, hpage⟩ := hmapped.file va (by omega) hfile
      obtain ⟨s', hs', rfl, hholds⟩ := h.find_iff.mp hfind
      refine ⟨s', hs', hholds, fun _ => ?_⟩
      have hpage' := @placedArea_page vmaFile file s' (hplaced.fits s' hs') va hholds
      rw [hpage] at hpage'
      unfold pageSize at hpage' ⊢
      omega
    · obtain ⟨a, hfind⟩ := hmapped.memory va (by omega) (by omega)
      obtain ⟨s', hs', rfl, hholds⟩ := h.find_iff.mp hfind
      exact ⟨s', hs', hholds, fun hlt => absurd hlt hfile⟩
  · intro hcovered
    constructor
    · intro va hlow hhigh
      by_cases htail : va < s.1.hint + s.1.rounded
      · exact ⟨_, h.find_iff.mpr ⟨s, hs, rfl, hown va hlow htail⟩⟩
      · obtain ⟨s', hs', hholds, -⟩ := hcovered va (by omega) (by omega)
        exact ⟨_, h.find_iff.mpr ⟨s', hs', rfl, hholds⟩⟩
    · intro va hlow hhigh
      by_cases htail : va < s.1.hint + s.1.rounded
      · have hpage := @placedArea_page vmaFile file s (hplaced.fits s hs) va (hown va hlow htail)
        refine ⟨placedArea vmaFile file s, h.find_iff.mpr ⟨s, hs, rfl, hown va hlow htail⟩, ?_⟩
        unfold pageSize
        omega
      · obtain ⟨s', hs', hholds, hsame⟩ := hcovered va (by omega) (by omega)
        have hpage := @placedArea_page vmaFile file s' (hplaced.fits s' hs') va hholds
        have hsame' := hsame hhigh
        refine ⟨placedArea vmaFile file s', h.find_iff.mpr ⟨s', hs', rfl, hholds⟩, ?_⟩
        unfold pageSize at *
        omega

end areas

/-! ### What the buffers hold -/

section buffers
variable {buf buf' : Nat → UInt8} {pos n : Nat}

theorem readLe_congr (h : ∀ i < n, buf (pos + i) = buf' (pos + i)) :
    readLe buf pos n = readLe buf' pos n := by
  induction n generalizing pos with
  | zero => rfl
  | succ n ih =>
      have hrest : ∀ i < n, buf (pos + 1 + i) = buf' (pos + 1 + i) := by
        intro i hi
        rw [Nat.add_assoc, Nat.add_comm 1 i]
        exact h (i + 1) (by omega)
      rw [readLe, readLe, ih hrest, ← Nat.add_zero pos, h 0 (by omega)]

theorem filled_range (data old : Nat → UInt8) {i : Nat} (hi : i < n) :
    filled ((List.range n).map data) old i = data i := by
  simp [filled, hi]

theorem elfHeader_congr (h : ∀ i < 64, buf i = buf' i) : elfHeader buf = elfHeader buf' := by
  have hword : ∀ pos n, pos + n ≤ 64 → readLe buf pos n = readLe buf' pos n := fun pos n hle =>
    readLe_congr fun i hi => h (pos + i) (by omega)
  have hmagic : ((List.range 4).map fun i => (buf i).toNat) = (List.range 4).map fun i => (buf' i).toNat := by
    refine List.map_congr_left fun i hi => ?_
    rw [h i (by have := List.mem_range.mp hi; omega)]
  unfold elfHeader
  rw [hmagic, h 4 (by decide), h 5 (by decide), hword 16 2 (by decide), hword 24 8 (by decide),
    hword 32 8 (by decide), hword 56 2 (by decide)]

theorem segments_congr {header : ElfHeader64} {objects : Nat → VmArea}
    (h : ∀ i < 56 * header.numProgramHeaderEntries, buf i = buf' i) :
    segments header buf objects = segments header buf' objects := by
  refine List.map_congr_left fun i hi => ?_
  have hlt := List.mem_range.mp hi
  have hword : ∀ off n, off + n ≤ 56 →
      readLe buf (56 * i + off) n = readLe buf' (56 * i + off) n := fun off n hle =>
    readLe_congr fun j hj => h (56 * i + off + j) (by omega)
  have h0 := hword 0 4 (by decide)
  rw [Nat.add_zero] at h0
  unfold elfEntry
  simp only [h0, hword 4 4 (by decide), hword 8 8 (by decide), hword 16 8 (by decide), hword 32 8 (by decide),
    hword 40 8 (by decide)]

end buffers

/-! ### Reading the file -/

section reading
variable {s s' : System} {file : File} {ino ino' : Inode} {pos count : Nat}

/-- The file after a read: its pages may be in new frames, its bytes are the same. -/
structure Reread (s : System) (ino : Inode) (file : File) (s' : System) (ino' : Inode) : Prop where
  inode : s'.inodes[file.ino]? = some ino'
  sound : ino'.fMap.Sound s'.heap
  size_eq : ino'.size = ino.size
  slots_eq : ino'.fMap.nrPages = ino.fMap.nrPages
  bytes_eq : fileBytes s' ino' = fileBytes s ino
  procs_eq : s'.procs = s.procs

theorem Reread.fits_iff (h : Reread s ino file s' ino') : ReadFits ino' pos count ↔ ReadFits ino pos count := by
  rw [ReadFits, ReadFits, h.size_eq, h.slots_eq]

theorem readFile_fits (hino : s.inodes[file.ino]? = some ino) (hs : ino.fMap.Sound s.heap)
    (hsize : ino.size < 2 ^ 63) (hin : pos + count ≤ ino.size) (hfits : ReadFits ino pos count) :
    ∃ s' ino', readFile s file pos count =
        some ((List.range count).map fun i => fileBytes s ino (pos + i), pos + count, s') ∧
      Reread s ino file s' ino' := by
  obtain ⟨r, hdone, hread, htracks⟩ := read_tracks hs (by omega) (by omega) hfits
  have hlt := (List.getElem?_eq_some_iff.mp hino).1
  have htotal : r.total = count := by
    rw [hread.total_eq]
    split_ifs <;> omega
  refine ⟨{ s with heap := r.heap, inodes := s.inodes.set file.ino r.ino }, r.ino, ?_, ?_, htracks.sound,
    hread.size_eq, ?_, hread.content_eq, rfl⟩
  · rw [readFile, hino, Option.bind_some, hdone]
    dsimp only
    rw [hread.pos_eq, hread.out_eq, htotal]
    rfl
  · exact List.getElem?_set_self hlt
  · rw [htracks.sound.count_eq, htracks.length_eq, hs.count_eq]

theorem readFile_not_fits (hino : s.inodes[file.ino]? = some ino) (hs : ino.fMap.Sound s.heap)
    (hsize : ino.size < 2 ^ 63) (hin : pos + count ≤ ino.size) (hno : ¬ ReadFits ino pos count) :
    readFile s file pos count = none := by
  rw [← read_returns_iff hs hsize hin] at hno
  rw [readFile, hino, Option.bind_some]
  cases hread : genericFileRead count s.heap ino count pos with
  | done r => exact absurd ⟨r, hread⟩ hno
  | fault => rfl
  | running r => rfl

end reading

section loading
variable {s : System} {file : File} {ino : Inode} {old : Leftovers} {k : Nat} {mm : ProcMm}

theorem Executable.read_header (h : Executable s ino file) (hfits : ReadFits ino 0 64) (old : Leftovers) :
    ∃ bytes s' ino', readFile s file 0 64 = some (bytes, 64, s') ∧
      elfHeader (filled bytes old.header) = fileHeader s ino ∧ Reread s ino file s' ino' := by
  obtain ⟨s', ino', hread, hsame⟩ :=
    readFile_fits h.inode h.sound h.size ((Nat.zero_add 64).trans_le h.header) hfits
  refine ⟨_, s', ino', hread, elfHeader_congr fun i hi => ?_, hsame⟩
  rw [filled_range _ _ hi, Nat.zero_add]

/-- Where the header and the table can be read, the loop runs over the entries of the file. -/
theorem Executable.load (h : Executable s ino file) (hread : TableRead s ino) (hk : s.procs[k]? = some mm)
    {areas : List VmArea} (hrun : run (loadStep old.vmaFile file) mm.vmAreas (fileSegments s ino old) = some areas) :
    ∃ offset s', elfLoadBinary old k s file 0 = some (0, fileHeader s ino, offset, s') ∧
      s'.procs[k]? = some { mm with vmAreas := areas } := by
  obtain ⟨bytes, s₁, ino₁, hread₁, hheader, hsame⟩ := h.read_header hread.header old
  have hin : (fileHeader s ino).programHeaderTablePos + 56 * (fileHeader s ino).numProgramHeaderEntries ≤
      ino₁.size := by
    rw [hsame.size_eq]
    exact h.table
  obtain ⟨s₂, ino₂, hread₂, hsame₂⟩ := readFile_fits hsame.inode hsame.sound (hsame.size_eq ▸ h.size) hin
    (hsame.fits_iff.mpr hread.table)
  obtain ⟨object, hobject⟩ := Option.isSome_iff_exists.mp ((Sys.kmallocBytes_isSome_iff _).mpr hread.object)
  have hk₂ : s₂.procs[k]? = some mm := by rw [hsame₂.procs_eq, hsame.procs_eq, hk]
  rw [hsame.bytes_eq] at hread₂
  have hload : loadEntries old.vmaFile file mm.vmAreas (fileHeader s ino)
      (filled ((List.range (56 * (fileHeader s ino).numProgramHeaderEntries)).map fun i =>
        fileBytes s ino ((fileHeader s ino).programHeaderTablePos + i)) old.table) old.objects = some areas := by
    rw [← hrun, loadEntries, segments_congr fun i hi => filled_range _ _ hi]
    rfl
  refine ⟨(fileHeader s ino).programHeaderTablePos + 56 * (fileHeader s ino).numProgramHeaderEntries,
    s₂.setAreas k mm areas, ?_, List.getElem?_set_self (List.getElem?_eq_some_iff.mp hk₂).1⟩
  simp only [elfLoadBinary, hread₁, hheader, h.valid, elfLoadSegments, hobject, hsame.inode, vfsLseek, hread₂,
    hk₂, hload, Option.bind_eq_bind, Option.bind_some, if_true, Option.map_some]

theorem Executable.load_none (h : Executable s ino file) (hno : ¬ TableRead s ino) (old : Leftovers) (k : Nat) :
    elfLoadBinary old k s file 0 = none := by
  by_cases hheader : ReadFits ino 0 64
  · obtain ⟨bytes, s₁, ino₁, hread₁, heq, hsame⟩ := h.read_header hheader old
    have hsegments : elfLoadSegments old k s₁ file 64 (fileHeader s ino) = none := by
      rw [elfLoadSegments]
      by_cases hobject : 56 * (fileHeader s ino).numProgramHeaderEntries ≤ 32768
      · have htable : ¬ ReadFits ino (fileHeader s ino).programHeaderTablePos
            (56 * (fileHeader s ino).numProgramHeaderEntries) := fun hfits => hno ⟨hheader, hobject, hfits⟩
        have hin : (fileHeader s ino).programHeaderTablePos + 56 * (fileHeader s ino).numProgramHeaderEntries ≤
            ino₁.size := by
          rw [hsame.size_eq]
          exact h.table
        have hnone := readFile_not_fits hsame.inode hsame.sound (hsame.size_eq ▸ h.size) hin
          fun hfits => htable (hsame.fits_iff.mp hfits)
        cases Sys.kmallocBytes (56 * (fileHeader s ino).numProgramHeaderEntries) with
        | none => rfl
        | some object =>
            simp only [hsame.inode, vfsLseek, hnone, Option.bind_eq_bind, Option.bind_some, Option.bind_none]
      · have hnone : Sys.kmallocBytes (56 * (fileHeader s ino).numProgramHeaderEntries) = none := by
          rw [← Option.not_isSome_iff_eq_none, Sys.kmallocBytes_isSome_iff]
          exact hobject
        rw [hnone]
        rfl
    simp only [elfLoadBinary, hread₁, heq, h.valid, hsegments, Option.bind_eq_bind, Option.bind_some, if_true,
      Option.map_none]
  · have hnone := readFile_not_fits h.inode h.sound h.size ((Nat.zero_add 64).trans_le h.header) hheader
    rw [elfLoadBinary, hnone]
    rfl

/-- An executable whose entries can all have the range they ask for is loaded as its table says
exactly when its header and its table can be read, all entries are loadable, and no address of one
lies behind its own range, unless another entry covers it. -/
theorem elf_loads_iff (h : Executable s ino file) (hk : s.procs[k]? = some mm) (hempty : mm.vmAreas = [])
    (hcongr : ∀ e ∈ fileSegments s ino old, e.1.segmentType = elfLoadSegment →
      e.1.pVaddr % pageSize = e.1.offsetData % pageSize)
    (hplaced : Placed (fileSegments s ino old)) :
    Loads s ino old k file ↔ TableRead s ino ∧
      ∀ e ∈ fileSegments s ino old,
        e.1.segmentType = elfLoadSegment ∧ TailCovered (fileSegments s ino old) e.1 := by
  have hlaid₀ : Laid old.vmaFile file [] [] := ⟨⟨by simp, .nil⟩, .nil, by simp⟩
  obtain ⟨areas, hrun, hlaid⟩ : ∃ areas,
      run (loadStep old.vmaFile file) [] (fileSegments s ino old) = some areas ∧
        Laid old.vmaFile file (fileSegments s ino old) areas := hlaid₀.run hplaced
  have hrun' := hempty.symm ▸ hrun
  constructor
  · rintro ⟨header, offset, s', mm', hload', hmm', halong, hmapped⟩
    have hread : TableRead s ino := by
      by_contra hno
      rw [h.load_none hno old k] at hload'
      contradiction
    obtain ⟨offset₁, s₁, hload, hmm⟩ := h.load hread hk hrun'
    obtain ⟨-, hsame⟩ := Prod.mk.inj (Option.some.inj (hload.symm.trans hload'))
    obtain ⟨-, hsame⟩ := Prod.mk.inj hsame
    obtain ⟨-, rfl⟩ := Prod.mk.inj hsame
    obtain rfl := Option.some.inj (hmm.symm.trans hmm')
    refine ⟨hread, fun e he => ?_⟩
    have he' := (along_load_iff hrun).mp halong e he
    exact ⟨he', (hlaid.mapped_iff hplaced he (hcongr e he he')).mp (hmapped e he he')⟩
  · rintro ⟨hread, hall⟩
    obtain ⟨offset, s', hload, hmm⟩ := h.load hread hk hrun'
    refine ⟨_, offset, s', _, hload, hmm, (along_load_iff hrun).mpr fun e he => (hall e he).1, ?_⟩
    intro e he he'
    exact (hlaid.mapped_iff hplaced he (hcongr e he he')).mpr (hall e he).2

end loading

/-! ### Two executables -/

/-- The `n` bytes of a word. -/
def leBytes (n v : Nat) : List UInt8 := (List.range n).map fun i => UInt8.ofNat (v / 256 ^ i)

/-- A header of an executable with `n` segments. -/
def headerBytes (n : Nat) : List UInt8 :=
  [0x7f, 0x45, 0x4c, 0x46, 2, 1, 1, 0] ++ leBytes 8 0 ++ leBytes 2 2 ++ leBytes 2 0x3e ++ leBytes 4 1 ++
    leBytes 8 0x400000 ++ leBytes 8 64 ++ leBytes 8 0 ++ leBytes 4 0 ++ leBytes 2 64 ++ leBytes 2 56 ++
    leBytes 2 n

def entryBytes (segmentType flags offset vaddr sizeInFile sizeInMem : Nat) : List UInt8 :=
  leBytes 4 segmentType ++ leBytes 4 flags ++ leBytes 8 offset ++ leBytes 8 vaddr ++ leBytes 8 0 ++
    leBytes 8 sizeInFile ++ leBytes 8 sizeInMem ++ leBytes 8 0x1000

/-- A file of the ramfs. -/
def program : File := ⟨0x1000, 0, some .ramfs⟩

/-- One page that holds a header, its table and zeros, and a process without areas. -/
def elfSystem (n : Nat) (table : List UInt8) : System :=
  newSpace [] ⟨fun _ => ⟨fun i => (headerBytes n ++ List.replicate 6 0 ++ table).getD i 0, pageUsageCache, 0, 1⟩, 1⟩
    [onePage]

def noLeftovers : Leftovers := ⟨1, fun _ => 0, fun _ => 0, fun _ => clearedObject⟩

theorem onePage_sound (heap : PageHeap) (hnext : heap.next = 1) : onePage.fMap.Sound heap := by
  refine ⟨rfl, by decide, ?_, ?_⟩
  · intro i j p hi hj
    have hi' : i < 1 := (List.getElem?_eq_some_iff.mp hi).1
    have hj' : j < 1 := (List.getElem?_eq_some_iff.mp hj).1
    omega
  · rintro p ⟨i, hi⟩
    obtain rfl : p = 0 := by simpa [onePage] using List.mem_of_getElem? hi
    rw [hnext]
    exact Nat.one_pos

theorem elfSystem_executable {n : Nat} {table : List UInt8}
    (hvalid : isValidElf (fileHeader (elfSystem n table) onePage) = true)
    (htable : (fileHeader (elfSystem n table) onePage).programHeaderTablePos +
      56 * (fileHeader (elfSystem n table) onePage).numProgramHeaderEntries ≤ 4096) :
    Executable (elfSystem n table) onePage program :=
  ⟨rfl, onePage_sound _ rfl, by decide, by decide, htable, hvalid⟩

/-- Code and data on pages of their own; the data are followed by cleared memory on their page. -/
def alignedTable : List UInt8 :=
  entryBytes 1 5 0x1000 0x400000 0x1000 0x1000 ++ entryBytes 1 6 0x2000 0x401000 0x800 0x1000

theorem alignedTable_segments : fileSegments (elfSystem 2 alignedTable) onePage noLeftovers =
      [(⟨1, 5, 0x1000, 0x400000, 0x1000, 0x1000, by decide⟩, clearedObject),
        (⟨1, 6, 0x2000, 0x401000, 0x800, 0x1000, by decide⟩, clearedObject)] := by
  decide +kernel

theorem elf_loads_iff_aligned : Loads (elfSystem 2 alignedTable) onePage noLeftovers 0 program := by
  have htail : ∀ segs (e : ElfHeaderEntry64),
      e.pVaddr + max e.sizeInMem e.sizeInFile ≤ e.hint + e.rounded → TailCovered segs e := by
    intro segs e hle va hlow hhigh
    omega
  have hexec : Executable (elfSystem 2 alignedTable) onePage program :=
    elfSystem_executable (by decide +kernel) (by decide +kernel)
  refine (@elf_loads_iff _ _ _ _ _ ⟨lowPages 0, []⟩ hexec rfl rfl ?_ ?_).mpr ⟨⟨?_, ?_, ?_⟩, ?_⟩
  · rw [alignedTable_segments]
    simp only [List.forall_mem_cons, List.not_mem_nil, false_implies, implies_true, and_true]
    exact ⟨fun _ => rfl, fun _ => rfl⟩
  · rw [alignedTable_segments]
    constructor
    · simp only [List.forall_mem_cons, List.not_mem_nil, false_implies, implies_true, and_true]
      exact ⟨⟨by decide, by decide, by decide, by decide⟩, by decide, by decide, by decide, by decide⟩
    · simp only [List.pairwise_cons, List.mem_singleton, forall_eq, List.not_mem_nil, false_implies,
        implies_true, List.Pairwise.nil, and_true]
      exact ⟨by decide +kernel, fun _ => by decide⟩
  · exact .inr (.inr ⟨by decide, .inr (by decide), by decide⟩)
  · decide +kernel
  · exact .inr (.inr ⟨by decide +kernel, .inr (by decide +kernel), by decide +kernel⟩)
  · rw [alignedTable_segments]
    simp only [List.forall_mem_cons, List.not_mem_nil, false_implies, implies_true, and_true]
    exact ⟨⟨rfl, htail _ _ (by decide +kernel)⟩, rfl, htail _ _ (by decide +kernel)⟩

/-- A segment that starts in the middle of a page and ends on the next one, and a note in it. -/
def straddlingTable : List UInt8 :=
  entryBytes 1 5 0x800 0x400800 0x900 0x900 ++ entryBytes 4 4 0x900 0x400900 0x20 0x20

/-- The end of the segment is not mapped, and the note has an area. -/
theorem elf_straddling_segment :
    Executable (elfSystem 2 straddlingTable) onePage program ∧
      (∃ header offset t areas, elfLoadBinary noLeftovers 0 (elfSystem 2 straddlingTable) program 0 =
          some (0, header, offset, t) ∧ t.procs[0]? = some ⟨lowPages 0, areas⟩ ∧
        areas.length = 2 ∧ findVmaForAddress 0x401000 areas = none) ∧
      (∃ e ∈ (fileSegments (elfSystem 2 straddlingTable) onePage noLeftovers).map Prod.fst,
        e.segmentType = elfLoadSegment ∧ e.pVaddr % pageSize = e.offsetData % pageSize ∧
        e.pVaddr ≤ 0x401000 ∧ 0x401000 < e.pVaddr + e.sizeInMem) ∧
      ¬ Loads (elfSystem 2 straddlingTable) onePage noLeftovers 0 program := by
  have hsegments : fileSegments (elfSystem 2 straddlingTable) onePage noLeftovers =
      [(⟨1, 5, 0x800, 0x400800, 0x900, 0x900, by decide⟩, clearedObject),
        (⟨4, 4, 0x900, 0x400900, 0x20, 0x20, by decide⟩, clearedObject)] := by
    decide +kernel
  have hload : (elfLoadBinary noLeftovers 0 (elfSystem 2 straddlingTable) program 0).any
      (fun r => decide (r.1 = 0) && r.2.2.2.procs[0]?.any fun mm => decide (mm.pgtable = lowPages 0 ∧
        mm.vmAreas.length = 2 ∧ findVmaForAddress 0x401000 mm.vmAreas = none)) = true := by
    decide +kernel
  obtain ⟨⟨result, header, offset, t⟩, hsome, hfacts⟩ := (Option.any_eq_true _ _).mp hload
  rw [Bool.and_eq_true, decide_eq_true_eq] at hfacts
  obtain ⟨hzero, hprocs⟩ := hfacts
  obtain ⟨⟨pgtable, areas⟩, hmm, hareas⟩ := (Option.any_eq_true _ _).mp hprocs
  obtain ⟨htable, hlength, hnone⟩ := of_decide_eq_true hareas
  dsimp only at hzero hmm htable hlength hnone
  subst hzero htable
  refine ⟨elfSystem_executable (by decide +kernel) (by decide +kernel),
    ⟨header, offset, t, areas, hsome, hmm, hlength, hnone⟩, ?_, ?_⟩
  · rw [hsegments]
    exact ⟨_, List.mem_cons_self, rfl, rfl, by decide, by decide⟩
  · rintro ⟨header', offset', t', mm', hsome', hmm', -, hmapped⟩
    obtain ⟨-, hsame⟩ := Prod.mk.inj (Option.some.inj (hsome.symm.trans hsome'))
    obtain ⟨-, hsame⟩ := Prod.mk.inj hsame
    obtain ⟨-, rfl⟩ := Prod.mk.inj hsame
    obtain rfl := Option.some.inj (hmm.symm.trans hmm')
    rw [hsegments] at hmapped
    obtain ⟨a, hfind⟩ := (hmapped _ List.mem_cons_self rfl).memory 0x401000 (by decide) (by decide)
    rw [hnone] at hfind
    contradiction

end Lucix.Elf
