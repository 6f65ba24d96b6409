import Lucix.BitFields
import Lucix.Kmalloc

/-!
# The ACPI tables, `arch/x86_64/acpi/acpi.c`, `mcfg.c`, `hpet.c` and `kernel/device.c`

Memory is a function from virtual addresses to bytes; the objects that are written to are no part of
it. What `hpet_init` does with the registers it is given is left out, and so are the fields of a
device that are not set.
-/
namespace Lucix.AcpiTables
open BitFields ObjCache

/-- The value of `memcmp` on some bytes of memory and a string. -/
def memcmp (mem : Nat → UInt8) : Nat → List UInt8 → Int
  | _, [] => 0
  | a, b :: bs =>
      let sum : Int := (mem a).toNat - b.toNat
      if sum ≠ 0 then sum else memcmp mem (a + 1) bs

/-- The string `rsdp_signature`. -/
def rsdpSignature : List UInt8 := [82, 83, 68, 32, 80, 84, 82, 32]

/-- The loop of `find_rspd` from `ptr` on. -/
def findRspdFrom (mem : Nat → UInt8) (ptr : Nat) : Option Nat :=
  if ptr < 0xFFFF800000100000 then
    if memcmp mem ptr rsdpSignature ≠ 0 then findRspdFrom mem (ptr + 16) else some ptr
  else none
termination_by 0xFFFF800000100000 - ptr

def findRspd (mem : Nat → UInt8) : Option Nat := findRspdFrom mem 0xFFFF800000000000

def acpiMatch (mem : Nat → UInt8) (table : Nat) (signature : List UInt8) : Bool :=
  decide (memcmp mem table signature = 0)

def mcfgSignature : List UInt8 := [77, 67, 70, 71]

def hpetSignature : List UInt8 := [72, 80, 69, 84]

/-- The field `header.length` of a table. -/
def headerLength (mem : Nat → UInt8) (table : Nat) : Nat := readLe mem (table + 4) 4

/-- The sizes of the structs `sdt_header`, `acpi_mcfg`, `acpi_mcfg_entry` and `acpi_hpet`. -/
def sdtHeaderSize : Nat := 36
def acpiMcfgSize : Nat := 44
def acpiMcfgEntrySize : Nat := 16
def acpiHpetSize : Nat := 56

/-- The struct `pci_cfg_space`. -/
structure PciCfgSpace where
  addressBase : Nat
  segment : Nat
  busStart : Nat
  busEnd : Nat
  deriving DecidableEq, Repr

/-- The value `DEVICE_TYPE_PCI_CFG`. -/
def deviceTypePciCfg : Nat := 0

/-- The struct `device_table_element`. -/
structure DeviceTableElement where
  deviceType : Nat
  pciCfg : PciCfgSpace
  deriving DecidableEq, Repr

/-- The size of the struct. -/
def deviceTableElementSize : Nat := 64

/-- What the functions work on: the two global pointers, the device table from its head on with the
address of each device, the registers that `hpet_init` was called for, and the object caches with the
blocks that `alloc_pages` returns next. -/
structure State where
  rsdpDesc : Option Nat
  xsdt : Nat
  deviceTable : List (Nat × DeviceTableElement)
  hpets : List Nat
  deviceMemCache : Nat
  objects : Sys
  supply : List Nat

def addDeviceToTable (st : State) (device : Nat × DeviceTableElement) : State :=
  { st with deviceTable := device :: st.deviceTable }

/-- A device from `g_device_mem_cache`. The fields are stored through the pointer that is returned,
null or not. -/
def allocDevice (st : State) : Option (Nat × State) := do
  let (obj, caches, supply) ← memCacheAllocObj allocFuel st.objects.state st.supply st.deviceMemCache
  let device ← obj
  some (device,
    { st with objects := ⟨caches, (st.deviceMemCache, device) :: st.objects.live⟩, supply := supply })

/-- The device of an entry. -/
def mcfgDevice (mem : Nat → UInt8) (currPtr : Nat) : DeviceTableElement where
  deviceType := deviceTypePciCfg
  pciCfg :=
    { addressBase := readLe mem currPtr 8
      busStart := readLe mem (currPtr + 10) 1
      busEnd := readLe mem (currPtr + 11) 1
      segment := readLe mem (currPtr + 8) 2 }

/-- The loop of `parse_mcfg`. -/
def mcfgLoop (mem : Nat → UInt8) (length currIndex currPtr : Nat) (st : State) : Option State :=
  if currIndex < length then
    (allocDevice st).bind fun (device, st) =>
      mcfgLoop mem length (currIndex + acpiMcfgEntrySize) (currPtr + acpiMcfgEntrySize)
        (addDeviceToTable st (device, mcfgDevice mem currPtr))
  else some st
termination_by length - currIndex
decreasing_by
  rw [acpiMcfgEntrySize]
  omega

def parseMcfg (mem : Nat → UInt8) (mcfg : Nat) (st : State) : Option State :=
  let length := headerLength mem mcfg
  if (length + 2 ^ 64 - acpiMcfgSize) % 2 ^ 64 % acpiMcfgEntrySize ≠ 0 then some st
  else mcfgLoop mem length acpiMcfgSize (mcfg + acpiMcfgSize) st

def parseHpet (mem : Nat → UInt8) (hpet : Nat) (st : State) : State :=
  if headerLength mem hpet ≠ acpiHpetSize then st
  else { st with hpets := st.hpets ++ [pa2va (readLe mem (hpet + 44) 8)] }

/-- The body of the loop of `parse_xsdt`. -/
def parseTable (mem : Nat → UInt8) (st : State) (i : Nat) : Option State := do
  let table := pa2va (readLe mem (st.xsdt + sdtHeaderSize + 8 * i) 8)
  let st ← if acpiMatch mem table mcfgSignature then parseMcfg mem table st else some st
  some (if acpiMatch mem table hpetSignature then parseHpet mem table st else st)

def parseXsdt (mem : Nat → UInt8) (st : State) : Option State :=
  let numPointers := (headerLength mem st.xsdt + 2 ^ 64 - sdtHeaderSize) % 2 ^ 64 / 8 % 2 ^ 32
  (List.range numPointers).foldlM (parseTable mem) st

/-- The function `acpi_init`; without a descriptor it follows a null pointer. -/
def acpiInit (mem : Nat → UInt8) (st : State) : Option State := do
  let desc ← st.rsdpDesc <|> findRspd mem
  parseXsdt mem { st with rsdpDesc := some desc, xsdt := pa2va (readLe mem (desc + 24) 8) }

/-! ### The tables as the firmware writes them -/

structure SdtHeader where
  signature : UInt32
  length : UInt32
  revision : UInt8
  checksum : UInt8
  oemId : BitVec 48
  oemTableId : UInt64
  oemRevision : UInt32
  creatorId : UInt32
  creatorRevision : UInt32
  deriving DecidableEq

def SdtHeader.fields (h : SdtHeader) : List Field :=
  [(32, h.signature.toNat), (32, h.length.toNat), (8, h.revision.toNat), (8, h.checksum.toNat), (48, h.oemId.toNat),
    (64, h.oemTableId.toNat), (32, h.oemRevision.toNat), (32, h.creatorId.toNat), (32, h.creatorRevision.toNat)]

structure McfgEntry where
  baseAddress : UInt64
  pciSegmentGroup : UInt16
  startPciBusNumber : UInt8
  endPciBusNumber : UInt8
  reserved : UInt32
  deriving DecidableEq

def McfgEntry.fields (e : McfgEntry) : List Field :=
  [(64, e.baseAddress.toNat), (16, e.pciSegmentGroup.toNat), (8, e.startPciBusNumber.toNat),
    (8, e.endPciBusNumber.toNat), (32, e.reserved.toNat)]

/-- The configuration space that an entry describes. -/
def McfgEntry.device (e : McfgEntry) : DeviceTableElement :=
  ⟨deviceTypePciCfg,
    ⟨e.baseAddress.toNat, e.pciSegmentGroup.toNat, e.startPciBusNumber.toNat, e.endPciBusNumber.toNat⟩⟩

/-- A signature as the number that its four bytes make. -/
def mcfgMark : UInt32 := 0x4746434d
def hpetMark : UInt32 := 0x54455048

/-- A table: configuration spaces, a timer with the two words in front of its address, or one that
`parse_xsdt` has nothing to do for. -/
inductive Table where
  | mcfg (header : SdtHeader) (reserved : UInt64) (entries : List McfgEntry)
  | hpet (header : SdtHeader) (id : UInt32) (space : UInt32) (address : UInt64)
  | other (header : SdtHeader)

def Table.fields : Table → List Field
  | .mcfg header reserved entries => header.fields ++ ([(64, reserved.toNat)] ++ entries.flatMap McfgEntry.fields)
  | .hpet header id space address =>
      header.fields ++ [(32, id.toNat), (32, space.toNat), (64, address.toNat)]
  | .other header => header.fields

/-- The signature and the length say what the table is. -/
def Table.Proper : Table → Prop
  | .mcfg header _ entries => header.signature = mcfgMark ∧ header.length.toNat = 44 + 16 * entries.length
  | .hpet header _ _ _ => header.signature = hpetMark ∧ header.length.toNat = 56
  | .other header =>
      (header.signature = mcfgMark → (header.length.toNat + 4) % 16 ≠ 0 ∨ header.length.toNat < 44) ∧
        (header.signature = hpetMark → header.length.toNat ≠ 56)

def Table.devices : Table → List DeviceTableElement
  | .mcfg _ _ entries => entries.map McfgEntry.device
  | _ => []

def Table.hpets : Table → List Nat
  | .hpet _ _ _ address => [pa2va address.toNat]
  | _ => []

def Table.header : Table → SdtHeader
  | .mcfg header _ _ => header
  | .hpet header _ _ _ => header
  | .other header => header

/-- The struct `acpi_xsdt` with all its pointers. -/
structure Xsdt where
  header : SdtHeader
  pointers : List UInt64
  length_eq : header.length.toNat = 36 + 8 * pointers.length

def Xsdt.fields (x : Xsdt) : List Field := x.header.fields ++ x.pointers.map fun p => (64, p.toNat)

/-- The struct `rspd_descriptor2`. -/
structure RspdDescriptor2 where
  checksum : UInt8
  oemId : BitVec 48
  revision : UInt8
  rsdtAddress : UInt32
  length : UInt32
  xsdtAddress : UInt64
  extendedChecksum : UInt8
  reserved : UInt8

/-- The signature as the number that its eight bytes make. -/
def rsdpMark : UInt64 := 0x2052545020445352

def RspdDescriptor2.fields (d : RspdDescriptor2) : List Field :=
  [(64, rsdpMark.toNat), (8, d.checksum.toNat), (48, d.oemId.toNat), (8, d.revision.toNat), (32, d.rsdtAddress.toNat),
    (32, d.length.toNat), (64, d.xsdtAddress.toNat), (8, d.extendedChecksum.toNat), (8, d.reserved.toNat)]

/-! ### What is found -/

/-- The cache as `init_device_table` creates it. -/
def DeviceCache (t : CacheTable) (c : Nat) : Prop :=
  ∃ old, t.caches c = initializeCache old deviceTableElementSize 1

/-- The object caches are in order, and each of the next `n` devices has a fresh block if it needs
one. -/
structure Ready (t : CacheTable) (n : Nat) (st : State) : Prop where
  cache : DeviceCache t st.deviceMemCache
  kept : Kept t False st.objects
  room : n ≤ st.supply.length
  fresh : ∀ p ∈ st.supply, FreshBlock t st.objects.state.made ⟨st.deviceMemCache, p, p⟩
  apart : st.supply.Pairwise fun p q =>
    SlabInfo.Apart t ⟨st.deviceMemCache, p, p⟩ ⟨st.deviceMemCache, q, q⟩

/-- The later state knows these devices and timers besides. Each device lies in an object of its
own, and the last one is the first of the table. -/
structure Found (st : State) (devices : List DeviceTableElement) (timers : List Nat) (st' : State) :
    Prop where
  rsdpDesc : st'.rsdpDesc = st.rsdpDesc
  xsdt : st'.xsdt = st.xsdt
  cache : st'.deviceMemCache = st.deviceMemCache
  hpets : st'.hpets = st.hpets ++ timers
  placed : ∃ new : List (Nat × DeviceTableElement), new.map Prod.snd = devices.reverse ∧
    st'.deviceTable = new ++ st.deviceTable ∧
    st'.objects.live = new.map (fun e => (st.deviceMemCache, e.1)) ++ st.objects.live

theorem Found.refl (st : State) : Found st [] [] st := ⟨rfl, rfl, rfl, by simp, [], by simp⟩

theorem Found.trans {st st₁ st₂ : State} {ds es : List DeviceTableElement} {us vs : List Nat}
    (h : Found st ds us st₁) (h' : Found st₁ es vs st₂) : Found st (ds ++ es) (us ++ vs) st₂ := by
  obtain ⟨new, hdevices, htable, hlive⟩ := h.placed
  obtain ⟨new', hdevices', htable', hlive'⟩ := h'.placed
  refine ⟨h'.rsdpDesc.trans h.rsdpDesc, h'.xsdt.trans h.xsdt, h'.cache.trans h.cache, ?_, new' ++ new, ?_, ?_, ?_⟩
  · rw [h'.hpets, h.hpets, List.append_assoc]
  · rw [List.map_append, hdevices, hdevices', List.reverse_append]
  · rw [htable', htable, List.append_assoc]
  · rw [hlive', hlive, h.cache, List.map_append, List.append_assoc]

section caches
variable {t : CacheTable} {st : State}

theorem DeviceCache.inner {c : Nat} (h : DeviceCache t c) :
    (t.caches c).inBlock = true ∧ 2 ≤ (t.caches c).objsPerSlab := by
  obtain ⟨old, heq⟩ := h
  obtain ⟨n, hsmall, -⟩ := initializeCache_counted old (show 0 < deviceTableElementSize by decide)
    (show deviceTableElementSize ≤ pageSize <<< 1 / 8 by decide)
  rw [heq]
  refine ⟨?_, initializeCache_roomy old (by decide) (by decide)⟩
  rw [hsmall]
  exact inBlock_of_one rfl

/-- A device is allocated from a slab or from the next block. -/
theorem Ready.alloc {n : Nat} (h : Ready t (n + 1) st) : ∃ device st', allocDevice st = some (device, st') ∧
    Ready t n st' ∧ ∃ caches supply, st' =
      { st with objects := ⟨caches, (st.deviceMemCache, device) :: st.objects.live⟩, supply := supply } := by
  obtain ⟨hcache, ⟨sh, hinv⟩, hroom, hfresh, hapart⟩ := h
  obtain ⟨hin, hcap⟩ := hcache.inner
  obtain ⟨p, rest, hsupply⟩ : ∃ p rest, st.supply = p :: rest :=
    List.exists_cons_of_length_pos (by omega)
  rw [hsupply] at hfresh hapart hroom
  obtain ⟨obj, caches, supply', sh', hcall, hmade, hinv'⟩ :=
    hinv.alloc_inner 1 rest hin hcap (hfresh p List.mem_cons_self)
  have hheld : held t caches.made = held t st.objects.state.made := by
    rcases hmade with ⟨hmade, -⟩ | ⟨-, -, hmade, -⟩
    · rw [hmade]
    · simp [hmade, held, hin]
  refine ⟨obj, { st with objects := ⟨caches, (st.deviceMemCache, obj) :: st.objects.live⟩, supply := supply' },
    ?_, ⟨hcache, ⟨sh', ?_⟩, ?_, ?_, ?_⟩, caches, supply', rfl⟩
  · rw [allocDevice, hsupply, show allocFuel = 1 + 1 from rfl, hcall]
    rfl
  · simpa only [Sys.objects, hheld, List.cons_append] using hinv'
  · rcases hmade with ⟨-, rfl⟩ | ⟨-, -, -, rfl⟩
    · exact Nat.le_of_succ_le hroom
    · exact Nat.le_of_succ_le_succ hroom
  · rcases hmade with ⟨hmade, rfl⟩ | ⟨-, -, hmade, rfl⟩
    · intro q hq
      dsimp only at hq ⊢
      rw [hmade]
      exact hfresh q hq
    · intro q hq
      dsimp only at hq ⊢
      obtain ⟨hmapped, hclear⟩ := hfresh q (List.mem_cons_of_mem p hq)
      refine ⟨hmapped, ?_⟩
      rw [hmade, List.forall_mem_cons]
      exact ⟨((List.pairwise_cons.mp hapart).1 q hq).symm, hclear⟩
  · rcases hmade with ⟨-, rfl⟩ | ⟨-, -, -, rfl⟩
    · exact hapart
    · exact (List.pairwise_cons.mp hapart).2

end caches

section proofs
variable {mem : Nat → UInt8} {a : Nat} {st : State} {t : CacheTable}

/-- The number that the bytes of a string make. -/
def mark : List UInt8 → Nat
  | [] => 0
  | b :: bs => b.toNat + 256 * mark bs

theorem memcmp_eq_zero_iff (bs : List UInt8) : memcmp mem a bs = 0 ↔ readLe mem a bs.length = mark bs := by
  induction bs generalizing a with
  | nil => exact iff_of_true rfl rfl
  | cons b bs ih =>
      have hb := b.toNat_lt
      have hmem := (mem a).toNat_lt
      rw [memcmp, List.length_cons, readLe, mark]
      split_ifs with hsum
      · constructor
        · intro h
          exact absurd h hsum
        · intro h
          omega
      · rw [ih]
        omega

theorem acpiMatch_iff {h : SdtHeader} (hheld : Holds mem a h.fields) {bs : List UInt8} {m : UInt32}
    (hlen : bs.length = 4) (hm : mark bs = m.toNat) : acpiMatch mem a bs = true ↔ h.signature = m := by
  have hread : readLe mem a 4 = h.signature.toNat := by
    have hfield := hheld.read 0 (n := 4) (o := 0) rfl rfl
    rw [Nat.add_zero] at hfield
    exact hfield.trans (Nat.mod_eq_of_lt h.signature.toNat_lt)
  rw [acpiMatch, decide_eq_true_iff, memcmp_eq_zero_iff, hlen, hread, hm, UInt32.toNat_inj]

theorem headerLength_of_holds {h : SdtHeader} (hheld : Holds mem a h.fields) : headerLength mem a = h.length.toNat :=
  (hheld.read 1 rfl rfl).trans (Nat.mod_eq_of_lt h.length.toNat_lt)

theorem width_header (h : SdtHeader) : width h.fields = 8 * 36 := by
  simp [width, SdtHeader.fields]

theorem Table.header_holds {t : Table} (h : Holds mem a t.fields) : Holds mem a t.header.fields := by
  cases t with
  | mcfg header reserved entries => exact ((Holds.append_iff (width_header header)).mp h).1
  | hpet header id space address => exact ((Holds.append_iff (width_header header)).mp h).1
  | other header => exact h

theorem mcfgDevice_of_holds {e : McfgEntry} (h : Holds mem a e.fields) : mcfgDevice mem a = e.device := by
  have hbase : readLe mem (a + 0) 8 = e.baseAddress.toNat :=
    (h.read 0 rfl rfl).trans (Nat.mod_eq_of_lt e.baseAddress.toNat_lt)
  have hsegment : readLe mem (a + 8) 2 = e.pciSegmentGroup.toNat :=
    (h.read 1 rfl rfl).trans (Nat.mod_eq_of_lt e.pciSegmentGroup.toNat_lt)
  have hstart : readLe mem (a + 10) 1 = e.startPciBusNumber.toNat :=
    (h.read 2 rfl rfl).trans (Nat.mod_eq_of_lt e.startPciBusNumber.toNat_lt)
  have hend : readLe mem (a + 11) 1 = e.endPciBusNumber.toNat :=
    (h.read 3 rfl rfl).trans (Nat.mod_eq_of_lt e.endPciBusNumber.toNat_lt)
  rw [Nat.add_zero] at hbase
  rw [mcfgDevice, hbase, hsegment, hstart, hend]
  rfl

/-- The loop of `parse_mcfg` adds a device for each entry, the last one in front. -/
theorem mcfgLoop_found {k : Nat} (entries : List McfgEntry)
    (h : Holds mem a (entries.flatMap McfgEntry.fields)) (hready : Ready t (entries.length + k) st)
    (currIndex : Nat) :
    ∃ st', mcfgLoop mem (currIndex + 16 * entries.length) currIndex a st = some st' ∧
      Found st (entries.map McfgEntry.device) [] st' ∧ Ready t k st' := by
  induction entries generalizing a st currIndex with
  | nil =>
      rw [mcfgLoop, if_neg (by simp)]
      exact ⟨st, rfl, .refl st, by simpa using hready⟩
  | cons e entries ih =>
      have hwidth : width e.fields = 8 * 16 := by simp [width, McfgEntry.fields]
      rw [List.flatMap_cons] at h
      obtain ⟨hfirst, hrest⟩ := (Holds.append_iff hwidth).mp h
      have hlen : currIndex + 16 * (e :: entries).length = currIndex + 16 + 16 * entries.length := by
        rw [List.length_cons]
        omega
      rw [List.length_cons, Nat.add_right_comm] at hready
      obtain ⟨device, st₁, halloc, hready₁, caches, supply, rfl⟩ := hready.alloc
      -- linking the device changes nothing that the caches know
      have hready₂ : Ready t (entries.length + k) (addDeviceToTable
          { st with objects := ⟨caches, (st.deviceMemCache, device) :: st.objects.live⟩, supply := supply }
          (device, e.device)) := { hready₁ with }
      have hadded : Found st [e.device] [] (addDeviceToTable
          { st with objects := ⟨caches, (st.deviceMemCache, device) :: st.objects.live⟩, supply := supply }
          (device, e.device)) := ⟨rfl, rfl, rfl, by simp [addDeviceToTable], [(device, e.device)], rfl, rfl, rfl⟩
      obtain ⟨st', hloop, hfound, hready'⟩ := ih hrest hready₂ (currIndex + 16)
      refine ⟨st', ?_, hadded.trans hfound, hready'⟩
      rw [mcfgLoop, if_pos (by rw [List.length_cons]; omega), halloc, Option.bind_some, hlen]
      dsimp only
      rw [mcfgDevice_of_holds hfirst]
      exact hloop

theorem parseMcfg_found {header : SdtHeader} {reserved : UInt64} {entries : List McfgEntry} {k : Nat}
    (h : Holds mem a (Table.mcfg header reserved entries).fields)
    (hlength : header.length.toNat = 44 + 16 * entries.length) (hready : Ready t (entries.length + k) st) :
    ∃ st', parseMcfg mem a st = some st' ∧ Found st (entries.map McfgEntry.device) [] st' ∧ Ready t k st' := by
  obtain ⟨hheader, hrest⟩ := (Holds.append_iff (width_header header)).mp h
  obtain ⟨-, hentries⟩ := (Holds.append_iff (show width [(64, reserved.toNat)] = 8 * 8 from rfl)).mp hrest
  have hwhole : (header.length.toNat + 2 ^ 64 - acpiMcfgSize) % 2 ^ 64 % acpiMcfgEntrySize = 0 := by
    have := header.length.toNat_lt
    simp only [acpiMcfgSize, acpiMcfgEntrySize]
    omega
  rw [parseMcfg, headerLength_of_holds hheader]
  rw [if_neg (not_not_intro hwhole), hlength, acpiMcfgSize]
  exact mcfgLoop_found entries hentries hready 44

/-- A table that is no whole number of entries adds nothing. -/
theorem parseMcfg_other {header : SdtHeader} (h : Holds mem a header.fields)
    (hlength : (header.length.toNat + 4) % 16 ≠ 0 ∨ header.length.toNat < 44) : parseMcfg mem a st = some st := by
  have hmod : (header.length.toNat + 2 ^ 64 - acpiMcfgSize) % 2 ^ 64 % acpiMcfgEntrySize =
      (header.length.toNat + 4) % 16 := by
    have := header.length.toNat_lt
    simp only [acpiMcfgSize, acpiMcfgEntrySize]
    omega
  rw [parseMcfg, headerLength_of_holds h]
  rw [hmod]
  split_ifs with hpart
  · rfl
  · have hshort : ¬ acpiMcfgSize < header.length.toNat := by
      rw [acpiMcfgSize]
      omega
    rw [mcfgLoop, if_neg hshort]

theorem parseHpet_found {header : SdtHeader} {id space : UInt32} {address : UInt64}
    (h : Holds mem a (Table.hpet header id space address).fields) (hlength : header.length.toNat = 56) :
    parseHpet mem a st = { st with hpets := st.hpets ++ [pa2va address.toNat] } := by
  obtain ⟨hheader, hrest⟩ := (Holds.append_iff (width_header header)).mp h
  have haddress : readLe mem (a + 36 + 8) 8 = address.toNat :=
    (hrest.read 2 rfl rfl).trans (Nat.mod_eq_of_lt address.toNat_lt)
  rw [Nat.add_assoc] at haddress
  rw [parseHpet, headerLength_of_holds hheader, hlength, if_neg (show ¬ 56 ≠ acpiHpetSize from not_not_intro rfl),
    haddress]

theorem parseTable_found {table : Table} {p i k : Nat}
    (hp : readLe mem (st.xsdt + sdtHeaderSize + 8 * i) 8 = p) (htable : Holds mem (pa2va p) table.fields)
    (hproper : table.Proper) (hready : Ready t (table.devices.length + k) st) :
    ∃ st', parseTable mem st i = some st' ∧ Found st table.devices table.hpets st' ∧ Ready t k st' := by
  have hheader := Table.header_holds htable
  have hmcfg : acpiMatch mem (pa2va p) mcfgSignature = true ↔ table.header.signature = mcfgMark :=
    acpiMatch_iff hheader rfl rfl
  have hhpet : acpiMatch mem (pa2va p) hpetSignature = true ↔ table.header.signature = hpetMark :=
    acpiMatch_iff hheader rfl rfl
  have hapart : mcfgMark ≠ hpetMark := by decide
  simp only [parseTable, hp, Option.bind_eq_bind]
  cases table with
  | mcfg header reserved entries =>
      obtain ⟨hsig, hlength⟩ := hproper
      have hno : acpiMatch mem (pa2va p) hpetSignature = false := by
        rw [Bool.eq_false_iff, Ne, hhpet]
        exact fun h => hapart (hsig.symm.trans h)
      rw [Table.devices, List.length_map] at hready
      obtain ⟨st', hparse, hfound⟩ := parseMcfg_found htable hlength hready
      rw [hmcfg.mpr hsig, hno, if_pos rfl, hparse, Option.bind_some, if_neg Bool.false_ne_true]
      exact ⟨st', rfl, hfound⟩
  | hpet header id space address =>
      obtain ⟨hsig, hlength⟩ := hproper
      have hno : acpiMatch mem (pa2va p) mcfgSignature = false := by
        rw [Bool.eq_false_iff, Ne, hmcfg]
        exact fun h => hapart (h.symm.trans hsig)
      rw [hhpet.mpr hsig, hno, if_neg Bool.false_ne_true, Option.bind_some, if_pos rfl,
        parseHpet_found htable hlength]
      have hready : Ready t k st := by simpa [Table.devices] using hready
      exact ⟨_, rfl, ⟨rfl, rfl, rfl, rfl, [], rfl, rfl, rfl⟩, { hready with }⟩
  | other header =>
      have hsame : ∀ st' : State,
          (if acpiMatch mem (pa2va p) hpetSignature then parseHpet mem (pa2va p) st' else st') = st' := by
        intro st'
        split_ifs with hm
        · have hlength : header.length.toNat ≠ acpiHpetSize := hproper.2 (hhpet.mp hm)
          rw [parseHpet, headerLength_of_holds htable, if_pos hlength]
        · rfl
      have hready : Ready t k st := by simpa [Table.devices] using hready
      refine ⟨st, ?_, .refl st, hready⟩
      simp only [hsame]
      split_ifs with hm
      · rw [parseMcfg_other htable (hproper.1 (hmcfg.mp hm)), Option.bind_some]
      · rw [Option.bind_some]

theorem Xsdt.pointer (x : Xsdt) (h : Holds mem a x.fields) {i : Nat} (hi : i < x.pointers.length) :
    readLe mem (a + sdtHeaderSize + 8 * i) 8 = x.pointers[i].toNat := by
  obtain ⟨-, hpointers⟩ := (Holds.append_iff (width_header x.header)).mp h
  have hwidth : width ((x.pointers.map fun p => (64, p.toNat)).take i) = 8 * (8 * i) := by
    rw [← List.map_take, width, List.map_map]
    simp [Function.comp_def, Nat.min_eq_left hi.le]
    ring
  refine (hpointers.read i ?_ hwidth).trans (Nat.mod_eq_of_lt x.pointers[i].toNat_lt)
  rw [List.getElem?_map, List.getElem?_eq_getElem hi]
  rfl

theorem parseXsdt_found (x : Xsdt) (h : Holds mem st.xsdt x.fields) {tables : List Table}
    (htables : List.Forall₂ (fun (p : UInt64) (t : Table) => Holds mem (pa2va p.toNat) t.fields ∧ t.Proper)
      x.pointers tables) (hready : Ready t (tables.flatMap Table.devices).length st) :
    ∃ st', parseXsdt mem st = some st' ∧
      Found st (tables.flatMap Table.devices) (tables.flatMap Table.hpets) st' ∧ Ready t 0 st' := by
  have hlen := htables.length_eq
  have hheader := ((Holds.append_iff (width_header x.header)).mp h).1
  have hcount : (headerLength mem st.xsdt + 2 ^ 64 - sdtHeaderSize) % 2 ^ 64 / 8 % 2 ^ 32 = x.pointers.length := by
    have hlt := x.header.length.toNat_lt
    have heq := x.length_eq
    rw [headerLength_of_holds hheader, sdtHeaderSize]
    omega
  have hrun : ∀ k ≤ tables.length, ∃ st', (List.range k).foldlM (parseTable mem) st = some st' ∧
      Found st ((tables.take k).flatMap Table.devices) ((tables.take k).flatMap Table.hpets) st' ∧
        Ready t ((tables.drop k).flatMap Table.devices).length st' := by
    intro k hk
    induction k with
    | zero => exact ⟨st, rfl, .refl st, hready⟩
    | succ k ih =>
        obtain ⟨st₁, hfold, hfound, hready₁⟩ := ih (Nat.le_of_succ_le hk)
        obtain ⟨hheld, hproper⟩ := (List.forall₂_iff_get.mp htables).2 k (hlen ▸ hk) hk
        have hpointer : readLe mem (st₁.xsdt + sdtHeaderSize + 8 * k) 8 = x.pointers[k].toNat := by
          rw [hfound.xsdt]
          exact x.pointer h (hlen ▸ hk)
        have hrest : tables.drop k = tables[k] :: tables.drop (k + 1) := List.drop_eq_getElem_cons hk
        rw [hrest, List.flatMap_cons, List.length_append] at hready₁
        obtain ⟨st₂, hparse, hfound₂, hready₂⟩ := parseTable_found hpointer hheld hproper hready₁
        refine ⟨st₂, ?_, ?_, hready₂⟩
        · rw [List.range_succ, List.foldlM_append, hfold]
          simp only [Option.bind_eq_bind, Option.bind_some, List.foldlM_cons, List.foldlM_nil, hparse,
            Option.pure_def]
        · rw [List.take_succ_eq_append_getElem hk, List.flatMap_append, List.flatMap_append]
          simpa using hfound.trans hfound₂
  obtain ⟨st', hfold, hfound, hready'⟩ := hrun _ le_rfl
  rw [List.take_length] at hfound
  rw [List.drop_length] at hready'
  refine ⟨st', ?_, hfound, hready'⟩
  rw [parseXsdt, hcount]
  rw [hlen]
  exact hfold

theorem findRspdFrom_eq {ptr k : Nat} (hk : ptr + 16 * k < 0xFFFF800000100000)
    (hfirst : ∀ j < k, memcmp mem (ptr + 16 * j) rsdpSignature ≠ 0)
    (hfound : memcmp mem (ptr + 16 * k) rsdpSignature = 0) : findRspdFrom mem ptr = some (ptr + 16 * k) := by
  induction k generalizing ptr with
  | zero =>
      rw [Nat.mul_zero, Nat.add_zero] at hfound hk ⊢
      rw [findRspdFrom, if_pos hk, if_neg (not_not_intro hfound)]
  | succ k ih =>
      have hnext := @ih (ptr + 16) (by omega) (fun j hj => by
        rw [show ptr + 16 + 16 * j = ptr + 16 * (j + 1) by ring]
        exact hfirst (j + 1) (by omega)) (by
        rw [show ptr + 16 + 16 * k = ptr + 16 * (k + 1) by ring]
        exact hfound)
      have hhere : memcmp mem ptr rsdpSignature ≠ 0 := hfirst 0 (Nat.zero_lt_succ k)
      rw [findRspdFrom, if_pos (by omega), if_pos hhere, hnext]
      exact congrArg some (by ring)

/-- The descriptor is the one the boot loader names, or else the first of the places in the low mebibyte that has
the signature. -/
def Located (mem : Nat → UInt8) (st : State) (desc : Nat) : Prop :=
  st.rsdpDesc = some desc ∨ st.rsdpDesc = none ∧ ∃ k, desc = 0xFFFF800000000000 + 16 * k ∧ k < 65536 ∧
    ∀ j < k, readLe mem (0xFFFF800000000000 + 16 * j) 8 ≠ rsdpMark.toNat

theorem located_desc {desc : Nat} {d : RspdDescriptor2} (hloc : Located mem st desc) (hd : Holds mem desc d.fields) :
    (st.rsdpDesc <|> findRspd mem) = some desc := by
  have hmark : mark rsdpSignature = rsdpMark.toNat := rfl
  rcases hloc with hsome | ⟨hnone, k, rfl, hk, hfirst⟩
  · rw [hsome]
    rfl
  · have hfound : readLe mem (0xFFFF800000000000 + 16 * k + 0) 8 = rsdpMark.toNat :=
      (hd.read 0 rfl rfl).trans (Nat.mod_eq_of_lt rsdpMark.toNat_lt)
    rw [hnone]
    refine findRspdFrom_eq (by omega) (fun j hj => ?_) ?_
    · rw [Ne, memcmp_eq_zero_iff, hmark]
      exact hfirst j hj
    · rw [memcmp_eq_zero_iff, hmark]
      exact hfound

end proofs

/-- One bus range of one segment. -/
def oneMcfg : Table :=
  .mcfg ⟨mcfgMark, 60, 1, 0, 0, 0, 0, 0, 0⟩ 0 [⟨0xb0000000, 0, 0, 255, 0⟩]

def oneXsdt : Xsdt := ⟨⟨0, 44, 1, 0, 0, 0, 0, 0, 0⟩, [0x2000], rfl⟩

def oneRsdp : RspdDescriptor2 := ⟨0, 0, 2, 0, 36, 0x1000, 0, 0⟩

def oneImage : Nat → UInt8 :=
  image [(pa2va 0x2000, oneMcfg.fields), (pa2va 0x1000, oneXsdt.fields), (identityBase, oneRsdp.fields)]

/-- The device cache besides the `kmalloc` caches. -/
def deviceCaches (c : Nat) : ObjMemCache :=
  if c = 12 then initializeCache ⟨0, 0, 0, 0⟩ deviceTableElementSize 1 else kmallocTable.caches c

theorem deviceCaches_twelve : deviceCaches 12 = initializeCache ⟨0, 0, 0, 0⟩ deviceTableElementSize 1 := if_pos rfl

theorem deviceCaches_built (c : Nat) :
    ∃ old size order, 0 < size ∧ order ≤ 10 ∧ deviceCaches c = initializeCache old size order := by
  unfold deviceCaches
  split_ifs
  · exact ⟨_, _, _, by decide, by decide, rfl⟩
  · exact kmallocTable.built c

theorem deviceCaches_malloc (i : Nat) (e : Nat × Nat) (he : mallocSizes[i]? = some e) :
    ∃ old, deviceCaches i = initializeCache old e.1 e.2 := by
  have hi : i < mallocSizes.length := (List.getElem?_eq_some_iff.mp he).1
  have hne : i ≠ 12 := by
    have : mallocSizes.length = 11 := rfl
    omega
  rw [deviceCaches, if_neg hne]
  exact kmallocTable.malloc i e he

def deviceCacheTable : CacheTable := ⟨deviceCaches, id, deviceCaches_built, deviceCaches_malloc⟩

/-- No caches have slabs, and there is one block. -/
def bootState : State := ⟨none, 0, [], [], 12, ⟨emptyCaches deviceCacheTable, []⟩, [blockAt 0]⟩

theorem bootState_ready : Ready deviceCacheTable 1 bootState where
  cache := ⟨⟨0, 0, 0, 0⟩, deviceCaches_twelve⟩
  kept := by
    refine ⟨fun _ => [], ?_⟩
    simpa [Sys.objects, bootState, held, (emptyCaches_booted deviceCacheTable).made_eq] using
      (emptyCaches_booted deviceCacheTable).inv
  room := Nat.le_refl 1
  fresh := by
    intro p hp
    rw [List.mem_singleton.mp hp]
    have hstop : SlabInfo.stop deviceCacheTable ⟨12, blockAt 0, blockAt 0⟩ = identityBase + 8192 := by
      decide +kernel
    refine ⟨⟨by decide, Nat.le_refl _, ?_⟩, fun info hi => absurd hi List.not_mem_nil⟩
    exact hstop.trans_le (Nat.add_le_add_left (by norm_num) _)
  apart := List.pairwise_singleton _ _

end Lucix.AcpiTables
