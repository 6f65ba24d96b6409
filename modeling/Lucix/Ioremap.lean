import Lucix.KernelHalf
import Lucix.MapView

/-! What `ioremap` maps over any number of calls. Zones are placed one behind the other
in bytes, while pages are mapped from the start of a page of either address; a byte is
mapped to its own physical address when both lie at the same place of a page. -/
namespace Lucix.Vm
open PageTable RadixTable Execution

/-- The pointer that a call returned, and what it was asked for. -/
structure Remapped where
  vaddr : Nat
  physAddr : Nat
  size : Nat
  deriving DecidableEq, Repr

structure IoremapCall where
  physAddr : Nat
  size : Nat
  flags : Nat
  memory : Bool

/-- The kernel's tables and zones, and the calls that have returned. -/
structure Remaps where
  tables : Tables
  zones : List VmZone
  mapped : List Remapped

/-- A call of `ioremap`; it returns the address of its zone. -/
def Remaps.step (pages : Nat → Nat) (kernelPgtable : Nat) (s : Remaps) (c : IoremapCall) : Option Remaps :=
  (ioremapZone s.zones c.physAddr c.size c.flags c.memory).bind fun (zone, _) =>
    (ioremap pages s.tables kernelPgtable s.zones c.physAddr c.size c.flags c.memory).map
      fun (tables, zones) => ⟨tables, zones, s.mapped ++ [⟨zone.startAddr, c.physAddr, c.size⟩]⟩

/-- The physical address of an address in the window, where pages are small. -/
def translate (s : Tables) (pgtable vaddr : Nat) : Option Nat :=
  if cpuMmGetPhysAddress s pgtable vaddr = 0xfff then none
  else some (cpuMmGetPhysAddress s pgtable vaddr + vaddr % pageSize)

/-- Every byte of every mapping is translated to its physical address. -/
def Remaps.AllMapped (kernelPgtable : Nat) (s : Remaps) : Prop :=
  ∀ r ∈ s.mapped, ∀ i < r.size, translate s.tables kernelPgtable (r.vaddr + i) = some (r.physAddr + i)

/-- The end of zones that lie one behind the other. -/
def zonesEnd (zones : List VmZone) : Nat := vmapZoneStart + (zones.map VmZone.size).sum

/-- A call with arguments as the types and the memory allow them. -/
structure Remaps.Fair (pages : Nat → Nat) (limit kernelPgtable : Nat) (s : Remaps) (c : IoremapCall) :
    Prop where
  phys : c.physAddr < 2 ^ 48
  some : 0 < c.size
  word : c.size < 2 ^ 64
  room : ∀ s' ∈ s.step pages kernelPgtable c, s'.tables.next ≤ limit

/-- A zone is available, its address and the physical address lie at the same place of a page, and
neither the physical address nor the top-level entries run out. -/
structure Remaps.Fits (s : Remaps) (c : IoremapCall) : Prop where
  memory : c.memory = true
  space : zonesEnd s.zones + c.size + pageSize ≤ vmapZoneStart + vmapZoneSize
  aligned : zonesEnd s.zones % pageSize = c.physAddr % pageSize
  physical : c.physAddr + c.size ≤ 2 ^ 48
  slots : pml4FromVa (zonesEnd s.zones + c.size - 1) ≤
    pml4FromVa (zonesEnd s.zones) + pml4FromVa (c.size + pageSize)

/-! ### Zones one behind the other -/

def Packed : Nat → List VmZone → Prop
  | _, [] => True
  | addr, zone :: rest => zone.startAddr = addr ∧ Packed (addr + zone.size) rest

theorem Packed.concat {addr : Nat} {zones : List VmZone} (h : Packed addr zones) {zone : VmZone}
    (hstart : zone.startAddr = addr + (zones.map VmZone.size).sum) : Packed addr (zones ++ [zone]) := by
  induction zones generalizing addr with
  | nil => exact ⟨hstart, trivial⟩
  | cons tmp rest ih =>
      refine ⟨h.1, ih h.2 ?_⟩
      rw [hstart, List.map_cons, List.sum_cons]
      omega

theorem zoneSlot_packed {size : Nat} (hpos : 0 < size) (hsize : size ≤ vmapZoneSize) {zones : List VmZone}
    {addr : Nat} (h : Packed addr zones) (hlow : vmapZoneStart ≤ addr)
    (hend : addr + (zones.map VmZone.size).sum ≤ vmapZoneStart + vmapZoneSize)
    (hfirst : addr + size ≤ vmapZoneStart + vmapZoneSize) :
    zoneSlot size addr zones =
      if addr + (zones.map VmZone.size).sum + size ≤ vmapZoneStart + vmapZoneSize then
        some (zones.length, addr + (zones.map VmZone.size).sum)
      else none := by
  have hsub : sub64 (vmapZoneStart + vmapZoneSize) size = vmapZoneStart + vmapZoneSize - size :=
    sub64_of_le (by unfold vmapZoneStart vmapZoneSize at *; omega) (by decide)
  induction zones generalizing addr with
  | nil => rw [if_pos (by simpa using hfirst)]; rfl
  | cons tmp rest ih =>
      obtain ⟨hstart, hrest⟩ := h
      rw [List.map_cons, List.sum_cons] at hend ⊢
      have hwrap : wrap64 (tmp.size + tmp.startAddr) = addr + tmp.size := by
        rw [wrap64_of_lt (by unfold vmapZoneStart vmapZoneSize at *; omega), hstart, Nat.add_comm]
      have hfit : wrap64 (size + addr) = size + addr :=
        wrap64_of_lt (by unfold vmapZoneStart vmapZoneSize at *; omega)
      unfold zoneSlot
      dsimp only
      rw [hwrap, hfit, hsub, if_neg (by omega), if_neg (by omega), if_neg (by omega)]
      by_cases hout : addr + tmp.size > vmapZoneStart + vmapZoneSize - size
      · rw [if_pos hout, if_neg (by omega)]
      · rw [if_neg hout, ih hrest (by omega) (by omega) (by omega), Nat.add_assoc addr]
        split_ifs <;> rfl

/-- The zone that a call gets. -/
def IoremapCall.zone (c : IoremapCall) (zones : List VmZone) : VmZone :=
  ⟨zonesEnd zones, c.size + pageSize, c.flags, c.physAddr⟩

theorem modify_length_concat (zones : List VmZone) (zone : VmZone) (f : VmZone → VmZone) :
    (zones ++ [zone]).modify zones.length f = zones ++ [f zone] := by
  induction zones with
  | nil => rfl
  | cons tmp rest ih => rw [List.cons_append, List.length_cons, List.modify_succ_cons, ih, List.cons_append]

theorem ioremapZone_packed {zones : List VmZone} (h : Packed vmapZoneStart zones)
    (hend : zonesEnd zones ≤ vmapZoneStart + vmapZoneSize) {c : IoremapCall}
    (hword : c.size + pageSize < 2 ^ 64) :
    ioremapZone zones c.physAddr c.size c.flags c.memory =
      if c.memory = true ∧ zonesEnd zones + c.size + pageSize ≤ vmapZoneStart + vmapZoneSize then
        some (c.zone zones, zones ++ [c.zone zones])
      else none := by
  have hpage : 0 < pageSize := by decide
  unfold zonesEnd at hend
  unfold ioremapZone getVmZone
  rw [wrap64_of_lt hword]
  cases hmemory : c.memory with
  | false => rfl
  | true =>
      simp only [Bool.true_eq_false, if_false, true_and]
      by_cases hlarge : c.size + pageSize > vmapZoneSize
      · rw [if_pos hlarge, if_neg (by unfold zonesEnd; omega)]
        rfl
      · have hslot := zoneSlot_packed (by omega) (Nat.le_of_not_lt hlarge) h (Nat.le_refl _) hend (by omega)
        rw [if_neg hlarge, hslot, zonesEnd, Nat.add_assoc (vmapZoneStart + _)]
        split_ifs
        · simp only [Option.map_some, Option.bind_some]
          have hinsert := insertIdx_length_append zones []
            ⟨vmapZoneStart + (zones.map VmZone.size).sum, c.size + pageSize, c.flags, 0⟩
          rw [List.append_nil] at hinsert
          rw [hinsert, modify_length_concat]
          simp [IoremapCall.zone, zonesEnd]
        · rfl

/-! ### Translations in the window -/

theorem getPhys_cases (s : Tables) (pgtable vaddr : Nat) :
    cpuMmGetPhysAddress s pgtable vaddr = 0xfff ∨
      ∃ entry, cpuMmGetPhysAddress s pgtable vaddr = pageFrame entry := by
  unfold cpuMmGetPhysAddress
  dsimp only
  split_ifs <;> first | exact .inl rfl | exact .inr ⟨_, rfl⟩

theorem translate_lt {s : Tables} {pgtable vaddr phys : Nat} (h : translate s pgtable vaddr = some phys) :
    phys < 2 ^ 48 := by
  unfold translate at h
  split_ifs at h with hnone
  obtain rfl := Option.some.inj h
  obtain ⟨entry, hframe⟩ := (getPhys_cases s pgtable vaddr).resolve_left hnone
  rw [hframe, pageFrame_eq, pageSize]
  omega

theorem shared_region (kernelPgtable : Nat) :
    Region (sharedShape kernelPgtable) (kernelPgtable, []) (259 ≤ ·) := by
  have hat : ∀ i j k, 259 ≤ i →
      (sharedShape kernelPgtable).at (kernelPgtable, []) [i, j, k] = (kernelPgtable, [i, j, k]) := by
    intro i j k hi
    simp only [Shape.at, List.foldl, shared_below_top (show 256 ≤ i by omega), shared_below]
    rfl
  constructor
  · intro i j k hi
    constructor
    · simp only [Shape.Inner, shared_below_top (show 256 ≤ i by omega), shared_below]
      simp [sharedShape, hi]
    · intro l
      rw [hat i j k hi]
      simp [sharedShape]
  · intro i j k i' j' k' hi hi' hsame
    rw [hat i j k hi, hat i' j' k' hi'] at hsame
    exact (Prod.mk.inj hsame).2

theorem pml4FromVa_eq_pageIndex (vaddr : Nat) : pml4FromVa vaddr = pageIndex vaddr / 2 ^ 27 := by
  rw [pml4FromVa_eq, pageIndex]
  omega

theorem pageIndex_window {vaddr : Nat} (hlow : vmapZoneStart ≤ vaddr)
    (hhigh : vaddr ≤ vmapZoneStart + vmapZoneSize + pageSize) :
    pageIndex vaddr + 0xffff000000000 = vaddr / 0x1000 := by
  unfold vmapZoneStart vmapZoneSize pageSize at *
  rw [pageIndex]
  omega

theorem translate_eq {s : Tables} {kernelPgtable vaddr : Nat} {pos : Nat → Option Pos}
    (h : Labelled entryFormat (sharedShape kernelPgtable) s.mem pos)
    (hkernel : pos kernelPgtable = some (kernelPgtable, [])) (hslot : 259 ≤ pml4FromVa vaddr) :
    translate s kernelPgtable vaddr =
      if viewOf s kernelPgtable (pageIndex vaddr) &&& presentFlag = 0 then none
      else some (pageFrame (viewOf s kernelPgtable (pageIndex vaddr)) + vaddr % pageSize) := by
  rw [translate, getPhys_eq h hkernel (shared_full_kernel hslot), leafEntry_eq_viewOf]
  by_cases hpresent : viewOf s kernelPgtable (pageIndex vaddr) &&& presentFlag = 0
  · rw [if_pos hpresent, if_pos rfl, if_pos hpresent]
  · have hframe : pageFrame (viewOf s kernelPgtable (pageIndex vaddr)) ≠ 0xfff := by
      rw [pageFrame_eq]
      omega
    rw [if_neg hpresent, if_neg hframe, if_neg hpresent]

/-! ### One call -/

/-- What is so between calls that map what was asked. -/
structure Remaps.Sound (pages : Nat → Nat) (limit kernelPgtable : Nat) (s : Remaps) : Prop where
  tables : ∃ pos, Owned pages limit (sharedShape kernelPgtable) s.tables pos ∧
    pos kernelPgtable = some (kernelPgtable, [])
  packed : Packed vmapZoneStart s.zones
  bound : zonesEnd s.zones ≤ vmapZoneStart + vmapZoneSize
  behind : ∀ r ∈ s.mapped, vmapZoneStart ≤ r.vaddr ∧ r.vaddr + r.size + pageSize ≤ zonesEnd s.zones
  mapped : s.AllMapped kernelPgtable
  free : ∀ x, pageIndex (zonesEnd s.zones + 0xfff) ≤ x → x < 386 * 2 ^ 27 → viewOf s.tables kernelPgtable x = 0

/-- The state after a call that gets a zone. -/
def Remaps.after (s : Remaps) (c : IoremapCall) (tables : Tables) : Remaps :=
  ⟨tables, s.zones ++ [c.zone s.zones], s.mapped ++ [⟨zonesEnd s.zones, c.physAddr, c.size⟩]⟩

/-- The arguments with which `map_vm_zone` maps the zone of a call. -/
def IoremapCall.args (c : IoremapCall) : MapArgs :=
  ⟨c.physAddr, c.size + pageSize, false, ⟨true, true, false, false, false, 0⟩⟩

/-- The pages that a call maps. -/
def IoremapCall.Covers (c : IoremapCall) (zones : List VmZone) (x : Nat) : Prop :=
  pageIndex (zonesEnd zones) ≤ x ∧ x < pageIndex (zonesEnd zones) + c.args.numPages ∧
    x / 2 ^ 27 ≤ pml4FromVa (zonesEnd zones) + pml4FromVa (c.size + pageSize)

instance (c : IoremapCall) (zones : List VmZone) (x : Nat) : Decidable (c.Covers zones x) :=
  inferInstanceAs (Decidable (_ ∧ _ ∧ _))

theorem zonesEnd_concat (zones : List VmZone) (zone : VmZone) :
    zonesEnd (zones ++ [zone]) = zonesEnd zones + zone.size := by
  rw [zonesEnd, List.map_append, List.sum_append, List.map_singleton, List.sum_singleton, ← Nat.add_assoc]
  rfl

theorem le_zonesEnd (zones : List VmZone) : vmapZoneStart ≤ zonesEnd zones := Nat.le_add_right _ _

section call
variable {pages : Nat → Nat} {limit kernelPgtable : Nat} {s : Remaps} {c : IoremapCall}

theorem Remaps.Sound.step_eq (h : s.Sound pages limit kernelPgtable) (hword : c.size + pageSize < 2 ^ 64) :
    s.step pages kernelPgtable c =
      if c.memory = true ∧ zonesEnd s.zones + c.size + pageSize ≤ vmapZoneStart + vmapZoneSize then
        (Vm.mapVmZone pages s.tables kernelPgtable (c.zone s.zones)).map (s.after c)
      else none := by
  rw [Remaps.step, ioremap, ioremapZone_packed h.packed h.bound hword]
  split_ifs
  · simp only [Option.bind_some, Option.map_map]
    rfl
  · rfl

theorem Remaps.Sound.step_cases (h : s.Sound pages limit kernelPgtable) (hword : c.size + pageSize < 2 ^ 64)
    {s' : Remaps} (hstep : s.step pages kernelPgtable c = some s') :
    c.memory = true ∧ zonesEnd s.zones + c.size + pageSize ≤ vmapZoneStart + vmapZoneSize ∧
      ∃ tables, Vm.mapVmZone pages s.tables kernelPgtable (c.zone s.zones) = some tables ∧
        s' = s.after c tables := by
  rw [h.step_eq hword] at hstep
  split_ifs at hstep with hzone
  obtain ⟨tables, hmap, rfl⟩ := Option.map_eq_some_iff.mp hstep
  exact ⟨hzone.1, hzone.2, tables, hmap, rfl⟩

theorem mapVmZone_isSome {zone : VmZone} (hwindow : zone.InWindow) (tables : Tables) :
    ∃ tables', Vm.mapVmZone pages tables kernelPgtable zone = some tables' := by
  obtain ⟨-, hhigh⟩ := window_slots hwindow
  refine ⟨_, if_pos ?_⟩
  omega

theorem zone_inWindow (hspace : zonesEnd s.zones + c.size + pageSize ≤ vmapZoneStart + vmapZoneSize) :
    (c.zone s.zones).InWindow :=
  ⟨le_zonesEnd _, (Nat.add_assoc _ _ _).symm.trans_le hspace⟩

/-- The tables after the zone of a call has been mapped. -/
def Remaps.Shown (pages : Nat → Nat) (limit kernelPgtable : Nat) (s : Remaps) (c : IoremapCall)
    (tables : Tables) : Prop :=
  ∃ pos, Owned pages limit (sharedShape kernelPgtable) tables pos ∧
    pos kernelPgtable = some (kernelPgtable, []) ∧
    ∀ x, 259 ≤ x / 2 ^ 27 → viewOf tables kernelPgtable x =
      if c.Covers s.zones x then c.args.entry (x - pageIndex (zonesEnd s.zones))
      else viewOf s.tables kernelPgtable x

theorem Remaps.Sound.mapVmZone (hp : Supply pages limit) (h : s.Sound pages limit kernelPgtable)
    (hspace : zonesEnd s.zones + c.size + pageSize ≤ vmapZoneStart + vmapZoneSize) {tables : Tables}
    (hmap : Vm.mapVmZone pages s.tables kernelPgtable (c.zone s.zones) = some tables)
    (hroom : tables.next ≤ limit) : s.Shown pages limit kernelPgtable c tables := by
  obtain ⟨pos, hown, hroot⟩ := h.tables
  have hlow : 384 ≤ pml4FromVa (zonesEnd s.zones) := (window_slots (zone_inWindow hspace)).1
  exact mapContiguous_shows hp (shared_region kernelPgtable) hown hroot
    (fun i hi _ => Nat.le_trans (by omega) hi) hmap hroom

theorem slot_window {vaddr : Nat} (hlow : vmapZoneStart ≤ vaddr)
    (hhigh : vaddr ≤ vmapZoneStart + vmapZoneSize + pageSize) : 259 ≤ pml4FromVa vaddr := by
  have hpage := pageIndex_window hlow hhigh
  rw [pml4FromVa_eq_pageIndex]
  unfold vmapZoneStart at hlow
  omega

variable {tables : Tables} {vaddr : Nat}

theorem Remaps.Shown.translate_covered (h : s.Shown pages limit kernelPgtable c tables)
    (hlow : vmapZoneStart ≤ vaddr) (hhigh : vaddr ≤ vmapZoneStart + vmapZoneSize + pageSize)
    (hcovers : c.Covers s.zones (pageIndex vaddr)) :
    translate tables kernelPgtable vaddr = some (pageFrame (wrap64 (c.physAddr +
      (pageIndex vaddr - pageIndex (zonesEnd s.zones)) * pageSize)) + vaddr % pageSize) := by
  obtain ⟨pos, hown, hroot, hview⟩ := h
  have hslot := slot_window hlow hhigh
  rw [translate_eq hown.labelled hroot hslot, hview _ (pml4FromVa_eq_pageIndex vaddr ▸ hslot),
    if_pos hcovers]
  have hentry : c.args.entry (pageIndex vaddr - pageIndex (zonesEnd s.zones)) =
      pteEntry (c.physAddr + (pageIndex vaddr - pageIndex (zonesEnd s.zones)) * pageSize) c.args.prot := rfl
  rw [hentry, if_neg (pteEntry_present _ _), pteEntry_pageFrame]

theorem Remaps.Shown.translate_other (h : s.Shown pages limit kernelPgtable c tables)
    (hs : s.Sound pages limit kernelPgtable) (hlow : vmapZoneStart ≤ vaddr)
    (hhigh : vaddr ≤ vmapZoneStart + vmapZoneSize + pageSize) (hcovers : ¬ c.Covers s.zones (pageIndex vaddr)) :
    translate tables kernelPgtable vaddr = translate s.tables kernelPgtable vaddr := by
  obtain ⟨pos, hown, hroot, hview⟩ := h
  obtain ⟨pos', hown', hroot'⟩ := hs.tables
  have hslot := slot_window hlow hhigh
  rw [translate_eq hown.labelled hroot hslot, translate_eq hown'.labelled hroot' hslot,
    hview _ (pml4FromVa_eq_pageIndex vaddr ▸ hslot), if_neg hcovers]

theorem numPages_bounds (c : IoremapCall) :
    c.size + pageSize ≤ c.args.numPages * pageSize ∧
      c.args.numPages * pageSize < c.size + pageSize + pageSize := by
  simp only [IoremapCall.args, MapArgs.numPages, MapArgs.pgsize, pageSize, Bool.false_eq_true, if_false]
  split_ifs <;> omega

/-- The bytes that were asked for lie on mapped pages, except behind the last top-level entry. -/
theorem covers_iff (hspace : zonesEnd s.zones + c.size + pageSize ≤ vmapZoneStart + vmapZoneSize)
    {i : Nat} (hi : i < c.size) :
    c.Covers s.zones (pageIndex (zonesEnd s.zones + i)) ↔
      pml4FromVa (zonesEnd s.zones + i) ≤
        pml4FromVa (zonesEnd s.zones) + pml4FromVa (c.size + pageSize) := by
  obtain ⟨hpages, -⟩ := numPages_bounds c
  have hlow := le_zonesEnd s.zones
  have hfirst := pageIndex_window hlow (by omega)
  have hbyte := @pageIndex_window (zonesEnd s.zones + i) (by omega) (by omega)
  rw [IoremapCall.Covers, ← pml4FromVa_eq_pageIndex]
  unfold pageSize at hpages
  omega

/-- A call maps what was asked exactly when both addresses lie at the same place of a page and
the top-level entries suffice. -/
theorem Remaps.Shown.asked_iff (h : s.Shown pages limit kernelPgtable c tables)
    (hs : s.Sound pages limit kernelPgtable)
    (hspace : zonesEnd s.zones + c.size + pageSize ≤ vmapZoneStart + vmapZoneSize) (hsome : 0 < c.size)
    (hphys : c.physAddr + c.size ≤ 2 ^ 48) :
    (∀ i < c.size, translate tables kernelPgtable (zonesEnd s.zones + i) = some (c.physAddr + i)) ↔
      zonesEnd s.zones % pageSize = c.physAddr % pageSize ∧
        pml4FromVa (zonesEnd s.zones + c.size - 1) ≤
          pml4FromVa (zonesEnd s.zones) + pml4FromVa (c.size + pageSize) := by
  have hlow := le_zonesEnd s.zones
  have hpage : ∀ i < c.size, pageIndex (zonesEnd s.zones + i) + 0xffff000000000 =
      (zonesEnd s.zones + i) / 0x1000 := fun i hi => pageIndex_window (by omega) (by omega)
  have hstart := pageIndex_window hlow (by omega)
  have hlastByte : zonesEnd s.zones + c.size - 1 = zonesEnd s.zones + (c.size - 1) := by omega
  constructor
  · intro hall
    constructor
    · -- the first byte
      have hfirst := hall 0 hsome
      rw [h.translate_covered (by omega) (by omega) ((covers_iff hspace hsome).mpr (Nat.le_add_right _ _)),
        Nat.add_zero, Nat.add_zero, Nat.sub_self, Nat.zero_mul, Nat.add_zero, wrap64_of_lt (by omega),
        pageFrame_eq] at hfirst
      have hsum := Option.some.inj hfirst
      unfold pageSize at hsum ⊢
      omega
    · -- the last byte
      have hlast := hall (c.size - 1) (by omega)
      by_contra hover
      rw [hlastByte] at hover
      have hout : ¬ c.Covers s.zones (pageIndex (zonesEnd s.zones + (c.size - 1))) := fun hcovers =>
        hover ((covers_iff hspace (by omega)).mp hcovers)
      obtain ⟨pos, hown, hroot⟩ := hs.tables
      rw [h.translate_other hs (by omega) (by omega) hout,
        translate_eq hown.labelled hroot (slot_window (by omega) (by omega)), hs.free] at hlast
      · simp at hlast
      · have hnext := @pageIndex_window (zonesEnd s.zones + 0xfff) (by omega) (by unfold pageSize; omega)
        have hbyte := hpage (c.size - 1) (by omega)
        rw [pml4FromVa_eq_pageIndex, pml4FromVa_eq_pageIndex] at hover
        omega
      · have hbyte := hpage (c.size - 1) (by omega)
        unfold vmapZoneStart vmapZoneSize at *
        omega
  · rintro ⟨haligned, hslots⟩ i hi
    have hslot : pml4FromVa (zonesEnd s.zones + i) ≤
        pml4FromVa (zonesEnd s.zones) + pml4FromVa (c.size + pageSize) := by
      refine Nat.le_trans ?_ hslots
      have hbyte := hpage i hi
      have hlast := hpage (c.size - 1) (by omega)
      rw [hlastByte, pml4FromVa_eq_pageIndex, pml4FromVa_eq_pageIndex]
      omega
    rw [h.translate_covered (by omega) (by omega) ((covers_iff hspace hi).mpr hslot)]
    have hbyte := hpage i hi
    unfold pageSize at haligned ⊢
    have hframe : c.physAddr + (pageIndex (zonesEnd s.zones + i) - pageIndex (zonesEnd s.zones)) * 0x1000 <
        2 ^ 48 + 0x1000 := by omega
    rw [wrap64_of_lt (by omega), pageFrame_eq]
    congr 1
    omega

theorem Remaps.Sound.earlier (h : s.Sound pages limit kernelPgtable) {r : Remapped} (hr : r ∈ s.mapped)
    {i : Nat} (hi : i < r.size) :
    vmapZoneStart ≤ r.vaddr + i ∧ r.vaddr + i ≤ vmapZoneStart + vmapZoneSize + pageSize ∧
      ¬ c.Covers s.zones (pageIndex (r.vaddr + i)) := by
  obtain ⟨hlow, hhigh⟩ := h.behind r hr
  have hbound := h.bound
  refine ⟨by omega, by omega, ?_⟩
  rintro ⟨hcovers, -⟩
  have hbyte := @pageIndex_window (r.vaddr + i) (by omega) (by omega)
  have hstart := pageIndex_window (le_zonesEnd s.zones) (by omega)
  unfold pageSize at hhigh
  omega

theorem Remaps.Shown.allMapped_iff (h : s.Shown pages limit kernelPgtable c tables)
    (hs : s.Sound pages limit kernelPgtable) :
    (s.after c tables).AllMapped kernelPgtable ↔
      ∀ i < c.size, translate tables kernelPgtable (zonesEnd s.zones + i) = some (c.physAddr + i) := by
  constructor
  · intro hall i hi
    exact hall ⟨zonesEnd s.zones, c.physAddr, c.size⟩ (List.mem_append_right _ (List.mem_singleton_self _)) i hi
  · intro hnew r hr i hi
    rcases List.mem_append.mp hr with hold | hlast
    · obtain ⟨hlow, hhigh, hcovers⟩ := hs.earlier hold hi
      exact (h.translate_other hs hlow hhigh hcovers).trans (hs.mapped r hold i hi)
    · obtain rfl := List.mem_singleton.mp hlast
      exact hnew i hi

theorem Remaps.Shown.sound (h : s.Shown pages limit kernelPgtable c tables)
    (hs : s.Sound pages limit kernelPgtable)
    (hspace : zonesEnd s.zones + c.size + pageSize ≤ vmapZoneStart + vmapZoneSize)
    (hall : (s.after c tables).AllMapped kernelPgtable) :
    (s.after c tables).Sound pages limit kernelPgtable := by
  have hend : zonesEnd (s.after c tables).zones = zonesEnd s.zones + c.size + pageSize :=
    (zonesEnd_concat _ _).trans (Nat.add_assoc _ _ _).symm
  obtain ⟨pos, hown, hroot, hview⟩ := h
  refine ⟨⟨pos, hown, hroot⟩, hs.packed.concat rfl, hend ▸ hspace, ?_, hall, ?_⟩
  · intro r hr
    rw [hend]
    rcases List.mem_append.mp hr with hold | hlast
    · obtain ⟨hlow, hhigh⟩ := hs.behind r hold
      exact ⟨hlow, by omega⟩
    · obtain rfl := List.mem_singleton.mp hlast
      exact ⟨le_zonesEnd s.zones, Nat.le_refl _⟩
  · intro x hlow hhigh
    rw [hend] at hlow
    obtain ⟨-, hpages⟩ := numPages_bounds c
    have hzones := le_zonesEnd s.zones
    have hstart := pageIndex_window hzones (by omega)
    have hbefore := @pageIndex_window (zonesEnd s.zones + 0xfff) (by omega) (by unfold pageSize; omega)
    have hbehind := @pageIndex_window (zonesEnd s.zones + c.size + pageSize + 0xfff) (by omega)
      (by unfold pageSize at *; omega)
    unfold pageSize at hpages hbehind hlow
    have hfirst : 259 * 2 ^ 27 ≤ pageIndex (zonesEnd s.zones) := by
      unfold vmapZoneStart at hzones
      omega
    refine (hview x (by omega)).trans ?_
    rw [if_neg]
    · exact hs.free x (by omega) hhigh
    · rintro ⟨-, hcovers, -⟩
      omega

theorem step_mapped {s' : Remaps} (hstep : s.step pages kernelPgtable c = some s') :
    ∃ vaddr, ⟨vaddr, c.physAddr, c.size⟩ ∈ s'.mapped := by
  obtain ⟨⟨zone, zones⟩, hzone, hrest⟩ := Option.bind_eq_some_iff.mp hstep
  obtain ⟨⟨tables, zones'⟩, htables, rfl⟩ := Option.map_eq_some_iff.mp hrest
  exact ⟨zone.startAddr, List.mem_append_right _ (List.mem_singleton_self _)⟩

theorem Remaps.Sound.step (hp : Supply pages limit) (h : s.Sound pages limit kernelPgtable)
    (hfair : s.Fair pages limit kernelPgtable c) :
    ((∃ s', s.step pages kernelPgtable c = some s' ∧ s'.AllMapped kernelPgtable) ↔ s.Fits c) ∧
      ∀ s', s.Fits c → s.step pages kernelPgtable c = some s' → s'.Sound pages limit kernelPgtable := by
  obtain ⟨hphys, hsome, hword, hroom⟩ := hfair
  -- a call that fits is defined
  have hdefined : s.Fits c → ∃ tables, s.step pages kernelPgtable c = some (s.after c tables) ∧
      s.Shown pages limit kernelPgtable c tables ∧ (s.after c tables).AllMapped kernelPgtable := by
    rintro ⟨hmemory, hspace, haligned, hphysical, hslots⟩
    obtain ⟨tables, hmap⟩ := @mapVmZone_isSome pages kernelPgtable _ (zone_inWindow hspace) s.tables
    have hstep : s.step pages kernelPgtable c = some (s.after c tables) := by
      rw [h.step_eq (by unfold pageSize; omega), if_pos ⟨hmemory, hspace⟩, hmap]
      rfl
    have hshown := h.mapVmZone hp hspace hmap (hroom _ hstep)
    refine ⟨tables, hstep, hshown, (hshown.allMapped_iff h).mpr ?_⟩
    exact (hshown.asked_iff h hspace hsome hphysical).mpr ⟨haligned, hslots⟩
  refine ⟨⟨?_, ?_⟩, ?_⟩
  · rintro ⟨s', hstep, hall⟩
    have hphysical : c.physAddr + c.size ≤ 2 ^ 48 := by
      by_contra hover
      obtain ⟨vaddr, hnew⟩ := step_mapped hstep
      have hlt := translate_lt (hall _ hnew (2 ^ 48 - c.physAddr) (by dsimp only; omega))
      dsimp only at hlt
      omega
    have hlimit := hroom s' hstep
    obtain ⟨hmemory, hspace, tables, hmap, rfl⟩ := h.step_cases (by unfold pageSize; omega) hstep
    have hshown := h.mapVmZone hp hspace hmap hlimit
    obtain ⟨haligned, hslots⟩ := (hshown.asked_iff h hspace hsome hphysical).mp
      ((hshown.allMapped_iff h).mp hall)
    exact ⟨hmemory, hspace, haligned, hphysical, hslots⟩
  · intro hfits
    obtain ⟨tables, hstep, -, hall⟩ := hdefined hfits
    exact ⟨_, hstep, hall⟩
  · intro s' hfits hstep
    obtain ⟨tables, hstep', hshown, hall⟩ := hdefined hfits
    obtain rfl := Option.some.inj (hstep'.symm.trans hstep)
    exact hshown.sound h hfits.space hall

end call

/-! ### Runs -/

section runs
variable {pages : Nat → Nat} {limit kernelPgtable kernelPhysBase : Nat} {base t : Tables}

theorem pagingInit_sound (hp : Supply pages limit)
    (hinit : pagingInit pages base kernelPhysBase = some (kernelPgtable, t)) (hroom : t.next ≤ limit) :
    Remaps.Sound pages limit kernelPgtable ⟨t, [], []⟩ := by
  obtain ⟨pos, hshares, hzero⟩ := pagingInit_shares hp hinit hroom
  refine ⟨⟨pos, hshares.owned, hshares.kernel⟩, trivial, Nat.le_add_right _ _, nofun, nofun, ?_⟩
  intro x hlow hhigh
  have hstart : pageIndex (zonesEnd [] + 0xfff) = 384 * 2 ^ 27 := by decide
  rw [hstart] at hlow
  refine leaf_cons_none ?_
  dsimp only
  rw [hzero (x / 2 ^ 27) (by omega) (by omega)]
  exact entryFormat.target_empty

/-- After every call each byte of every mapping is translated to its own physical address,
exactly when each call finds a zone that ends inside the window and its top-level entries, at the
same place of a page as the physical address. -/
theorem ioremap_maps_iff (hp : Supply pages limit)
    (hinit : pagingInit pages base kernelPhysBase = some (kernelPgtable, t)) (hroom : t.next ≤ limit)
    {calls : List IoremapCall}
    (hfair : Guarded (Remaps.step pages kernelPgtable) (Remaps.Fair pages limit kernelPgtable) ⟨t, [], []⟩
      calls) :
    Along (Remaps.step pages kernelPgtable) (fun _ _ s => s.AllMapped kernelPgtable) ⟨t, [], []⟩ calls ↔
      Guarded (Remaps.step pages kernelPgtable) Remaps.Fits ⟨t, [], []⟩ calls :=
  along_iff_guarded (Remaps.Sound pages limit kernelPgtable) (fun _ _ h hfair => h.step hp hfair)
    (pagingInit_sound hp hinit hroom) hfair

/-- A zone below 512 GiB takes the tables of one top-level entry at most. -/
theorem Remaps.Sound.fair_of_small {s : Remaps} (h : s.Sound pages limit kernelPgtable) {c : IoremapCall}
    (hphys : c.physAddr < 2 ^ 48) (hsome : 0 < c.size) (hsmall : c.size + pageSize < 2 ^ 39)
    (hroom : s.tables.next + 262657 ≤ limit) :
    s.Fair pages limit kernelPgtable c ∧
      ∀ s', s.step pages kernelPgtable c = some s' → s'.tables.next ≤ s.tables.next + 262657 ∧
        zonesEnd s'.zones = zonesEnd s.zones + c.size + pageSize := by
  have htakes : ∀ s', s.step pages kernelPgtable c = some s' →
      s'.tables.next ≤ s.tables.next + 262657 ∧ zonesEnd s'.zones = zonesEnd s.zones + c.size + pageSize := by
    intro s' hstep
    obtain ⟨-, -, tables, hmap, rfl⟩ := h.step_cases (by omega) hstep
    have htakes := mapContiguous_takes hmap
    have hslot : pml4FromVa (c.size + pageSize) = 0 := by
      rw [pml4FromVa_eq]
      omega
    rw [show (c.zone s.zones).size = c.size + pageSize from rfl, hslot] at htakes
    rw [Nat.zero_add, Nat.one_mul] at htakes
    exact ⟨htakes, (zonesEnd_concat _ _).trans (Nat.add_assoc _ _ _).symm⟩
  exact ⟨⟨hphys, hsome, by omega, fun s' hstep => (htakes s' hstep).1.trans hroom⟩, htakes⟩

end runs

/-- Two calls, the second at the place of a page at which the first zone ends. -/
theorem ioremap_maps_iff_two :
    ∃ kernelPgtable t, pagingInit lowPages ⟨fun _ _ => 0, 0⟩ 0x200000 = some (kernelPgtable, t) ∧
      Along (Remaps.step lowPages kernelPgtable) (fun _ _ s => s.AllMapped kernelPgtable) ⟨t, [], []⟩
        [⟨0xfee00000, 0x800, 0, true⟩, ⟨0xfd000800, 0x1000, 0, true⟩] := by
  obtain ⟨⟨kernelPgtable, t⟩, hinit⟩ :=
    Option.isSome_iff_exists.mp (pagingInit_isSome lowPages ⟨fun _ _ => 0, 0⟩ 0x200000)
  obtain ⟨-, hnext⟩ := pagingInit_takes hinit
  dsimp only at hnext
  have hsound := pagingInit_sound lowPages_supply hinit (by omega)
  obtain ⟨hfair, htakes⟩ := hsound.fair_of_small (c := ⟨0xfee00000, 0x800, 0, true⟩) (by decide) (by decide)
    (by decide) (by dsimp only; omega)
  have hstart : zonesEnd (Remaps.mk t [] []).zones = vmapZoneStart := rfl
  have hfits : Remaps.Fits ⟨t, [], []⟩ ⟨0xfee00000, 0x800, 0, true⟩ := by
    constructor <;> first | rw [hstart]; decide | decide
  obtain ⟨hdecides, hkeeps⟩ := hsound.step lowPages_supply hfair
  obtain ⟨s₁, hstep, -⟩ := hdecides.mpr hfits
  obtain ⟨hnext₁, hend₁⟩ := htakes s₁ hstep
  dsimp only at hnext₁ hend₁
  have hend : zonesEnd s₁.zones = vmapZoneStart + 0x1800 := hend₁
  obtain ⟨hfair₁, -⟩ := (hkeeps s₁ hfits hstep).fair_of_small (c := ⟨0xfd000800, 0x1000, 0, true⟩) (by decide)
    (by decide) (by decide) (by omega)
  have hfits₁ : s₁.Fits ⟨0xfd000800, 0x1000, 0, true⟩ := by
    constructor <;> first | rw [hend]; decide | decide
  refine ⟨kernelPgtable, t, hinit, (ioremap_maps_iff lowPages_supply hinit (by omega) ?_).mpr ?_⟩
  · refine ⟨hfair, ?_⟩
    rw [hstep]
    refine ⟨hfair₁, ?_⟩
    cases s₁.step lowPages kernelPgtable ⟨0xfd000800, 0x1000, 0, true⟩ <;> trivial
  · refine ⟨hfits, ?_⟩
    rw [hstep]
    refine ⟨hfits₁, ?_⟩
    cases s₁.step lowPages kernelPgtable ⟨0xfd000800, 0x1000, 0, true⟩ <;> trivial

/-- A register that does not lie at the start of a page: the pointer leads to the start of its
page. Without memory for a zone the call faults. -/
theorem ioremap_unaligned :
    ∃ kernelPgtable t, pagingInit lowPages ⟨fun _ _ => 0, 0⟩ 0x200000 = some (kernelPgtable, t) ∧
      (∃ s, Remaps.step lowPages kernelPgtable ⟨t, [], []⟩ ⟨0xfee00010, 0x10, 0, true⟩ = some s ∧
        ⟨vmapZoneStart, 0xfee00010, 0x10⟩ ∈ s.mapped ∧
        translate s.tables kernelPgtable (vmapZoneStart + 0) = some 0xfee00000 ∧
        ¬ s.AllMapped kernelPgtable) ∧
      Remaps.step lowPages kernelPgtable ⟨t, [], []⟩ ⟨0xfee00000, 0x1000, 0, false⟩ = none := by
  obtain ⟨⟨kernelPgtable, t⟩, hinit⟩ :=
    Option.isSome_iff_exists.mp (pagingInit_isSome lowPages ⟨fun _ _ => 0, 0⟩ 0x200000)
  obtain ⟨-, hnext⟩ := pagingInit_takes hinit
  dsimp only at hnext
  have hsound := pagingInit_sound lowPages_supply hinit (by omega)
  have hstart : zonesEnd (Remaps.mk t [] []).zones = vmapZoneStart := rfl
  obtain ⟨hfair, htakes⟩ := hsound.fair_of_small (c := ⟨0xfee00010, 0x10, 0, true⟩) (by decide) (by decide)
    (by decide) (by dsimp only; omega)
  have hspace : zonesEnd (Remaps.mk t [] []).zones + 0x10 + pageSize ≤ vmapZoneStart + vmapZoneSize := by
    rw [hstart]
    decide
  obtain ⟨tables, hmap⟩ := @mapVmZone_isSome lowPages kernelPgtable _
    (zone_inWindow (c := ⟨0xfee00010, 0x10, 0, true⟩) hspace) t
  have hstep : Remaps.step lowPages kernelPgtable ⟨t, [], []⟩ ⟨0xfee00010, 0x10, 0, true⟩ =
      some (Remaps.after ⟨t, [], []⟩ ⟨0xfee00010, 0x10, 0, true⟩ tables) := by
    rw [hsound.step_eq (by decide), if_pos ⟨rfl, hspace⟩, hmap]
    rfl
  have hshown := hsound.mapVmZone lowPages_supply hspace hmap (hfair.room _ hstep)
  have hfirst : translate tables kernelPgtable (vmapZoneStart + 0) = some 0xfee00000 := by
    refine (hshown.translate_covered (by rw [hstart]; decide) (by rw [hstart]; decide)
      ((covers_iff hspace (i := 0) (by decide)).mpr (Nat.le_add_right _ _))).trans ?_
    rw [hstart, wrap64_of_lt (by decide)]
    decide
  refine ⟨kernelPgtable, t, hinit, ⟨_, hstep, List.mem_singleton_self _, hfirst, ?_⟩, ?_⟩
  · intro hall
    have hbyte := hall ⟨vmapZoneStart, 0xfee00010, 0x10⟩ (List.mem_singleton_self _) 0 (by decide)
    have hsame := Option.some.inj (hfirst.symm.trans hbyte)
    revert hsame
    decide
  · rw [hsound.step_eq (by decide), if_neg (by simp)]

end Lucix.Vm
