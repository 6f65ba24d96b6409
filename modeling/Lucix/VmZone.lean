import Lucix.PageTable
import Mathlib.Order.CompletePartialOrder

/-!
# Kernel virtual zones, `kernel/vm.c` and `arch/x86_64/ioremap.c`

The list `vm_zone_list` is a list of zones; a zone that `get_vm_zone` returned is
named by its place there. `pages` and `num_pages` of a zone are never read.
-/
namespace Lucix.Vm
open PageTable

/-- The macro `VMAP_ZONE_START`. -/
def vmapZoneStart : Nat := 0xffffc00000000000

/-- The macro `VMAP_ZONE_SIZE`. -/
def vmapZoneSize : Nat := 0x0000010000000000

structure VmZone where
  startAddr : Nat
  size : Nat
  flags : Nat
  physAddr : Nat
  deriving DecidableEq, Repr

/-- The loop of `get_vm_zone`: the place in the list and the address of the new zone. -/
def zoneSlot (size : Nat) : Nat → List VmZone → Option (Nat × Nat)
  | addr, [] => some (0, addr)
  | addr, tmp :: rest =>
      let next := fun addr => (zoneSlot size addr rest).map fun slot => (slot.1 + 1, slot.2)
      if tmp.startAddr < addr then next addr
      else if wrap64 (size + addr) < addr then none
      else if wrap64 (size + addr) ≤ tmp.startAddr then some (0, addr)
      else
        let addr := wrap64 (tmp.size + tmp.startAddr)
        if addr > sub64 (vmapZoneStart + vmapZoneSize) size then none else next addr

/-- The function `get_vm_zone`; `memory` says whether its `kmalloc` succeeds. -/
def getVmZone (zones : List VmZone) (size flags : Nat) (memory : Bool) : Option (Nat × List VmZone) :=
  if memory = false then none
  else if wrap64 (size + pageSize) > vmapZoneSize then none
  else
    let size := wrap64 (size + pageSize)
    (zoneSlot size vmapZoneStart zones).map fun slot =>
      (slot.1, zones.insertIdx slot.1 ⟨slot.2, size, flags, 0⟩)

/-- The function `remove_vm_zone`: the zone taken out and the zones that are left. -/
def removeVmZone (addr : Nat) : List VmZone → Option (VmZone × List VmZone)
  | [] => none
  | tmp :: rest =>
      if tmp.startAddr = addr then some (tmp, rest)
      else (removeVmZone addr rest).map fun (zone, left) => (zone, tmp :: left)

/-- The function `map_vm_zone`. -/
def mapVmZone (pages : Nat → Nat) (s : Tables) (kernelPgtable : Nat) (zone : VmZone) : Option Tables :=
  mapContiguous pages s kernelPgtable zone.physAddr zone.startAddr zone.size false
    ⟨true, true, false, false, false, 0⟩

/-- The zones after the part of `ioremap` before `map_vm_zone`, and the zone that is then mapped.
`none` when there is no zone: the store through the null pointer faults. -/
def ioremapZone (zones : List VmZone) (physAddr size flags : Nat) (memory : Bool) :
    Option (VmZone × List VmZone) :=
  (getVmZone zones size flags memory).bind fun (k, zones) =>
    let zones := zones.modify k fun zone => { zone with physAddr := physAddr }
    zones[k]?.map fun zone => (zone, zones)

/-- The function `ioremap`. -/
def ioremap (pages : Nat → Nat) (s : Tables) (kernelPgtable : Nat) (zones : List VmZone)
    (physAddr size flags : Nat) (memory : Bool) : Option (Tables × List VmZone) :=
  (ioremapZone zones physAddr size flags memory).bind fun (zone, zones) =>
    (mapVmZone pages s kernelPgtable zone).map fun s => (s, zones)

/-! ### The window -/

def VmZone.InWindow (zone : VmZone) : Prop :=
  vmapZoneStart ≤ zone.startAddr ∧ zone.startAddr + zone.size ≤ vmapZoneStart + vmapZoneSize

theorem zoneSlot_window {size : Nat} (hsize : size ≤ vmapZoneSize) {zones : List VmZone}
    (hzones : ∀ zone ∈ zones, zone.InWindow) {addr k a : Nat} (hlow : vmapZoneStart ≤ addr)
    (hhigh : addr + size ≤ vmapZoneStart + vmapZoneSize) (h : zoneSlot size addr zones = some (k, a)) :
    k ≤ zones.length ∧ vmapZoneStart ≤ a ∧ a + size ≤ vmapZoneStart + vmapZoneSize := by
  have hsub : sub64 (vmapZoneStart + vmapZoneSize) size = vmapZoneStart + vmapZoneSize - size :=
    sub64_of_le (by unfold vmapZoneStart vmapZoneSize at *; omega) (by decide)
  induction zones generalizing addr k with
  | nil =>
      obtain ⟨rfl, rfl⟩ := Prod.mk.inj (Option.some.inj h)
      exact ⟨Nat.le_refl _, hlow, hhigh⟩
  | cons tmp rest ih =>
      have hrest := fun zone hmem => hzones zone (List.mem_cons_of_mem tmp hmem)
      have hnext : ∀ addr, vmapZoneStart ≤ addr → addr + size ≤ vmapZoneStart + vmapZoneSize →
          (zoneSlot size addr rest).map (fun slot => (slot.1 + 1, slot.2)) = some (k, a) →
          k ≤ (tmp :: rest).length ∧ vmapZoneStart ≤ a ∧ a + size ≤ vmapZoneStart + vmapZoneSize := by
        intro addr hlow hhigh hmap
        obtain ⟨⟨k', a'⟩, hslot, hpair⟩ := Option.map_eq_some_iff.mp hmap
        obtain ⟨rfl, rfl⟩ := Prod.mk.inj hpair
        obtain ⟨hk, ha⟩ := ih hrest hlow hhigh hslot
        exact ⟨Nat.succ_le_succ hk, ha⟩
      obtain ⟨hstart, hend⟩ := hzones tmp (List.mem_cons_self)
      have hwrap : wrap64 (tmp.size + tmp.startAddr) = tmp.size + tmp.startAddr :=
        wrap64_of_lt (by unfold vmapZoneStart vmapZoneSize at *; omega)
      unfold zoneSlot at h
      dsimp only at h
      rw [hwrap, hsub] at h
      split_ifs at h with hskip hwrapped hfits hout
      · exact hnext addr hlow hhigh h
      · obtain ⟨rfl, rfl⟩ := Prod.mk.inj (Option.some.inj h)
        exact ⟨Nat.zero_le _, hlow, hhigh⟩
      · exact hnext _ (by omega) (by unfold vmapZoneStart vmapZoneSize at *; omega) h

theorem ioremapZone_window {zones zones' : List VmZone} {zone : VmZone} {physAddr size flags : Nat}
    {memory : Bool} (hzones : ∀ zone ∈ zones, zone.InWindow)
    (h : ioremapZone zones physAddr size flags memory = some (zone, zones')) :
    zone.InWindow ∧ ∀ zone ∈ zones', zone.InWindow := by
  obtain ⟨⟨k, inserted⟩, hget, hzone⟩ := Option.bind_eq_some_iff.mp h
  dsimp only at hzone
  unfold getVmZone at hget
  split_ifs at hget with hmemory hlarge
  obtain ⟨⟨k', addr⟩, hslot, hpair⟩ := Option.map_eq_some_iff.mp hget
  obtain ⟨rfl, rfl⟩ := Prod.mk.inj hpair
  have hsize : wrap64 (size + pageSize) ≤ vmapZoneSize := Nat.le_of_not_lt hlarge
  obtain ⟨-, hwindow⟩ := zoneSlot_window hsize hzones (Nat.le_refl _) (by omega) hslot
  obtain ⟨found, hfound, hpair'⟩ := Option.map_eq_some_iff.mp hzone
  obtain ⟨rfl, rfl⟩ := Prod.mk.inj hpair'
  have hall : ∀ zone ∈ (zones.insertIdx k' ⟨addr, wrap64 (size + pageSize), flags, 0⟩).modify k'
      (fun zone => { zone with physAddr := physAddr }), zone.InWindow := by
    intro zone hmem
    obtain ⟨j, hj⟩ := List.mem_iff_getElem?.mp hmem
    rw [List.getElem?_modify] at hj
    obtain ⟨old, hold, rfl⟩ := Option.map_eq_some_iff.mp hj
    have hold' : old.InWindow := by
      rcases List.eq_or_mem_of_mem_insertIdx (List.mem_of_getElem? hold) with rfl | hmem'
      · exact hwindow
      · exact hzones old hmem'
    split_ifs
    · exact hold'
    · exact hold'
  exact ⟨hall _ (List.mem_of_getElem? hfound), hall⟩

/-! ### Zones apart -/

/-- The addresses of a zone. -/
def VmZone.range (zone : VmZone) : Set Nat := Set.Ico zone.startAddr (zone.startAddr + zone.size)

def VmZone.Before (zone zone' : VmZone) : Prop := zone.startAddr + zone.size ≤ zone'.startAddr

theorem VmZone.Before.le {zone zone' : VmZone} (h : zone.Before zone') : zone.startAddr ≤ zone'.startAddr :=
  Nat.le_trans (Nat.le_add_right _ _) h

theorem VmZone.Before.disjoint {zone zone' : VmZone} (h : zone.Before zone') :
    Disjoint zone.range zone'.range :=
  Set.disjoint_left.mpr fun _ hin hin' => Nat.lt_irrefl _ (hin.2.trans_le (h.trans hin'.1))

/-- What `vm_zone_list` always is. -/
structure Apart (zones : List VmZone) : Prop where
  before : zones.Pairwise VmZone.Before
  window : ∀ zone ∈ zones, zone.InWindow

theorem Apart.nil : Apart [] := ⟨.nil, nofun⟩

theorem Apart.tail {tmp : VmZone} {rest : List VmZone} (h : Apart (tmp :: rest)) : Apart rest :=
  ⟨h.before.of_cons, fun zone hmem => h.window zone (List.mem_cons_of_mem tmp hmem)⟩

/-- The address found lies behind the zones that come before the slot, and its size ends
before the others. -/
theorem zoneSlot_between {size : Nat} (hsize : size ≤ vmapZoneSize) {zones : List VmZone}
    (h : Apart zones) {addr k a : Nat} (hlow : ∀ zone ∈ zones, addr ≤ zone.startAddr)
    (hslot : zoneSlot size addr zones = some (k, a)) :
    addr ≤ a ∧ ∃ front back, zones = front ++ back ∧ k = front.length ∧
      (∀ zone ∈ front, zone.startAddr + zone.size ≤ a) ∧
      ∀ zone ∈ back, a + size ≤ zone.startAddr := by
  induction zones generalizing addr k with
  | nil =>
      obtain ⟨rfl, rfl⟩ := Prod.mk.inj (Option.some.inj hslot)
      exact ⟨Nat.le_refl _, [], [], rfl, rfl, nofun, nofun⟩
  | cons tmp rest ih =>
      obtain ⟨hstart, hend⟩ := h.window tmp List.mem_cons_self
      have hbelow : ∀ zone ∈ rest, tmp.Before zone := (List.pairwise_cons.mp h.before).1
      have haddr := hlow tmp List.mem_cons_self
      have hwrap : wrap64 (tmp.size + tmp.startAddr) = tmp.size + tmp.startAddr :=
        wrap64_of_lt (by unfold vmapZoneStart vmapZoneSize at *; omega)
      have hfit : wrap64 (size + addr) = size + addr :=
        wrap64_of_lt (by unfold vmapZoneStart vmapZoneSize at *; omega)
      unfold zoneSlot at hslot
      dsimp only at hslot
      rw [hwrap, hfit] at hslot
      split_ifs at hslot with hskip hwrapped hfits hout
      · omega
      · obtain ⟨rfl, rfl⟩ := Prod.mk.inj (Option.some.inj hslot)
        refine ⟨Nat.le_refl _, [], tmp :: rest, rfl, rfl, nofun, ?_⟩
        intro zone hmem
        rcases List.mem_cons.mp hmem with rfl | hrest
        · omega
        · have := (hbelow zone hrest).le
          omega
      · obtain ⟨⟨k', a'⟩, hslot', hpair⟩ := Option.map_eq_some_iff.mp hslot
        obtain ⟨rfl, rfl⟩ := Prod.mk.inj hpair
        have hnext : ∀ zone ∈ rest, tmp.size + tmp.startAddr ≤ zone.startAddr := by
          intro zone hmem
          have := hbelow zone hmem
          unfold VmZone.Before at this
          omega
        obtain ⟨hle, front, back, rfl, rfl, hfront, hback⟩ := ih h.tail hnext hslot'
        refine ⟨by omega, tmp :: front, back, rfl, rfl, ?_, hback⟩
        intro zone hmem
        rcases List.mem_cons.mp hmem with rfl | hfront'
        · omega
        · exact hfront zone hfront'

theorem Apart.remove {front back : List VmZone} {zone : VmZone} (h : Apart (front ++ zone :: back)) :
    Apart (front ++ back) := by
  have hsub : (front ++ back).Sublist (front ++ zone :: back) :=
    (List.Sublist.refl front).append (List.sublist_cons_self zone back)
  exact ⟨h.before.sublist hsub, fun z hz => h.window z (hsub.subset hz)⟩

/-- A zone put between the zones that end before it and those that start behind it. -/
theorem Apart.insert {front back : List VmZone} {zone : VmZone} (h : Apart (front ++ back))
    (hfront : ∀ z ∈ front, z.Before zone) (hback : ∀ z ∈ back, zone.Before z)
    (hwindow : zone.InWindow) : Apart (front ++ zone :: back) := by
  obtain ⟨hF, hB, hFB⟩ := List.pairwise_append.mp h.before
  constructor
  · refine List.pairwise_append.mpr ⟨hF, List.pairwise_cons.mpr ⟨hback, hB⟩, ?_⟩
    intro z hz z' hz'
    rcases List.mem_cons.mp hz' with rfl | hmem
    · exact hfront z hz
    · exact hFB z hz z' hmem
  · intro z hz
    rcases List.mem_append.mp hz with hmem | hmem
    · exact h.window z (List.mem_append_left back hmem)
    · rcases List.mem_cons.mp hmem with rfl | hmem'
      · exact hwindow
      · exact h.window z (List.mem_append_right front hmem')

theorem insertIdx_length_append (front back : List VmZone) (zone : VmZone) :
    (front ++ back).insertIdx front.length zone = front ++ zone :: back := by
  induction front with
  | nil => rfl
  | cons z front ih =>
      rw [List.cons_append, List.length_cons, List.insertIdx_succ_cons, ih]
      rfl

theorem getVmZone_apart {zones zones' : List VmZone} {size flags k : Nat} {memory : Bool}
    (h : Apart zones) (hget : getVmZone zones size flags memory = some (k, zones')) :
    ∃ front back a, zones = front ++ back ∧ k = front.length ∧
      zones' = front ++ ⟨a, wrap64 (size + pageSize), flags, 0⟩ :: back ∧ Apart zones' := by
  unfold getVmZone at hget
  split_ifs at hget with hmemory hlarge
  obtain ⟨⟨k', a⟩, hslot, hpair⟩ := Option.map_eq_some_iff.mp hget
  obtain ⟨rfl, rfl⟩ := Prod.mk.inj hpair
  have hsize : wrap64 (size + pageSize) ≤ vmapZoneSize := Nat.le_of_not_lt hlarge
  obtain ⟨-, hwindow⟩ := zoneSlot_window hsize h.window (Nat.le_refl _) (by omega) hslot
  obtain ⟨-, front, back, rfl, rfl, hfront, hback⟩ :=
    zoneSlot_between hsize h (fun zone hmem => (h.window zone hmem).1) hslot
  refine ⟨front, back, a, rfl, rfl, insertIdx_length_append front back _, ?_⟩
  dsimp only
  rw [insertIdx_length_append]
  exact h.insert hfront hback hwindow

theorem removeVmZone_spec (addr : Nat) (zones : List VmZone) :
    (removeVmZone addr zones = none ∧ ∀ zone ∈ zones, zone.startAddr ≠ addr) ∨
    ∃ front zone back, removeVmZone addr zones = some (zone, front ++ back) ∧
      zones = front ++ zone :: back ∧ zone.startAddr = addr ∧ ∀ z ∈ front, z.startAddr ≠ addr := by
  induction zones with
  | nil => exact .inl ⟨rfl, nofun⟩
  | cons tmp rest ih =>
      unfold removeVmZone
      by_cases htmp : tmp.startAddr = addr
      · rw [if_pos htmp]
        exact .inr ⟨[], tmp, rest, rfl, rfl, htmp, nofun⟩
      · rw [if_neg htmp]
        rcases ih with ⟨hnone, hall⟩ | ⟨front, zone, back, hsome, rfl, haddr, hall⟩
        · rw [hnone]
          exact .inl ⟨rfl, List.forall_mem_cons.mpr ⟨htmp, hall⟩⟩
        · rw [hsome]
          exact .inr ⟨tmp :: front, zone, back, rfl, rfl, haddr, List.forall_mem_cons.mpr ⟨htmp, hall⟩⟩

/-! ### Runs -/

inductive ZoneCall where
  | get (size flags : Nat) (memory : Bool)
  | remove (addr : Nat)

/-- A call: the zone it returns, or `NULL`, and the list it leaves. -/
def zoneStep (zones : List VmZone) : ZoneCall → Option VmZone × List VmZone
  | .get size flags memory =>
      match getVmZone zones size flags memory with
      | some (k, zones') => (zones'[k]?, zones')
      | none => (none, zones)
  | .remove addr =>
      match removeVmZone addr zones with
      | some (zone, zones') => (some zone, zones')
      | none => (none, zones)

/-- The list after the calls; `vm_zone_list` starts empty. -/
def zonesAfter (calls : List ZoneCall) : List VmZone :=
  calls.foldl (fun zones call => (zoneStep zones call).2) []

/-- What a call does to the list: a zone is put in, a zone is taken out, or nothing changes. -/
def ZoneEffect (zones : List VmZone) (result : Option VmZone × List VmZone) : ZoneCall → Prop
  | .get size flags _ => result = (none, zones) ∨
      ∃ front zone back, zones = front ++ back ∧ result = (some zone, front ++ zone :: back) ∧
        zone.size = wrap64 (size + pageSize) ∧ zone.flags = flags
  | .remove addr => (result = (none, zones) ∧ ∀ zone ∈ zones, zone.startAddr ≠ addr) ∨
      ∃ front zone back, zones = front ++ zone :: back ∧ zone.startAddr = addr ∧
        result = (some zone, front ++ back)

theorem zoneStep_apart {zones : List VmZone} (h : Apart zones) (call : ZoneCall) :
    Apart (zoneStep zones call).2 ∧ ZoneEffect zones (zoneStep zones call) call := by
  cases call with
  | get size flags memory =>
      cases hget : getVmZone zones size flags memory with
      | none =>
          simp only [zoneStep, hget]
          exact ⟨h, .inl rfl⟩
      | some found =>
          obtain ⟨front, back, a, hzones, hk, hzones', hapart⟩ := getVmZone_apart h hget
          simp only [zoneStep, hget]
          refine ⟨hapart, .inr ⟨front, ⟨a, wrap64 (size + pageSize), flags, 0⟩, back, hzones, ?_, rfl, rfl⟩⟩
          rw [hzones', hk, List.getElem?_append_right (Nat.le_refl _), Nat.sub_self]
          rfl
  | remove addr =>
      rcases removeVmZone_spec addr zones with ⟨hnone, hall⟩ | ⟨front, zone, back, hsome, rfl, haddr, -⟩
      · simp only [zoneStep, hnone]
        exact ⟨h, .inl ⟨rfl, hall⟩⟩
      · simp only [zoneStep, hsome]
        exact ⟨h.remove, .inr ⟨front, zone, back, rfl, haddr, rfl⟩⟩

theorem zonesAfter_apart (calls : List ZoneCall) : Apart (zonesAfter calls) :=
  List.foldlRecOn calls _ Apart.nil fun _ h call _ => (zoneStep_apart h call).1

/-- The list stays sorted, its zones disjoint and inside the window, and every call either
does what it is for or leaves the list as it is. -/
theorem zones_disjoint (calls : List ZoneCall) :
    (zonesAfter calls).Pairwise (·.startAddr ≤ ·.startAddr) ∧
    (zonesAfter calls).Pairwise (Disjoint ·.range ·.range) ∧
    (∀ zone ∈ zonesAfter calls, zone.InWindow ∧ zone.startAddr + zone.size < 2 ^ 64) ∧
    ∀ call, ZoneEffect (zonesAfter calls) (zoneStep (zonesAfter calls) call) call := by
  have h := zonesAfter_apart calls
  refine ⟨h.before.imp VmZone.Before.le, h.before.imp VmZone.Before.disjoint, ?_,
    fun call => (zoneStep_apart h call).2⟩
  intro zone hmem
  have hwindow := h.window zone hmem
  refine ⟨hwindow, Nat.lt_of_le_of_lt hwindow.2 ?_⟩
  decide

/-! ### First fit -/

/-- A sorted list of disjoint zones of the window. Zones without bytes may lie anywhere. -/
structure Listed (zones : List VmZone) : Prop where
  sorted : zones.Pairwise (·.startAddr ≤ ·.startAddr)
  disjoint : zones.Pairwise (Disjoint ·.range ·.range)
  window : ∀ zone ∈ zones, zone.InWindow

/-- The `n` bytes from `a` on lie in a gap of the window. -/
def FitsAt (zones : List VmZone) (n a : Nat) : Prop :=
  vmapZoneStart ≤ a ∧ a + n ≤ vmapZoneStart + vmapZoneSize ∧
    ∀ zone ∈ zones, zone.startAddr + zone.size ≤ a ∨ a + n ≤ zone.startAddr

/-- The address lies inside none of the zones. -/
def Outside (zones : List VmZone) (addr : Nat) : Prop :=
  ∀ zone ∈ zones, addr ≤ zone.startAddr ∨ zone.startAddr + zone.size ≤ addr

section firstFit
variable {zones rest : List VmZone} {tmp : VmZone} {size addr a b : Nat}

theorem Listed.tail (h : Listed (tmp :: rest)) : Listed rest :=
  ⟨h.sorted.of_cons, h.disjoint.of_cons, fun zone hmem => h.window zone (List.mem_cons_of_mem tmp hmem)⟩

theorem Listed.outside_start (h : Listed zones) : Outside zones vmapZoneStart :=
  fun zone hmem => .inl (h.window zone hmem).1

theorem Listed.outside_end (h : Listed (tmp :: rest)) : Outside rest (tmp.startAddr + tmp.size) := by
  intro zone hmem
  have hle := (List.pairwise_cons.mp h.sorted).1 zone hmem
  have hdisjoint := (List.pairwise_cons.mp h.disjoint).1 zone hmem
  simp only [VmZone.range, Set.Ico_disjoint_Ico] at hdisjoint
  omega

theorem fitsAt_cons : FitsAt (tmp :: rest) size a ↔
    FitsAt rest size a ∧ (tmp.startAddr + tmp.size ≤ a ∨ a + size ≤ tmp.startAddr) := by
  unfold FitsAt
  rw [List.forall_mem_cons]
  tauto

/-- The loop has an answer for the addresses from `addr` on: the lowest that fits, or none does. -/
def Lowest (zones : List VmZone) (size addr : Nat) (slot : Option (Nat × Nat)) : Prop :=
  match slot with
  | none => ∀ b, addr ≤ b → ¬ FitsAt zones size b
  | some (k, a) => k ≤ zones.length ∧ addr ≤ a ∧ FitsAt zones size a ∧
      ∀ b, addr ≤ b → FitsAt zones size b → a ≤ b

/-- A zone that ends before `next`, where nothing below `next` fits, changes no answer. -/
theorem Lowest.cons {next : Nat} {slot : Option (Nat × Nat)} (h : Lowest rest size next slot)
    (hend : tmp.startAddr + tmp.size ≤ next) (hnext : addr ≤ next)
    (hbelow : ∀ b, addr ≤ b → FitsAt (tmp :: rest) size b → next ≤ b) :
    Lowest (tmp :: rest) size addr (slot.map fun slot => (slot.1 + 1, slot.2)) := by
  cases slot with
  | none =>
      intro b hb hfits
      exact h b (hbelow b hb hfits) (fitsAt_cons.mp hfits).1
  | some slot =>
      obtain ⟨hk, hle, hfits, hleast⟩ := h
      refine ⟨Nat.succ_le_succ hk, hnext.trans hle, fitsAt_cons.mpr ⟨hfits, .inl (hend.trans hle)⟩, ?_⟩
      intro b hb hfits'
      exact hleast b (hbelow b hb hfits') (fitsAt_cons.mp hfits').1

theorem zoneSlot_lowest (hsize : size ≤ vmapZoneSize) (h : Listed zones) (hlow : vmapZoneStart ≤ addr)
    (hhigh : addr + size ≤ vmapZoneStart + vmapZoneSize) (hout : Outside zones addr) :
    Lowest zones size addr (zoneSlot size addr zones) := by
  have hsub : sub64 (vmapZoneStart + vmapZoneSize) size = vmapZoneStart + vmapZoneSize - size :=
    sub64_of_le (by unfold vmapZoneStart vmapZoneSize at *; omega) (by decide)
  induction zones generalizing addr with
  | nil => exact ⟨Nat.le_refl _, Nat.le_refl _, ⟨hlow, hhigh, by simp⟩, fun b hb _ => hb⟩
  | cons tmp rest ih =>
      obtain ⟨hstart, hend⟩ := h.window tmp List.mem_cons_self
      have htmp := hout tmp List.mem_cons_self
      have hrest : Outside rest addr := fun zone hmem => hout zone (List.mem_cons_of_mem tmp hmem)
      have hwrap : wrap64 (tmp.size + tmp.startAddr) = tmp.startAddr + tmp.size := by
        rw [Nat.add_comm]
        exact wrap64_of_lt (by unfold vmapZoneStart vmapZoneSize at *; omega)
      have hfit : wrap64 (size + addr) = size + addr :=
        wrap64_of_lt (by unfold vmapZoneStart vmapZoneSize at *; omega)
      unfold zoneSlot
      dsimp only
      rw [hwrap, hfit, hsub]
      by_cases hskip : tmp.startAddr < addr
      · rw [if_pos hskip]
        have hbehind : tmp.startAddr + tmp.size ≤ addr := by omega
        exact (ih h.tail hlow hhigh hrest).cons hbehind (Nat.le_refl _) fun b hb _ => hb
      rw [if_neg hskip, if_neg (by omega)]
      by_cases hfits : size + addr ≤ tmp.startAddr
      · rw [if_pos hfits]
        refine ⟨Nat.zero_le _, Nat.le_refl _, ⟨hlow, hhigh, ?_⟩, fun b hb _ => hb⟩
        intro zone hmem
        rcases List.mem_cons.mp hmem with rfl | hmem'
        · exact .inr (by omega)
        · have hle := (List.pairwise_cons.mp h.sorted).1 zone hmem'
          exact .inr (by omega)
      rw [if_neg hfits]
      -- The gap before `tmp` is too small, so whatever fits lies behind `tmp`.
      have hbelow : ∀ b, addr ≤ b → FitsAt (tmp :: rest) size b → tmp.startAddr + tmp.size ≤ b := by
        intro b hb hfits'
        rcases (fitsAt_cons.mp hfits').2 with hbehind | hbefore
        · exact hbehind
        · omega
      by_cases hover : tmp.startAddr + tmp.size > vmapZoneStart + vmapZoneSize - size
      · rw [if_pos hover]
        intro b hb hfits'
        have hbehind := hbelow b hb hfits'
        have hwindow := hfits'.2.1
        omega
      · rw [if_neg hover]
        have hroom : tmp.startAddr + tmp.size + size ≤ vmapZoneStart + vmapZoneSize := by omega
        exact (ih h.tail (by omega) hroom h.outside_end).cons (Nat.le_refl _) (by omega) hbelow

end firstFit

/-- What `get_vm_zone` is for, of the zone that it returns: it returns none only where no gap has
room for the size and the guard page, and a zone with that room at the lowest address otherwise. -/
def GetMeets (zones : List VmZone) (size : Nat) (result : Option VmZone) : Prop :=
  (result = none ↔ ¬ ∃ a, FitsAt zones (size + pageSize) a) ∧
    ∀ zone, result = some zone → size + pageSize ≤ zone.size ∧
      IsLeast {a | FitsAt zones (size + pageSize) a} zone.startAddr

/-- The zone that is returned is the first fit of the size as the addition leaves it. -/
theorem zoneStep_get {zones : List VmZone} (h : Listed zones) (size flags : Nat) :
    ((zoneStep zones (.get size flags true)).1 = none ∧ ¬ ∃ a, FitsAt zones (wrap64 (size + pageSize)) a) ∨
    ∃ a, (zoneStep zones (.get size flags true)).1 = some ⟨a, wrap64 (size + pageSize), flags, 0⟩ ∧
      IsLeast {a | FitsAt zones (wrap64 (size + pageSize)) a} a := by
  by_cases hlarge : wrap64 (size + pageSize) > vmapZoneSize
  · refine .inl ⟨?_, ?_⟩
    · simp [zoneStep, getVmZone, hlarge]
    · intro hfit
      obtain ⟨a, hlow, hhigh, -⟩ := hfit
      omega
  have hsize : wrap64 (size + pageSize) ≤ vmapZoneSize := Nat.le_of_not_lt hlarge
  have hslot := zoneSlot_lowest hsize h (Nat.le_refl _) (by omega) h.outside_start
  cases hfound : zoneSlot (wrap64 (size + pageSize)) vmapZoneStart zones with
  | none =>
      rw [hfound] at hslot
      refine .inl ⟨?_, ?_⟩
      · simp [zoneStep, getVmZone, hlarge, hfound]
      · intro hfit
        obtain ⟨a, hfits⟩ := hfit
        exact hslot a hfits.1 hfits
  | some slot =>
      rw [hfound] at hslot
      obtain ⟨hk, -, hfits, hleast⟩ := hslot
      refine .inr ⟨slot.2, ?_, hfits, fun b hb => hleast b hb.1 hb⟩
      simp [zoneStep, getVmZone, hlarge, hfound, List.getElem?_insertIdx_self, hk]

theorem not_fitsAt_of_large {zones : List VmZone} {n : Nat} (hn : 2 ^ 64 ≤ n) : ¬ ∃ a, FitsAt zones n a := by
  intro hfit
  obtain ⟨a, -, hhigh, -⟩ := hfit
  unfold vmapZoneStart vmapZoneSize at hhigh
  omega

/-- `get_vm_zone` finds the first fit unless the size wraps with its guard page and the window
has room for what is left of it. -/
theorem getVmZone_first_fit_iff {zones : List VmZone} (h : Listed zones) {size : Nat} (hsize : size < 2 ^ 64)
    (flags : Nat) :
    GetMeets zones size (zoneStep zones (.get size flags true)).1 ↔
      size + pageSize < 2 ^ 64 ∨ ¬ ∃ a, FitsAt zones (size + pageSize - 2 ^ 64) a := by
  have hspec := zoneStep_get h size flags
  by_cases hwrap : size + pageSize < 2 ^ 64
  · refine ⟨fun _ => .inl hwrap, fun _ => ?_⟩
    rw [wrap64_of_lt hwrap] at hspec
    rcases hspec with ⟨hnone, hno⟩ | ⟨a, hsome, hleast⟩
    · rw [hnone]
      exact ⟨⟨fun _ => hno, fun _ => rfl⟩, by simp⟩
    · rw [hsome]
      refine ⟨⟨by simp, fun hno => absurd ⟨a, hleast.1⟩ hno⟩, ?_⟩
      intro zone hzone
      rw [← Option.some.inj hzone]
      exact ⟨Nat.le_refl _, hleast⟩
  · have hrest : wrap64 (size + pageSize) = size + pageSize - 2 ^ 64 := by
      unfold wrap64 pageSize at *
      omega
    have hno : ¬ ∃ a, FitsAt zones (size + pageSize) a := not_fitsAt_of_large (Nat.le_of_not_lt hwrap)
    rw [hrest] at hspec
    constructor
    · intro hmeets
      have hnone := hmeets.1.mpr hno
      rcases hspec with ⟨-, hno'⟩ | ⟨a, hsome, -⟩
      · exact .inr hno'
      · rw [hnone] at hsome
        cases hsome
    · intro hcond
      rcases hspec with ⟨hnone, -⟩ | ⟨a, -, hleast⟩
      · rw [hnone]
        exact ⟨⟨fun _ => hno, fun _ => rfl⟩, by simp⟩
      · rcases hcond with hlt | hno'
        · exact absurd hlt hwrap
        · exact absurd ⟨a, hleast.1⟩ hno'

def firstZone : VmZone := ⟨vmapZoneStart, 0x2000, 0, 0⟩

theorem firstZone_listed : Listed [firstZone] := by
  refine ⟨List.pairwise_singleton _ _, List.pairwise_singleton _ _, ?_⟩
  intro zone hmem
  rw [List.mem_singleton.mp hmem]
  unfold VmZone.InWindow
  decide

theorem getVmZone_first_fit_behind_zone :
    Listed [firstZone] ∧
      (zoneStep [firstZone] (.get 0x1000 0 true)).1 = some ⟨vmapZoneStart + 0x2000, 0x2000, 0, 0⟩ ∧
      GetMeets [firstZone] 0x1000 (zoneStep [firstZone] (.get 0x1000 0 true)).1 :=
  ⟨firstZone_listed, by decide +kernel,
    (getVmZone_first_fit_iff firstZone_listed (by decide) 0).mpr (.inl (by decide))⟩

/-- The guard page wraps the largest size to less than a page, and a zone of that size is found. -/
theorem getVmZone_wrapped_size :
    (zoneStep [] (.get (2 ^ 64 - 1) 0 true)).1 = some ⟨vmapZoneStart, pageSize - 1, 0, 0⟩ ∧
      ¬ GetMeets [] (2 ^ 64 - 1) (zoneStep [] (.get (2 ^ 64 - 1) 0 true)).1 := by
  have hfound : (zoneStep [] (.get (2 ^ 64 - 1) 0 true)).1 = some ⟨vmapZoneStart, pageSize - 1, 0, 0⟩ := by
    decide +kernel
  refine ⟨hfound, ?_⟩
  intro hmeets
  have hnone := hmeets.1.mpr (not_fitsAt_of_large (by decide))
  rw [hfound] at hnone
  cases hnone

end Lucix.Vm
