import Lucix.JoinAreas

/-! Two runs of `do_mmap` that differ in the old contents of the object that
`mem_cache_alloc_obj` returns. The object is not cleared: `vm_ops` is only stored by the
`mmap` operation of a file, and `start` and `end` are left as they are when no place is
found. A run that makes `try_join` visit a removed node returns no address. -/
namespace Lucix.Mm
open PageTable

/-- The arguments of `do_mmap`. -/
structure MmapArgs where
  file : Option File
  addr : Nat
  length : Nat
  prot : Prot
  flags : VmFlags
  type : Nat
  pgoff : Nat
  deriving DecidableEq, Repr

namespace MmapArgs

/-- The value of `num_pages * PAGE_SIZE`. -/
def rounded (a : MmapArgs) : Nat :=
  wrap64 ((a.length / pageSize + if a.length % pageSize ≠ 0 then 1 else 0) * pageSize)

def storedProt (a : MmapArgs) : Prot :=
  if a.prot.write then
    if a.flags.priv then { a.prot with write := false, mayWrite := true } else a.prot
  else a.prot

/-- What is stored in `start` and `end`, if anything is. -/
def place (a : MmapArgs) (areas : List VmArea) : Option (Nat × Nat) :=
  if a.addr ≠ 0 ∧ isValidVaddrForVma areas a.addr a.rounded = true then
    some (a.addr, wrap64 (a.addr + a.rounded))
  else cpuAssignVmaVaddr areas a.rounded

/-- What is stored in `vm_ops`, if anything is. -/
def vmOps (a : MmapArgs) : Option VmOps := a.file.bind File.mmap

/-- The area with all its fields stored. -/
def stored (a : MmapArgs) (place : Nat × Nat) (ops : VmOps) : VmArea where
  start := place.1
  endAddr := place.2
  length := a.length
  prot := a.storedProt
  flags := a.flags
  file := a.file
  type := a.type
  fpgOff := a.pgoff
  vmOps := ops

/-- The object as it is inserted. -/
def fill (a : MmapArgs) (areas : List VmArea) (object : VmArea) : VmArea :=
  a.stored ((a.place areas).getD (object.start, object.endAddr)) (a.vmOps.getD object.vmOps)

end MmapArgs

/-- The function `do_mmap` up to `vma_populate`, which changes neither the list nor the address. -/
def mmapInto (areas : List VmArea) (a : MmapArgs) (object : VmArea) : Option (Nat × List VmArea) :=
  match insertVma areas (a.fill areas object) with
  | (areas', none) => some ((a.fill areas object).start, areas')
  | (_, some _) => none

def MmapCall.args (c : MmapCall) : MmapArgs := ⟨c.file, c.addr, c.length, c.prot, c.flags, c.type, c.pgoff⟩

theorem fill_args (areas : List VmArea) (c : MmapCall) : c.args.fill areas c.object = c.area areas := by
  have hplace : (c.args.place areas).getD (c.object.start, c.object.endAddr) = c.place areas := by
    unfold MmapArgs.place MmapCall.place
    by_cases hhint : c.addr ≠ 0 ∧ isValidVaddrForVma areas c.addr c.rounded = true
    · rw [if_pos hhint]
      exact congrArg (Option.getD · _) (if_pos hhint)
    · rw [if_neg hhint]
      exact congrArg (Option.getD · _) (if_neg hhint)
  rw [MmapArgs.fill, hplace]
  rfl

/-- The two descriptions of `do_mmap` agree. -/
theorem mmapInto_args (areas : List VmArea) (c : MmapCall) :
    mmapInto areas c.args c.object = mapArea areas c := by
  rw [mmapInto, fill_args]
  rfl

/-- The call does not depend on what the object held: any two runs return the same address and leave
the same areas, and a new area without a file has no operations of a file system. -/
structure StaleFree (areas : List VmArea) (a : MmapArgs) : Prop where
  same : ∀ object object' : VmArea, ∃ addr areas',
    mmapInto areas a object = some (addr, areas') ∧ mmapInto areas a object' = some (addr, areas')
  anonymous : ∀ object addr areas', mmapInto areas a object = some (addr, areas') →
    ∀ area ∈ areas', area ∉ areas → area.file = none → area.vmOps = .null

/-- A place and the operations are stored, and nothing is joined. -/
def Determined (areas : List VmArea) (a : MmapArgs) : Prop :=
  ∃ place ops, a.place areas = some place ∧ a.vmOps = some ops ∧
    NoneJoin (insertSorted (a.stored place ops) areas)

section
variable {areas : List VmArea} {a : MmapArgs}

/-- The loop of `try_join` stays on the list exactly when it joins nothing. -/
theorem tryJoin_stays_iff : (tryJoin areas).2 = none ↔ NoneJoin areas := by
  induction areas with
  | nil => exact iff_of_true rfl List.isChain_nil
  | cons current rest ih =>
      cases rest with
      | nil => exact iff_of_true rfl (List.isChain_singleton _)
      | cons next rest =>
          have hchain : NoneJoin (current :: next :: rest) ↔ ¬ current.Joins next ∧ NoneJoin (next :: rest) :=
            List.isChain_cons_cons
          rw [tryJoin, hchain, ← ih]
          by_cases hjoins : current.Joins next
          · simp [hjoins]
          · simp [hjoins]

theorem insertVma_eq (areas : List VmArea) (vma : VmArea) :
    insertVma areas vma = tryJoin (insertSorted vma areas) := by
  rw [insertVma]
  split_ifs with hnil
  · subst hnil
    rfl
  · rfl

theorem mmapInto_eq_iff {object : VmArea} {addr : Nat} {areas' : List VmArea} :
    mmapInto areas a object = some (addr, areas') ↔
      NoneJoin (insertSorted (a.fill areas object) areas) ∧ addr = (a.fill areas object).start ∧
        areas' = insertSorted (a.fill areas object) areas := by
  rw [mmapInto, insertVma_eq, ← tryJoin_stays_iff]
  cases hjoin : tryJoin (insertSorted (a.fill areas object) areas) with
  | mk joined removed =>
      cases removed with
      | some area => simp
      | none =>
          obtain rfl := tryJoin_none hjoin
          simp [eq_comm]

/-- The list tells which area was inserted. -/
theorem insertSorted_inj {vma vma' : VmArea} (hstart : vma.start = vma'.start)
    (h : insertSorted vma areas = insertSorted vma' areas) : vma = vma' := by
  induction areas with
  | nil => exact List.singleton_inj.mp h
  | cons area rest ih =>
      rw [insertSorted, insertSorted, ← hstart] at h
      split_ifs at h
      · exact (List.cons.inj h).1
      · exact ih (List.cons.inj h).2

theorem fill_start_of_none (hplace : a.place areas = none) (object : VmArea) :
    (a.fill areas object).start = object.start := by
  rw [MmapArgs.fill, hplace]
  rfl

theorem fill_vmOps_of_none (hops : a.vmOps = none) (object : VmArea) :
    (a.fill areas object).vmOps = object.vmOps := by
  rw [MmapArgs.fill, hops]
  rfl

theorem fill_eq {place : Nat × Nat} {ops : VmOps} (hplace : a.place areas = some place) (hops : a.vmOps = some ops)
    (object : VmArea) : a.fill areas object = a.stored place ops := by
  rw [MmapArgs.fill, hplace, hops]
  rfl

theorem StaleFree.place_some (h : StaleFree areas a) : ∃ place, a.place areas = some place := by
  by_contra hnone
  have hplace : a.place areas = none := by simpa [Option.eq_none_iff_forall_ne_some] using hnone
  let object : VmArea := a.stored (0, 0) .null
  obtain ⟨addr, areas', hfirst, hsecond⟩ := h.same object { object with start := 1 }
  have hzero := (mmapInto_eq_iff.mp hfirst).2.1
  have hone := (mmapInto_eq_iff.mp hsecond).2.1
  rw [fill_start_of_none hplace] at hzero hone
  cases hzero.symm.trans hone

theorem StaleFree.vmOps_some (h : StaleFree areas a) : ∃ ops, a.vmOps = some ops := by
  by_contra hnone
  have hops : a.vmOps = none := by simpa [Option.eq_none_iff_forall_ne_some] using hnone
  let object : VmArea := a.stored (0, 0) .null
  obtain ⟨addr, areas', hfirst, hsecond⟩ := h.same object { object with vmOps := .ramfs }
  obtain ⟨-, hstart, hlist⟩ := mmapInto_eq_iff.mp hfirst
  obtain ⟨-, hstart', hlist'⟩ := mmapInto_eq_iff.mp hsecond
  have hsame := congrArg VmArea.vmOps (insertSorted_inj (hstart.symm.trans hstart') (hlist.symm.trans hlist'))
  rw [fill_vmOps_of_none hops, fill_vmOps_of_none hops] at hsame
  cases hsame

end

/-- The call does not depend on the object exactly when a place is found, the file stores its
operations, and nothing is joined. -/
theorem mmap_stale_free_iff (areas : List VmArea) (a : MmapArgs) : StaleFree areas a ↔ Determined areas a := by
  constructor
  · intro h
    obtain ⟨place, hplace⟩ := h.place_some
    obtain ⟨ops, hops⟩ := h.vmOps_some
    obtain ⟨addr, areas', hrun, -⟩ := h.same (a.stored place ops) (a.stored place ops)
    have hnone := (mmapInto_eq_iff.mp hrun).1
    rw [fill_eq hplace hops] at hnone
    exact ⟨place, ops, hplace, hops, hnone⟩
  · rintro ⟨place, ops, hplace, hops, hnone⟩
    have hrun : ∀ object, mmapInto areas a object =
        some (place.1, insertSorted (a.stored place ops) areas) := by
      intro object
      rw [mmapInto_eq_iff, fill_eq hplace hops]
      exact ⟨hnone, rfl, rfl⟩
    refine ⟨fun object object' => ⟨_, _, hrun object, hrun object'⟩, ?_⟩
    intro object addr areas' hcall area harea hnew hfile
    obtain ⟨-, rfl⟩ := Prod.mk.inj (Option.some.inj ((hrun object).symm.trans hcall))
    rcases mem_insertSorted.mp harea with rfl | hold
    · -- the new area has the file that stored its operations
      have hnofile : a.file = none := hfile
      rw [MmapArgs.vmOps, hnofile] at hops
      cases hops
    · exact absurd hold hnew

/-- An anonymous mapping of one page at a hint. -/
def anonymousArgs : MmapArgs :=
  ⟨none, 0x400000, 0x1000, ⟨true, true, false, true, false, 0⟩, ⟨true, true, false, 0⟩, 0, 0⟩

/-- An anonymous area takes the operations of the area whose object it reuses. -/
theorem anonymous_area_keeps_operations :
    (mmapInto [] anonymousArgs (anonymousArgs.stored (0, 0) .ramfs)).map Prod.snd =
      some [anonymousArgs.stored (0x400000, 0x401000) .ramfs] ∧
    ¬ ∀ (areas : List VmArea) (a : MmapArgs), StaleFree areas a := by
  have hrun : (mmapInto [] anonymousArgs (anonymousArgs.stored (0, 0) .ramfs)).map Prod.snd =
      some [anonymousArgs.stored (0x400000, 0x401000) .ramfs] := by decide +kernel
  refine ⟨hrun, fun hall => ?_⟩
  obtain ⟨⟨addr, areas'⟩, hcall, hsnd⟩ := Option.map_eq_some_iff.mp hrun
  obtain rfl : areas' = [anonymousArgs.stored (0x400000, 0x401000) .ramfs] := hsnd
  have hops := (hall [] anonymousArgs).anonymous _ _ _ hcall _ List.mem_cons_self List.not_mem_nil rfl
  cases hops

end Lucix.Mm
