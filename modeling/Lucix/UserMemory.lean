import Lucix.PageFault
import Lucix.ProcessTables
import Lucix.MapRange

/-! The leaf entries of all address spaces as one function: what mapping a page does to
it, and how the bits of an entry decide what an access may do. -/
namespace Lucix.Mm
open PageTable FileIo

/-- Every address space has a top-level table of its own, with its own tables below. -/
structure System.Grounded (pages : Nat → Nat) (limit : Nat) (s : System) : Prop where
  tables : ∃ pos, UserTables pages limit s.tables (s.procs.map ProcMm.pgtable) pos
  distinct : (s.procs.map ProcMm.pgtable).Nodup

/-- The leaf entry of an address in the address space with number `k`. -/
def System.leaf (s : System) (k vaddr : Nat) : Nat :=
  match s.procs[k]? with
  | some mm => leafEntry s.tables mm.pgtable vaddr
  | none => 0

/-! ### Bits of an entry -/

def Present (entry : Nat) : Prop := entry &&& presentFlag ≠ 0
def Writable (entry : Nat) : Prop := entry &&& rwFlag ≠ 0
def UserBit (entry : Nat) : Prop := entry &&& userFlag ≠ 0

/-- The bit `PTE_XD` is clear. -/
def Executable (entry : Nat) : Prop := entry &&& 2 ^ 63 = 0

instance (entry : Nat) : Decidable (Present entry) := inferInstanceAs (Decidable (_ ≠ _))
instance (entry : Nat) : Decidable (Writable entry) := inferInstanceAs (Decidable (_ ≠ _))
instance (entry : Nat) : Decidable (UserBit entry) := inferInstanceAs (Decidable (_ ≠ _))
instance (entry : Nat) : Decidable (Executable entry) := inferInstanceAs (Decidable (_ = _))

section bits
variable (physAddr : Nat) (prot : Prot)

theorem pteEntry_or : pteEntry physAddr prot =
    pageFrame (wrap64 physAddr) ||| (presentFlag ||| rwFlag ||| if prot.user then userFlag else 0) := by
  unfold pteEntry
  rw [Nat.or_assoc, Nat.or_assoc, Nat.or_assoc]

theorem pteEntry_writable : Writable (pteEntry physAddr prot) := by
  unfold Writable
  rw [pteEntry_or, frame_or_and _ _ (by decide)]
  cases prot.user <;> decide

theorem pteEntry_userBit : UserBit (pteEntry physAddr prot) ↔ prot.user = true := by
  unfold UserBit
  rw [pteEntry_or, frame_or_and _ _ (by decide)]
  cases prot.user <;> decide

theorem pteEntry_executable : Executable (pteEntry physAddr prot) := by
  unfold Executable
  have hbit : pageFrame (2 ^ 63) = 0 := by decide
  rw [pteEntry_or, frame_or_and _ _ hbit]
  cases prot.user <;> decide

theorem pteEntry_pageFrame : pageFrame (pteEntry physAddr prot) = pageFrame (wrap64 physAddr) := by
  rw [pteEntry_or, pageFrame_or]
  cases prot.user <;> decide

end bits

section mapping
variable {pages : Nat → Nat} {limit : Nat} {s : System} {k phys vaddr : Nat} {mm : ProcMm} {prot : Prot}

theorem pml4FromVa_pageFrame (vaddr : Nat) : pml4FromVa (pageFrame vaddr) = pml4FromVa vaddr :=
  ((pageFrame_eq_iff _ _).mp (pageFrame_pageFrame vaddr)).1

theorem System.leaf_eq (hk : s.procs[k]? = some mm) (vaddr : Nat) :
    s.leaf k vaddr = leafEntry s.tables mm.pgtable vaddr := by
  rw [System.leaf, hk]

/-- Addresses of one page have one leaf entry. -/
theorem System.leaf_congr {vaddr' : Nat} (h : pageFrame vaddr' = pageFrame vaddr) :
    s.leaf k vaddr' = s.leaf k vaddr := by
  obtain ⟨h4, h3, h2, h1⟩ := (pageFrame_eq_iff _ _).mp h
  unfold System.leaf leafEntry vaPath
  rw [h4, h3, h2, h1]

theorem System.Grounded.pgtable_inj (h : s.Grounded pages limit) {k' : Nat} {mm' : ProcMm}
    (hk : s.procs[k]? = some mm) (hk' : s.procs[k']? = some mm') (hsame : mm'.pgtable = mm.pgtable) :
    k' = k := by
  have hlt : k < (s.procs.map ProcMm.pgtable).length := by
    rw [List.length_map]
    exact (List.getElem?_eq_some_iff.mp hk).1
  apply Eq.symm
  apply (List.getElem?_inj hlt h.distinct).mp
  rw [List.getElem?_map, List.getElem?_map, hk, hk']
  exact congrArg some hsame.symm

theorem System.mapPage_eq (pages : Nat → Nat) (s : System) (pgtable phys vaddr : Nat) (prot : Prot) :
    s.mapPage pages pgtable phys vaddr prot =
      some { s with tables := s.tables.setLeaf pages pgtable vaddr (pteEntry phys prot) } := by
  rw [System.mapPage, cpuMmMapPage_eq]
  rfl

theorem System.Grounded.mapPage (hp : Supply pages limit) (h : s.Grounded pages limit)
    (hk : s.procs[k]? = some mm) (huser : pml4FromVa vaddr < 256)
    (hroom : ∀ s' ∈ s.mapPage pages mm.pgtable phys vaddr prot, s'.tables.next ≤ limit) :
    ∃ t, s.mapPage pages mm.pgtable phys vaddr prot = some { s with tables := t } ∧
      ({ s with tables := t } : System).Grounded pages limit ∧
      ∀ k' vaddr', pml4FromVa vaddr' < 256 → ({ s with tables := t } : System).leaf k' vaddr' =
        if k' = k ∧ pageFrame vaddr' = pageFrame vaddr then pteEntry phys prot else s.leaf k' vaddr' := by
  obtain ⟨pos, htables⟩ := h.tables
  have hmap := System.mapPage_eq pages s mm.pgtable phys vaddr prot
  have hpt : mm.pgtable ∈ s.procs.map ProcMm.pgtable :=
    List.mem_map_of_mem (List.mem_of_getElem? hk)
  obtain ⟨pos', htables', hleaf, -⟩ := htables.setLeaf hp hpt huser (hroom _ hmap)
  refine ⟨_, hmap, ⟨⟨pos', htables'⟩, h.distinct⟩, ?_⟩
  intro k' vaddr' huser'
  cases hk' : s.procs[k']? with
  | none =>
      have hne : ¬ (k' = k ∧ pageFrame vaddr' = pageFrame vaddr) := by
        rintro ⟨rfl, -⟩
        rw [hk] at hk'
        contradiction
      simp [System.leaf, hk', hne]
  | some mm' =>
      have hpt' : mm'.pgtable ∈ s.procs.map ProcMm.pgtable :=
        List.mem_map_of_mem (List.mem_of_getElem? hk')
      have hnew : ({ s with tables := s.tables.setLeaf pages mm.pgtable vaddr (pteEntry phys prot) } :
          System).leaf k' vaddr' = leafEntry (s.tables.setLeaf pages mm.pgtable vaddr (pteEntry phys prot))
            mm'.pgtable vaddr' := by
        unfold System.leaf
        dsimp only
        rw [hk']
      rw [hnew, System.leaf_eq hk', hleaf _ hpt' vaddr' huser']
      have hiff : mm'.pgtable = mm.pgtable ↔ k' = k := by
        constructor
        · exact h.pgtable_inj hk hk'
        · rintro rfl
          rw [Option.some.inj (hk'.symm.trans hk)]
      simp only [hiff]

theorem System.leaf_of_frame {s₁ : System} (htables : s₁.tables = s.tables) (hprocs : s₁.procs = s.procs) :
    s₁.leaf = s.leaf := by
  funext k' vaddr
  unfold System.leaf
  rw [htables, hprocs]

/-- The page of an address is mapped by a system that has changed elsewhere. -/
theorem System.Grounded.remap (hp : Supply pages limit) (h : s.Grounded pages limit)
    (hk : s.procs[k]? = some mm) (huser : pml4FromVa vaddr < 256) {s₁ s' : System}
    (htables : s₁.tables = s.tables) (hprocs : s₁.procs = s.procs)
    (hmap : s₁.mapPage pages mm.pgtable phys (pageFrame vaddr) prot = some s')
    (hroom : s'.tables.next ≤ limit) :
    s'.Grounded pages limit ∧ ∀ k' vaddr', pml4FromVa vaddr' < 256 → s'.leaf k' vaddr' =
      if k' = k ∧ pageFrame vaddr' = pageFrame vaddr then pteEntry phys prot else s.leaf k' vaddr' := by
  have hground : s₁.Grounded pages limit := by
    obtain ⟨htab, hdist⟩ := h
    rw [← htables, ← hprocs] at htab
    rw [← hprocs] at hdist
    exact ⟨htab, hdist⟩
  have hroom' : ∀ s'' ∈ s₁.mapPage pages mm.pgtable phys (pageFrame vaddr) prot,
      s''.tables.next ≤ limit := by
    intro s'' hs''
    rw [Option.some.inj (hs''.symm.trans hmap)]
    exact hroom
  obtain ⟨t, hmap', hground', hset⟩ := hground.mapPage hp (by rw [hprocs]; exact hk)
    (by rw [pml4FromVa_pageFrame]; exact huser) hroom'
  obtain rfl := Option.some.inj (hmap.symm.trans hmap')
  refine ⟨hground', ?_⟩
  intro k' vaddr' huser'
  rw [hset k' vaddr' huser', pageFrame_pageFrame, System.leaf_of_frame htables hprocs]

theorem System.Grounded.getPhys (h : s.Grounded pages limit) (hk : s.procs[k]? = some mm)
    (huser : pml4FromVa vaddr < 256) :
    cpuMmGetPhysAddress s.tables mm.pgtable vaddr =
      if s.leaf k vaddr &&& presentFlag = 0 then 0xfff else pageFrame (s.leaf k vaddr) := by
  obtain ⟨pos, htables⟩ := h.tables
  have hpt := htables.roots mm.pgtable (List.mem_map_of_mem (List.mem_of_getElem? hk))
  rw [System.leaf_eq hk]
  exact getPhys_eq htables.owned.labelled hpt (userShape_full _ huser)

theorem System.mapPage_takes {s' : System} {pgtable : Nat}
    (h : s.mapPage pages pgtable phys vaddr prot = some s') : s'.tables.next ≤ s.tables.next + 262657 := by
  obtain ⟨t, hmap, rfl⟩ := Option.map_eq_some_iff.mp h
  have htakes := mapContiguous_takes hmap
  rwa [show pml4FromVa pageSize = 0 by decide, Nat.zero_add, Nat.one_mul] at htakes

end mapping

/-! ### A system with one address space -/

/-- Pages from 2 MiB of physical memory on. -/
def lowFrames : Frames where
  addr := fun k => 0x200000 + k * 0x1000
  page := fun phys =>
    if 0x200000 ≤ phys ∧ phys < 0x200000 + 2 ^ 30 * 0x1000 then some ((phys - 0x200000) / 0x1000) else none

/-- One address space whose table is still empty. -/
def newSpace (areas : List VmArea) (heap : PageHeap) (inodes : List Inode) : System where
  tables := ⟨fun _ _ => 0, 1⟩
  heap := heap
  freed := fun _ => false
  procs := [⟨lowPages 0, areas⟩]
  inodes := inodes

section newSpace
variable (areas : List VmArea) (heap : PageHeap) (inodes : List Inode)

theorem newSpace_grounded : (newSpace areas heap inodes).Grounded lowPages (2 ^ 30) := by
  refine ⟨⟨Function.update (fun _ => none) (lowPages 0) (some (lowPages 0, [])), ⟨⟨⟨?_, ?_⟩, ?_⟩, ?_⟩⟩,
    List.nodup_singleton _⟩
  · intro u q hu
    by_cases hroot : u = lowPages 0
    · rw [hroot]
      exact lowPages_supply.valid 0 (Nat.two_pow_pos 30)
    · simp [hroot] at hu
  · intro u q i _ _
    left
    simp [newSpace, entryFormat]
  · intro u q hu k hk hlt hsame
    by_cases hroot : u = lowPages 0
    · have hk' : 1 ≤ k := hk
      have := lowPages_supply.different 0 (Nat.two_pow_pos 30) k hlt (hroot.symm.trans hsame)
      omega
    · simp [hroot] at hu
  · intro pt hpt
    obtain rfl : pt = lowPages 0 := List.mem_singleton.mp hpt
    rw [Function.update_self]

theorem newSpace_leaf (k vaddr : Nat) : (newSpace areas heap inodes).leaf k vaddr = 0 := by
  unfold System.leaf
  split
  · exact RadixTable.leaf_cons_none (by simp [newSpace, entryFormat])
  · rfl

end newSpace

end Lucix.Mm
