import Lucix.PrivateMaps

/-! The slots of `f_map->pages` that page faults and `vma_populate` use. Neither of them
compares the index with the number of pages of the file, so an area that is longer than
the file leads them behind the end of the array. -/
namespace Lucix.Mm
open PageTable FileIo

/-- Why a call does not come to its end: it uses a slot that is not there, or anything else for which
the model has no next state. -/
inductive SlotFault where
  | wild (i : Nat)
  | stuck
  deriving DecidableEq, Repr

/-- The read of `f_map->pages[i]`. -/
def readSlot (map : PageMapping) (i : Nat) : Except SlotFault (Option Nat) :=
  if i < slotCount map then .ok map.pages[i]?.join else .error (.wild i)

/-- The mapping `vma->file->inode->f_map`. -/
def System.fMap (s : System) (vma : VmArea) : Except SlotFault PageMapping :=
  match vma.file.bind fun file => s.inodes[file.ino]? with
  | some ino => .ok ino.fMap
  | none => .error .stuck

/-- The rest of `ramfs_vma_fault` for a page that is present: the value of `vm_fault->new_page`. -/
def ramfsVmaFaultPage (s : System) (vma : VmArea) (flags : FaultFlags) (page : Nat) : Option Nat × System :=
  if flags.protection then
    if flags.write && vma.prot.mayWrite then
      if vma.flags.priv then
        let (newPage, s) := s.allocPage
        (some newPage, ((s.pageRef newPage).pageUnref page).copyPage newPage page)
      else (some page, s.pageRef page)
    else (none, s)
  else (some page, s.pageRef page)

/-- The function `ramfs_vma_fault` with what it returns. -/
def ramfsVmaFaultRun (s : System) (vma : VmArea) (addr : Nat) (flags : FaultFlags) :
    Except SlotFault (Nat × Option Nat × System) :=
  (s.fMap vma).bind fun map => (readSlot map (pgoffset vma addr + vma.fpgOff)).bind fun slot =>
    match slot with
    | none => .ok (1, none, s)
    | some page => .ok (0, ramfsVmaFaultPage s vma flags page)

/-- A step of the model that has no next state. -/
def orStuck {α : Type} : Option α → Except SlotFault α
  | some a => .ok a
  | none => .error .stuck

section populate
variable (pages : Nat → Nat) (frames : Frames)

/-- The body of the loop of `vma_populate`. For a file it reads a slot first; the store, if there is
one, goes to the same slot. -/
def populatePageRun (pgtable : Nat) (vma : VmArea) (s : System) (i : Nat) : Except SlotFault System :=
  if vma.flags.anon then orStuck (populateBody pages frames pgtable vma s i)
  else (s.fMap vma).bind fun map => (readSlot map (i + vma.fpgOff)).bind fun _ =>
    orStuck (populateBody pages frames pgtable vma s i)

def populateRun (pgtable : Nat) (vma : VmArea) : Nat → System → Except SlotFault System
  | 0, s => .ok s
  | n + 1, s => (populateRun pgtable vma n s).bind fun s => populatePageRun pages frames pgtable vma s n

/-- The function `vma_populate`. Its counter and `i * PAGE_SIZE` are of type `int`, which no array is
long enough to overflow. -/
def vmaPopulateRun (s : System) (pgtable : Nat) (vma : VmArea) : Except SlotFault System :=
  populateRun pages frames pgtable vma (vma.length / pageSize) s

end populate

/-- Slot `i` holds a page of the file. -/
def IsPage (map : PageMapping) (i : Nat) : Prop := i < map.nrPages ∧ ∃ p, map.pages[i]? = some (some p)

/-- Faults in the area and `vma_populate` use only slots that are there, and a fault at a page that
the file does not have is an error. -/
structure FaultsInside (pages : Nat → Nat) (frames : Frames) (s : System) (vma : VmArea)
    (map : PageMapping) : Prop where
  fault : ∀ addr flags, vma.Contains addr → ∀ i, ramfsVmaFaultRun s vma addr flags ≠ .error (.wild i)
  missing : ∀ addr flags, vma.Contains addr →
    ¬ IsPage map ((addr - vma.start) / pageSize + vma.fpgOff) →
      ∃ ret newPage s', ramfsVmaFaultRun s vma addr flags = .ok (ret, newPage, s') ∧ ret ≠ 0
  populate : ∀ pgtable i, vmaPopulateRun pages frames s pgtable vma ≠ .error (.wild i)

/-- The system after `vma_populate` has put a new page into an empty slot. -/
def System.fillSlot (s : System) (file : File) (ino : Inode) (i : Nat) : System :=
  let s₁ := s.allocPage.2
  { s₁ with
    heap := s₁.heap.setPage s.heap.next { s₁.heap.pages s.heap.next with flags := pageUsageCache }
    inodes := s.inodes.set file.ino { ino with fMap := ino.fMap.withPage i s.heap.next } }

section slots
variable {pages : Nat → Nat} {frames : Frames} {s s' : System} {vma : VmArea} {map : PageMapping}
  {file : File} {ino : Inode} {addr i n pgtable : Nat} {flags : FaultFlags}

theorem ok_bind {α β : Type} (a : α) (f : α → Except SlotFault β) : (Except.ok a).bind f = f a := rfl

theorem error_bind {α β : Type} (e : SlotFault) (f : α → Except SlotFault β) :
    (Except.error e).bind f = .error e := rfl

theorem readSlot_in (hi : i < slotCount map) : readSlot map i = .ok map.pages[i]?.join := if_pos hi

theorem readSlot_out (hi : ¬ i < slotCount map) : readSlot map i = .error (.wild i) := if_neg hi

theorem fMap_eq (hfile : vma.file = some file) (hino : s.inodes[file.ino]? = some ino) :
    s.fMap vma = .ok ino.fMap := by
  rw [System.fMap, hfile, Option.bind_some, hino]

/-! ### Faults -/

theorem ramfsVmaFaultRun_out (hmap : s.fMap vma = .ok map)
    (hi : ¬ pgoffset vma addr + vma.fpgOff < slotCount map) :
    ramfsVmaFaultRun s vma addr flags = .error (.wild (pgoffset vma addr + vma.fpgOff)) := by
  rw [ramfsVmaFaultRun, hmap, ok_bind, readSlot_out hi, error_bind]

theorem ramfsVmaFaultRun_in (hmap : s.fMap vma = .ok map)
    (hi : pgoffset vma addr + vma.fpgOff < slotCount map) :
    ramfsVmaFaultRun s vma addr flags =
      match map.pages[pgoffset vma addr + vma.fpgOff]?.join with
      | none => .ok (1, none, s)
      | some page => .ok (0, ramfsVmaFaultPage s vma flags page) := by
  rw [ramfsVmaFaultRun, hmap, ok_bind, readSlot_in hi, ok_bind]

theorem ramfsVmaFault_eq (s : System) (vma : VmArea) (addr : Nat) (flags : FaultFlags) :
    ramfsVmaFault s vma addr flags =
      (s.cacheSlot vma (pgoffset vma addr)).join.map (ramfsVmaFaultPage s vma flags) := by
  rw [ramfsVmaFault]
  rcases s.cacheSlot vma (pgoffset vma addr) with _ | _ | page
  · rfl
  · rfl
  · rw [Option.bind_some, Option.bind_some, Option.join_some, Option.map_some, ramfsVmaFaultPage]
    split_ifs <;> rfl

theorem ramfsVmaFaultRun_refines (hfile : vma.file = some file) (hino : s.inodes[file.ino]? = some ino)
    (hi : pgoffset vma addr + vma.fpgOff < slotCount ino.fMap) (newPage : Option Nat) :
    ramfsVmaFaultRun s vma addr flags = .ok (0, newPage, s') ↔
      ramfsVmaFault s vma addr flags = some (newPage, s') := by
  rw [ramfsVmaFaultRun_in (fMap_eq hfile hino) hi, ramfsVmaFault_eq, cacheSlot_eq hfile hino]
  cases ino.fMap.pages[pgoffset vma addr + vma.fpgOff]?.join with
  | none => simp
  | some page => simp

/-! ### Populating -/

theorem populateSlot_some {p : Nat} (hfile : vma.file = some file) (hino : s.inodes[file.ino]? = some ino)
    (hslot : ino.fMap.pages[i + vma.fpgOff]? = some (some p)) : s.populateSlot vma i = some (p, s) := by
  rw [System.populateSlot, hfile, Option.bind_some, hino, Option.bind_some, hslot, Option.bind_some]

theorem populateSlot_none (hfile : vma.file = some file) (hino : s.inodes[file.ino]? = some ino)
    (hslot : ino.fMap.pages[i + vma.fpgOff]? = some none) :
    s.populateSlot vma i = some (s.heap.next, s.fillSlot file ino (i + vma.fpgOff)) := by
  have hlt : i + vma.fpgOff < ino.fMap.pages.length := (List.getElem?_eq_some_iff.mp hslot).1
  rw [System.populateSlot, hfile, Option.bind_some, hino, Option.bind_some, hslot, Option.bind_some]
  dsimp only [System.allocPage, PageHeap.allocPage]
  rw [PageMapping.setPage, if_pos hlt]
  rfl

theorem populateSlot_in (hfile : vma.file = some file) (hino : s.inodes[file.ino]? = some ino)
    (hi : i + vma.fpgOff < ino.fMap.pages.length) :
    ∃ p s₁ ino', s.populateSlot vma i = some (p, s₁) ∧ s₁.inodes[file.ino]? = some ino' ∧
      ino'.fMap.nrPages = ino.fMap.nrPages ∧ ino'.fMap.pages.length = ino.fMap.pages.length := by
  have hlt : file.ino < s.inodes.length := (List.getElem?_eq_some_iff.mp hino).1
  have hslot := List.getElem?_eq_getElem hi
  cases hpage : ino.fMap.pages[i + vma.fpgOff] with
  | some p =>
      rw [hpage] at hslot
      exact ⟨p, s, ino, populateSlot_some hfile hino hslot, hino, rfl, rfl⟩
  | none =>
      rw [hpage] at hslot
      exact ⟨_, _, _, populateSlot_none hfile hino hslot, List.getElem?_set_self hlt, rfl, List.length_set⟩

theorem populateBody_file (frames : Frames) {p : Nat} {s₁ : System} (hanon : vma.flags.anon = false)
    (hslot : s.populateSlot vma i = some (p, s₁)) :
    populateBody pages frames pgtable vma s i =
      (s₁.pageRef p).mapPage pages pgtable 0 (pageFrame (vma.pageAddr i)) vma.prot := by
  rw [populateBody, hanon, hslot]
  rfl

theorem populatePageRun_in (hfile : vma.file = some file) (hino : s.inodes[file.ino]? = some ino)
    (hanon : vma.flags.anon = false) (hi : i + vma.fpgOff < slotCount ino.fMap) :
    ∃ s' ino', populatePageRun pages frames pgtable vma s i = .ok s' ∧
      s'.inodes[file.ino]? = some ino' ∧ slotCount ino'.fMap = slotCount ino.fMap := by
  obtain ⟨p, s₁, ino', hslot, hino', hcount, hlen⟩ :=
    populateSlot_in hfile hino (Nat.lt_of_lt_of_le hi (Nat.min_le_right _ _))
  have hstep := (populateBody_file frames hanon hslot).trans
    (System.mapPage_eq pages (s₁.pageRef p) pgtable 0 (pageFrame (vma.pageAddr i)) vma.prot)
  obtain ⟨s', hcall, hinodes⟩ : ∃ s', populateBody pages frames pgtable vma s i = some s' ∧
      s'.inodes = s₁.inodes := ⟨_, hstep, rfl⟩
  refine ⟨s', ino', ?_, by rw [hinodes]; exact hino', by rw [slotCount, hcount, hlen, slotCount]⟩
  rw [populatePageRun, hanon, if_neg Bool.false_ne_true, fMap_eq hfile hino, ok_bind, readSlot_in hi, ok_bind,
    hcall, orStuck]

theorem orStuck_eq_ok {α : Type} {o : Option α} {a : α} (h : orStuck o = .ok a) : o = some a := by
  cases o with
  | none => contradiction
  | some b => rw [Except.ok.inj h]

theorem populatePageRun_refines (h : populatePageRun pages frames pgtable vma s i = .ok s') :
    populateBody pages frames pgtable vma s i = some s' := by
  rw [populatePageRun] at h
  split_ifs at h with hanon
  · exact orStuck_eq_ok h
  · cases hmap : s.fMap vma with
    | error e =>
        rw [hmap, error_bind] at h
        contradiction
    | ok map =>
        rw [hmap, ok_bind] at h
        cases hslot : readSlot map (i + vma.fpgOff) with
        | error e =>
            rw [hslot, error_bind] at h
            contradiction
        | ok slot =>
            rw [hslot, ok_bind] at h
            exact orStuck_eq_ok h

theorem populatePageRun_out (hfile : vma.file = some file) (hino : s.inodes[file.ino]? = some ino)
    (hanon : vma.flags.anon = false) (hi : ¬ i + vma.fpgOff < slotCount ino.fMap) :
    populatePageRun pages frames pgtable vma s i = .error (.wild (i + vma.fpgOff)) := by
  rw [populatePageRun, hanon, if_neg Bool.false_ne_true, fMap_eq hfile hino, ok_bind, readSlot_out hi,
    error_bind]

theorem populateRun_in (hfile : vma.file = some file) (hino : s.inodes[file.ino]? = some ino)
    (hanon : vma.flags.anon = false) (hall : ∀ i < n, i + vma.fpgOff < slotCount ino.fMap) :
    ∃ s' ino', populateRun pages frames pgtable vma n s = .ok s' ∧
      s'.inodes[file.ino]? = some ino' ∧ slotCount ino'.fMap = slotCount ino.fMap := by
  induction n with
  | zero => exact ⟨s, ino, rfl, hino, rfl⟩
  | succ n ih =>
      obtain ⟨s₁, ino₁, hrun, hino₁, hcount₁⟩ := ih fun i hi => hall i (by omega)
      obtain ⟨s', ino', hstep, hino', hcount⟩ := @populatePageRun_in pages frames s₁ vma file ino₁ n
        pgtable hfile hino₁ hanon (by rw [hcount₁]; exact hall n (Nat.lt_succ_self n))
      refine ⟨s', ino', ?_, hino', hcount.trans hcount₁⟩
      rw [populateRun, hrun, ok_bind, hstep]

theorem populateRun_out (hfile : vma.file = some file) (hino : s.inodes[file.ino]? = some ino)
    (hanon : vma.flags.anon = false) (hout : ¬ ∀ i < n, i + vma.fpgOff < slotCount ino.fMap) :
    ∃ j, populateRun pages frames pgtable vma n s = .error (.wild j) := by
  induction n with
  | zero => exact absurd (fun i hi => absurd hi (Nat.not_lt_zero i)) hout
  | succ n ih =>
      by_cases hall : ∀ i < n, i + vma.fpgOff < slotCount ino.fMap
      · have hlast : ¬ n + vma.fpgOff < slotCount ino.fMap := by
          intro hn
          apply hout
          intro i hi
          rcases Nat.lt_succ_iff_lt_or_eq.mp hi with hlt | rfl
          · exact hall i hlt
          · exact hn
        obtain ⟨s₁, ino₁, hrun, hino₁, hcount₁⟩ :=
          @populateRun_in pages frames s vma file ino n pgtable hfile hino hanon hall
        refine ⟨n + vma.fpgOff, ?_⟩
        rw [populateRun, hrun, ok_bind]
        exact populatePageRun_out hfile hino₁ hanon (by rw [hcount₁]; exact hlast)
      · obtain ⟨j, hrun⟩ := ih hall
        refine ⟨j, ?_⟩
        rw [populateRun, hrun, error_bind]

/-- In the first `2 ^ 19` iterations the product has room in an `int`. -/
theorem populatePage_eq (hi : i < 2 ^ 19) :
    populatePage pages frames pgtable vma s i = populateBody pages frames pgtable vma s i :=
  if_pos (by rw [pageSize]; omega)

theorem populateRun_refines (hn : n ≤ 2 ^ 19) (h : populateRun pages frames pgtable vma n s = .ok s') :
    populatePages pages frames pgtable vma n s = some s' := by
  induction n generalizing s' with
  | zero =>
      rw [populateRun, Except.ok.injEq] at h
      rw [populatePages, h]
  | succ n ih =>
      rw [populateRun] at h
      cases hrun : populateRun pages frames pgtable vma n s with
      | error e =>
          rw [hrun, error_bind] at h
          contradiction
      | ok s₁ =>
          rw [hrun, ok_bind] at h
          rw [populatePages, ih (by omega) hrun, Option.bind_some, populatePage_eq hn]
          exact populatePageRun_refines h

end slots

/-- Faults and `vma_populate` stay inside the pages of a mapped file exactly when its area does. -/
theorem faults_inside_iff (pages : Nat → Nat) (frames : Frames) (s : System) (vma : VmArea) (file : File)
    (ino : Inode) (hfile : vma.file = some file) (hino : s.inodes[file.ino]? = some ino)
    (hanon : vma.flags.anon = false) (hend : vma.endAddr < 2 ^ 64) :
    FaultsInside pages frames s vma ino.fMap ↔ AreaInside vma ino.fMap := by
  have hmap := fMap_eq hfile hino
  have hoff : ∀ addr, vma.Contains addr → pgoffset vma addr = (addr - vma.start) / pageSize := by
    rintro addr ⟨hge, hlt⟩
    rw [pgoffset, sub64_of_le hge (by omega)]
  constructor
  · intro h
    constructor
    · intro hlt
      by_contra hout
      have hin : vma.Contains (vma.endAddr - 1) := ⟨by omega, by omega⟩
      rw [← hoff _ hin] at hout
      exact h.fault _ ⟨false, false, true, false⟩ hin _ (ramfsVmaFaultRun_out hmap hout)
    · intro hpos
      by_contra hout
      obtain ⟨j, hrun⟩ := @populateRun_out pages frames s vma file ino (vma.length / pageSize) 0 hfile hino
        hanon fun hall => hout (hall _ (by omega))
      exact h.populate 0 j hrun
  · rintro ⟨harea, hlength⟩
    have hin : ∀ addr, vma.Contains addr → pgoffset vma addr + vma.fpgOff < slotCount ino.fMap := by
      intro addr haddr
      have hlast := harea (by have := haddr.1; have := haddr.2; omega)
      have hle : (addr - vma.start) / pageSize ≤ (vma.endAddr - 1 - vma.start) / pageSize :=
        Nat.div_le_div_right (by have := haddr.2; omega)
      rw [hoff addr haddr]
      omega
    refine ⟨?_, ?_, ?_⟩
    · intro addr flags haddr i hwild
      rw [ramfsVmaFaultRun_in hmap (hin addr haddr)] at hwild
      split at hwild <;> contradiction
    · intro addr flags haddr hmissing
      have hslot := hin addr haddr
      rw [← hoff addr haddr] at hmissing
      refine ⟨1, none, s, ?_, Nat.one_ne_zero⟩
      rw [ramfsVmaFaultRun_in hmap hslot]
      cases hpage : ino.fMap.pages[pgoffset vma addr + vma.fpgOff]?.join with
      | none => rfl
      | some p =>
          refine absurd ⟨Nat.lt_of_lt_of_le hslot (Nat.min_le_left _ _), p, ?_⟩ hmissing
          exact Option.join_eq_some_iff.mp hpage
    · intro pgtable i hwild
      have hall : ∀ i < vma.length / pageSize, i + vma.fpgOff < slotCount ino.fMap := by
        intro i hi
        have hlast := hlength (by omega)
        omega
      obtain ⟨s', -, hrun, -⟩ := @populateRun_in pages frames s vma file ino (vma.length / pageSize) pgtable
        hfile hino hanon hall
      rw [vmaPopulateRun, hrun] at hwild
      contradiction

/-- One page of a file with one page. -/
theorem faults_inside_one_page :
    FaultsInside lowPages lowFrames (oneFile []) (privateCall.area []) onePage.fMap := by
  rw [privateCall_area]
  exact (faults_inside_iff lowPages lowFrames (oneFile []) _ ⟨1, 0, some .ramfs⟩ onePage rfl rfl rfl
    (by decide)).mpr (by decide)

/-- A mapping of two pages of that file. -/
def longCall : MmapCall :=
  { privateCall with length := 0x2000, length_pos := by decide, length_lt := by decide }

/-- A fault at the second page reads behind the only slot of the array. -/
theorem fault_behind_file_wild : ¬ ∀ (s : System) (c : MmapCall) (areas : List VmArea) (file : File) (ino : Inode),
    c.file = some file → file.mmap = some .ramfs → s.inodes[file.ino]? = some ino →
      ino.fMap.nrPages = ino.fMap.pages.length → c.flags.anon = false →
        FaultsInside lowPages lowFrames s (c.area areas) ino.fMap := by
  intro h
  have hinside := h (oneFile []) longCall [] ⟨1, 0, some .ramfs⟩ onePage rfl rfl rfl rfl rfl
  have hin : (longCall.area []).Contains 0x401000 := by decide +kernel
  have hout : ¬ pgoffset (longCall.area []) 0x401000 + (longCall.area []).fpgOff < slotCount onePage.fMap := by
    decide +kernel
  exact hinside.fault 0x401000 ⟨false, false, true, false⟩ hin _ (ramfsVmaFaultRun_out rfl hout)

end Lucix.Mm
