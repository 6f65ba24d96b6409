import Lucix.UserMemory

/-! What a page fault does to the leaf entry of its page, against what the area allows.
`map_contiguous` sets the write bit of every entry and never sets `PTE_XD`, and the
handlers do not look at what kind of access a missing page was touched with. -/
namespace Lucix.Mm
open PageTable FileIo

/-- The area allows the access that the flags describe. -/
def Allows (prot : Prot) (flags : FaultFlags) : Prop :=
  (flags.write = true → prot.write = true ∨ prot.mayWrite = true) ∧
    (flags.instruction = true → prot.exec = true) ∧ (flags.usr = true → prot.user = true) ∧
    (flags.write = false → flags.instruction = false → prot.read = true)

instance (prot : Prot) (flags : FaultFlags) : Decidable (Allows prot flags) :=
  inferInstanceAs (Decidable (_ ∧ _))

/-- No other address space maps the frame. -/
def System.Alone (s : System) (k frame : Nat) : Prop :=
  ∀ k' vaddr, k' ≠ k → pml4FromVa vaddr < 256 → Present (s.leaf k' vaddr) →
    pageFrame (s.leaf k' vaddr) ≠ frame

/-- The leaf entry is present, permits the access, and grants no more than the area. -/
structure Resolved (s : System) (k addr : Nat) (prot : Prot) (flags : FaultFlags) : Prop where
  present : Present (s.leaf k addr)
  write : flags.write = true → Writable (s.leaf k addr)
  fetch : flags.instruction = true → Executable (s.leaf k addr)
  usr : flags.usr = true → UserBit (s.leaf k addr)
  writeOnly : Writable (s.leaf k addr) →
    prot.write = true ∨ prot.mayWrite = true ∧ s.Alone k (pageFrame (s.leaf k addr))
  execOnly : Executable (s.leaf k addr) → prot.exec = true
  userOnly : UserBit (s.leaf k addr) → prot.user = true

/-- A fault at an address of an anonymous or ramfs area, described as the hardware does. The
entry was written by `cpu_mm_map_page` if it is present, and no table maps the page that
`alloc_pages` hands out next. -/
structure Faulting (pages : Nat → Nat) (frames : Frames) (limit : Nat) (s : System) (k addr : Nat)
    (flags : FaultFlags) (mm : ProcMm) (vma : VmArea) : Prop where
  grounded : s.Grounded pages limit
  space : s.procs[k]? = some mm
  area : findVmaForAddress addr mm.vmAreas = some vma
  kind : vma.vmOps = .null ∨ vma.vmOps = .ramfs
  low : pml4FromVa addr < 256
  consistent : flags.protection = true ↔ Present (s.leaf k addr)
  installed : Present (s.leaf k addr) → ∃ phys prot, s.leaf k addr = pteEntry phys prot
  unused : ∀ k' vaddr, pml4FromVa vaddr < 256 → Present (s.leaf k' vaddr) →
    pageFrame (s.leaf k' vaddr) ≠ pageFrame (wrap64 (frames s.heap.next))
  room : ∀ s' ∈ kernelPageFault pages frames s k addr flags, s'.tables.next ≤ limit

/-! ### The handlers -/

section handlers
variable {pages : Nat → Nat} {frames : Frames} {limit : Nat} {s s₁ : System} {pgtable k addr : Nat}
  {flags : FaultFlags} {mm : ProcMm} {vma : VmArea} {newPage : Option Nat}

/-- The system after `anonymous_page_handler` has copied a page. -/
def System.anonymousCopy (s : System) (page : Nat) : System :=
  (((s.allocPage.2.copyPage s.heap.next page).pageRef s.heap.next).pageUnref page).pageSetUsage
    s.heap.next pageUsageAnon

/-- The system after `ramfs_vma_fault` has copied a page. -/
def System.privateCopy (s : System) (page : Nat) : System :=
  ((s.allocPage.2.pageRef s.heap.next).pageUnref page).copyPage s.heap.next page

theorem anonymousPageHandler_cases
    (h : anonymousPageHandler frames s pgtable vma addr flags = some (newPage, s₁)) :
    flags.protection = false ∧ newPage = some s.heap.next ∧ s₁ = s.allocPage.2.pageRef s.heap.next ∨
    flags.protection = true ∧ flags.write = true ∧
      ∃ page, frames.page (cpuMmGetPhysAddress s.tables pgtable addr) = some page ∧
        (vma.prot.mayWrite = true ∧ 1 < (s.heap.pages page).refcnt ∧ newPage = some s.heap.next ∧
            s₁ = s.anonymousCopy page ∨
          vma.prot.mayWrite = true ∧ ¬ 1 < (s.heap.pages page).refcnt ∧ newPage = some page ∧ s₁ = s ∨
          vma.prot.mayWrite = false ∧ vma.prot.write = true ∧ newPage = none ∧ s₁ = s) := by
  unfold anonymousPageHandler at h
  cases hprot : flags.protection with
  | false =>
      rw [hprot] at h
      obtain ⟨rfl, rfl⟩ := Prod.mk.inj (Option.some.inj h)
      exact .inl ⟨rfl, rfl, rfl⟩
  | true =>
      right
      rw [hprot, if_pos rfl] at h
      cases hwrite : flags.write with
      | false =>
          rw [hwrite] at h
          contradiction
      | true =>
          rw [hwrite, if_pos rfl] at h
          dsimp only at h
          split at h
          · contradiction
          next hforbidden =>
          split at h
          · contradiction
          obtain ⟨page, hpage, hcopy⟩ := Option.bind_eq_some_iff.mp h
          refine ⟨rfl, rfl, page, hpage, ?_⟩
          cases hmay : vma.prot.mayWrite with
          | false =>
              rw [hmay] at hcopy hforbidden
              obtain ⟨rfl, rfl⟩ := Prod.mk.inj (Option.some.inj hcopy)
              exact .inr (.inr ⟨rfl, by simpa using hforbidden, rfl, rfl⟩)
          | true =>
              rw [hmay, if_pos rfl] at hcopy
              by_cases hshared : 1 < (s.heap.pages page).refcnt
              · rw [if_pos hshared] at hcopy
                obtain ⟨rfl, rfl⟩ := Prod.mk.inj (Option.some.inj hcopy)
                exact .inl ⟨rfl, hshared, rfl, rfl⟩
              · rw [if_neg hshared] at hcopy
                obtain ⟨rfl, rfl⟩ := Prod.mk.inj (Option.some.inj hcopy)
                exact .inr (.inl ⟨rfl, hshared, rfl, rfl⟩)

theorem ramfsVmaFault_cases (h : ramfsVmaFault s vma addr flags = some (newPage, s₁)) :
    ∃ page, s.cacheSlot vma (pgoffset vma addr) = some (some page) ∧
      (flags.protection = false ∧ newPage = some page ∧ s₁ = s.pageRef page ∨
        flags.protection = true ∧ flags.write = true ∧ vma.prot.mayWrite = true ∧
          vma.flags.priv = true ∧ newPage = some s.heap.next ∧ s₁ = s.privateCopy page ∨
        flags.protection = true ∧ flags.write = true ∧ vma.prot.mayWrite = true ∧
          vma.flags.priv = false ∧ newPage = some page ∧ s₁ = s.pageRef page ∨
        flags.protection = true ∧ ¬ (flags.write = true ∧ vma.prot.mayWrite = true) ∧
          newPage = none ∧ s₁ = s) := by
  obtain ⟨slot, hcache, hslot⟩ := Option.bind_eq_some_iff.mp h
  obtain ⟨page, rfl, hpage⟩ := Option.bind_eq_some_iff.mp hslot
  refine ⟨page, hcache, ?_⟩
  cases hprot : flags.protection with
  | false =>
      rw [hprot] at hpage
      obtain ⟨rfl, rfl⟩ := Prod.mk.inj (Option.some.inj hpage)
      exact .inl ⟨rfl, rfl, rfl⟩
  | true =>
      rw [hprot, if_pos rfl] at hpage
      by_cases hwrite : flags.write = true ∧ vma.prot.mayWrite = true
      · rw [if_pos (by simpa using hwrite)] at hpage
        cases hpriv : vma.flags.priv with
        | true =>
            rw [hpriv] at hpage
            obtain ⟨rfl, rfl⟩ := Prod.mk.inj (Option.some.inj hpage)
            exact .inr (.inl ⟨rfl, hwrite.1, hwrite.2, rfl, rfl, rfl⟩)
        | false =>
            rw [hpriv] at hpage
            obtain ⟨rfl, rfl⟩ := Prod.mk.inj (Option.some.inj hpage)
            exact .inr (.inr (.inl ⟨rfl, hwrite.1, hwrite.2, rfl, rfl, rfl⟩))
      · rw [if_neg (by simpa using hwrite)] at hpage
        obtain ⟨rfl, rfl⟩ := Prod.mk.inj (Option.some.inj hpage)
        exact .inr (.inr (.inr ⟨rfl, hwrite, rfl, rfl⟩))

theorem faultHandler_frame (h : faultHandler frames s pgtable vma addr flags = some (newPage, s₁)) :
    s₁.tables = s.tables ∧ s₁.procs = s.procs := by
  unfold faultHandler at h
  split at h
  · obtain ⟨page, -, hcase⟩ := ramfsVmaFault_cases h
    rcases hcase with ⟨-, -, rfl⟩ | ⟨-, -, -, -, -, rfl⟩ | ⟨-, -, -, -, -, rfl⟩ | ⟨-, -, -, rfl⟩
    all_goals exact ⟨rfl, rfl⟩
  · rcases anonymousPageHandler_cases h with ⟨-, -, rfl⟩ | ⟨-, -, page, -, hcase⟩
    · exact ⟨rfl, rfl⟩
    · rcases hcase with ⟨-, -, -, rfl⟩ | ⟨-, -, -, rfl⟩ | ⟨-, -, -, rfl⟩
      all_goals exact ⟨rfl, rfl⟩
  · contradiction

theorem Faulting.kernelPageFault_eq (h : Faulting pages frames limit s k addr flags mm vma) :
    kernelPageFault pages frames s k addr flags =
      (faultHandler frames s mm.pgtable vma addr flags).bind fun (newPage, s) =>
        match newPage with
        | some p => s.mapPage pages mm.pgtable (frames p) (pageFrame addr) (faultProt vma flags)
        | none => some s := by
  rw [kernelPageFault, h.space, Option.bind_some, h.area]
  rfl

theorem Faulting.maps (hp : Supply pages limit) (h : Faulting pages frames limit s k addr flags mm vma)
    {p : Nat} (hhandler : faultHandler frames s mm.pgtable vma addr flags = some (some p, s₁)) :
    ∃ s', kernelPageFault pages frames s k addr flags = some s' ∧
      s'.leaf k addr = pteEntry (frames p) (faultProt vma flags) ∧
      ∀ k' vaddr, k' ≠ k → pml4FromVa vaddr < 256 → s'.leaf k' vaddr = s.leaf k' vaddr := by
  obtain ⟨htables, hprocs⟩ := faultHandler_frame hhandler
  have hfault := h.kernelPageFault_eq
  rw [hhandler, Option.bind_some] at hfault
  dsimp only at hfault
  have hmap := System.mapPage_eq pages s₁ mm.pgtable (frames p) (pageFrame addr) (faultProt vma flags)
  obtain ⟨-, hset⟩ := h.grounded.remap hp h.space h.low htables hprocs hmap
    (h.room _ (hfault.trans hmap))
  refine ⟨_, hfault.trans hmap, ?_, ?_⟩
  · rw [hset k addr h.low, if_pos ⟨rfl, rfl⟩]
  · intro k' vaddr hne huser
    rw [hset k' vaddr huser, if_neg fun hsame => hne hsame.1]

theorem Faulting.leaves (h : Faulting pages frames limit s k addr flags mm vma)
    (hhandler : faultHandler frames s mm.pgtable vma addr flags = some (none, s₁)) :
    kernelPageFault pages frames s k addr flags = some s₁ ∧ s₁.leaf = s.leaf := by
  obtain ⟨htables, hprocs⟩ := faultHandler_frame hhandler
  rw [h.kernelPageFault_eq, hhandler]
  exact ⟨rfl, System.leaf_of_frame htables hprocs⟩

theorem System.Alone.of_leaf {s' : System} {frame : Nat}
    (hsame : ∀ k' vaddr, k' ≠ k → pml4FromVa vaddr < 256 → s'.leaf k' vaddr = s.leaf k' vaddr) :
    s'.Alone k frame ↔ s.Alone k frame := by
  constructor
  · intro halone k' vaddr hne huser hpresent
    rw [← hsame k' vaddr hne huser] at hpresent ⊢
    exact halone k' vaddr hne huser hpresent
  · intro halone k' vaddr hne huser hpresent
    rw [hsame k' vaddr hne huser] at hpresent ⊢
    exact halone k' vaddr hne huser hpresent

theorem faultProt_user (vma : VmArea) (flags : FaultFlags) : (faultProt vma flags).user = vma.prot.user := by
  unfold faultProt
  split <;> rfl

/-- An entry that is installed has the write bit and lacks `PTE_XD`. -/
theorem resolved_installed {s' : System} {phys : Nat} {prot : Prot} (hleaf : s'.leaf k addr = pteEntry phys prot)
    (hsame : ∀ k' vaddr, k' ≠ k → pml4FromVa vaddr < 256 → s'.leaf k' vaddr = s.leaf k' vaddr) :
    Resolved s' k addr vma.prot flags ↔
      (flags.usr = true → prot.user = true) ∧ (prot.user = true → vma.prot.user = true) ∧
        vma.prot.exec = true ∧ (vma.prot.write = true ∨
          vma.prot.mayWrite = true ∧ s.Alone k (pageFrame (wrap64 phys))) := by
  constructor
  · rintro ⟨-, -, -, husr, hwrite, hexec, huser⟩
    rw [hleaf, pteEntry_userBit] at husr huser
    rw [hleaf, pteEntry_pageFrame, System.Alone.of_leaf hsame] at hwrite
    rw [hleaf] at hexec
    exact ⟨husr, huser, hexec (pteEntry_executable phys prot), hwrite (pteEntry_writable phys prot)⟩
  · rintro ⟨husr, huser, hexec, hwrite⟩
    refine ⟨?_, ?_, ?_, ?_, ?_, ?_, ?_⟩
    all_goals rw [hleaf]
    · exact pteEntry_present phys prot
    · exact fun _ => pteEntry_writable phys prot
    · exact fun _ => pteEntry_executable phys prot
    · rw [pteEntry_userBit]
      exact husr
    · rw [pteEntry_pageFrame, System.Alone.of_leaf hsame]
      exact fun _ => hwrite
    · exact fun _ => hexec
    · rw [pteEntry_userBit]
      exact huser

end handlers

/-! ### When a fault is resolved as the area allows -/

/-- The machine is stopped: for an empty slot of the file, or by the handler for anonymous areas. -/
def Stops (frames : Frames) (s : System) (k addr : Nat) (vma : VmArea) (flags : FaultFlags) : Prop :=
  match vma.vmOps with
  | .ramfs => s.HasSlot vma (pgoffset vma addr) ∧ s.cacheSlot vma (pgoffset vma addr) = some none
  | _ => flags.protection = true ∧ (flags.write = false ∨
      vma.prot.mayWrite = false ∧ vma.prot.write = false ∨
      frames.page (pageFrame (s.leaf k addr)) = none)

/-- The entry is left as it is. -/
def Left (vma : VmArea) (flags : FaultFlags) : Prop :=
  flags.protection = true ∧ ¬ (flags.write = true ∧ vma.prot.mayWrite = true)

/-- The frame that is mapped afterwards, unless it is that of a new page. -/
def keptFrame (frames : Frames) (s : System) (k addr : Nat) (vma : VmArea) (flags : FaultFlags) :
    Option Nat :=
  match vma.vmOps with
  | .ramfs =>
      if flags.protection then
        if flags.write && vma.prot.mayWrite then
          if vma.flags.priv then none
          else (s.cacheSlot vma (pgoffset vma addr)).join.map fun page => pageFrame (wrap64 (frames page))
        else some (pageFrame (s.leaf k addr))
      else (s.cacheSlot vma (pgoffset vma addr)).join.map fun page => pageFrame (wrap64 (frames page))
  | _ =>
      if flags.protection then
        (frames.page (pageFrame (s.leaf k addr))).bind fun page =>
          if vma.prot.mayWrite then
            if 1 < (s.heap.pages page).refcnt then none else some (pageFrame (wrap64 (frames page)))
          else some (pageFrame (s.leaf k addr))
      else none

/-- The file has a slot for the page; the area allows the access and is executable; it is writable, or
may be and no other address space maps the page; and an entry that is left as it is has the user bit
the access and the area want. -/
def MeetsArea (frames : Frames) (s : System) (k addr : Nat) (vma : VmArea) (flags : FaultFlags) : Prop :=
  ¬ s.Wild vma addr ∧ Allows vma.prot flags ∧ vma.prot.exec = true ∧
    (vma.prot.write = true ∨
      vma.prot.mayWrite = true ∧ ∀ frame ∈ keptFrame frames s k addr vma flags, s.Alone k frame) ∧
    (Left vma flags → (flags.usr = true → UserBit (s.leaf k addr)) ∧
      (UserBit (s.leaf k addr) → vma.prot.user = true))

/-- What should come of a fault: it is answered with 0 only if the area allows the access and the
entry permits it, and no memory outside `f_map->pages` is taken for a page. -/
def AnswersFault (k addr : Nat) (prot : Prot) (flags : FaultFlags) : FaultOutcome → Prop
  | .returned s' => Allows prot flags ∧ Resolved s' k addr prot flags
  | .stopped => True
  | .wild => False

section resolution
variable {pages : Nat → Nat} {frames : Frames} {limit : Nat} {s s₁ : System} {k addr : Nat} {flags : FaultFlags}
  {mm : ProcMm} {vma : VmArea}

theorem System.HasSlot.cacheSlot {i : Nat} (h : s.HasSlot vma i) : ∃ slot, s.cacheSlot vma i = some slot := by
  obtain ⟨file, hfile, ino, hino, hlt⟩ := h
  have hin : i + vma.fpgOff < ino.fMap.pages.length := lt_of_lt_of_le hlt (Nat.min_le_right _ _)
  refine ⟨ino.fMap.pages[i + vma.fpgOff], ?_⟩
  rw [System.cacheSlot, hfile, Option.bind_some, hino, Option.bind_some]
  exact List.getElem?_eq_getElem hin

theorem pageFrame_even (x : Nat) : pageFrame x &&& 1 = 0 := by
  have hzero := frame_or_and x 0 (show pageFrame 1 = 0 by decide)
  rwa [Nat.or_zero, Nat.zero_and] at hzero

theorem Faulting.getPhys (h : Faulting pages frames limit s k addr flags mm vma)
    (hprot : flags.protection = true) :
    cpuMmGetPhysAddress s.tables mm.pgtable addr = pageFrame (s.leaf k addr) := by
  rw [h.grounded.getPhys h.space h.low, if_neg (h.consistent.mp hprot)]

theorem Faulting.wild_iff (h : Faulting pages frames limit s k addr flags mm vma) :
    s.WildFault k addr ↔ s.Wild vma addr := by
  unfold System.WildFault
  rw [h.space]
  simp only [Option.mem_def, Option.some.injEq, exists_eq_left', h.area]

/-- Unless the fault is wild, the handler returns exactly when the machine is not stopped. -/
theorem Faulting.handler_none (h : Faulting pages frames limit s k addr flags mm vma)
    (htame : ¬ s.Wild vma addr) :
    faultHandler frames s mm.pgtable vma addr flags = none ↔ Stops frames s k addr vma flags := by
  unfold faultHandler Stops
  rcases h.kind with hkind | hkind
  · rw [hkind]
    dsimp only
    unfold anonymousPageHandler
    cases hprot : flags.protection with
    | false => simp
    | true =>
        cases hwrite : flags.write with
        | false => simp
        | true =>
            simp only [if_true, h.getPhys hprot, pageFrame_even, ne_eq, not_true_eq_false, if_false]
            cases hmay : vma.prot.mayWrite <;> cases hpw : vma.prot.write
            all_goals cases hpage : frames.page (pageFrame (s.leaf k addr)) with
              | none => simp
              | some page => by_cases hshared : 1 < (s.heap.pages page).refcnt <;> simp [hshared]
  · rw [hkind]
    dsimp only
    unfold ramfsVmaFault
    have hcounted : s.HasSlot vma (pgoffset vma addr) := by
      by_contra hno
      exact htame ⟨hkind, hno⟩
    obtain ⟨slot, hslot⟩ := hcounted.cacheSlot
    rw [hslot]
    cases slot with
    | none => simp [hcounted]
    | some page =>
        simp only [Option.bind_some, Option.some.injEq, reduceCtorEq, and_false, iff_false]
        split_ifs <;> simp

theorem Faulting.next_alone (h : Faulting pages frames limit s k addr flags mm vma) :
    s.Alone k (pageFrame (wrap64 (frames s.heap.next))) :=
  fun k' vaddr _ huser hpresent => h.unused k' vaddr huser hpresent

/-- A page that is mapped: the fault is resolved as the area allows if the page is mapped
nowhere else or the area is writable. -/
theorem Faulting.maps_iff (hp : Supply pages limit) (h : Faulting pages frames limit s k addr flags mm vma)
    (htame : ¬ s.Wild vma addr) {p : Nat}
    (hhandler : faultHandler frames s mm.pgtable vma addr flags = some (some p, s₁))
    (hleft : ¬ Left vma flags)
    (halone : s.Alone k (pageFrame (wrap64 (frames p))) ↔
      ∀ frame ∈ keptFrame frames s k addr vma flags, s.Alone k frame) :
    (∀ s', kernelPageFault pages frames s k addr flags = some s' →
      Allows vma.prot flags ∧ Resolved s' k addr vma.prot flags) ↔ MeetsArea frames s k addr vma flags := by
  obtain ⟨s', hfault, hleaf, hsame⟩ := h.maps hp hhandler
  rw [hfault]
  have hresolved := @resolved_installed s k addr flags vma s' _ _ hleaf hsame
  rw [faultProt_user, halone] at hresolved
  constructor
  · intro hall
    obtain ⟨hallows, hres⟩ := hall s' rfl
    obtain ⟨-, -, hexec, hwrite⟩ := hresolved.mp hres
    exact ⟨htame, hallows, hexec, hwrite, fun hl => absurd hl hleft⟩
  · rintro ⟨-, hallows, hexec, hwrite, -⟩ _ hsome
    obtain rfl := Option.some.inj hsome
    exact ⟨hallows, hresolved.mpr ⟨hallows.2.2.1, id, hexec, hwrite⟩⟩

theorem Faulting.leaves_iff (h : Faulting pages frames limit s k addr flags mm vma)
    (htame : ¬ s.Wild vma addr)
    (hhandler : faultHandler frames s mm.pgtable vma addr flags = some (none, s₁))
    (hleft : Left vma flags)
    (hkept : keptFrame frames s k addr vma flags = some (pageFrame (s.leaf k addr))) :
    (∀ s', kernelPageFault pages frames s k addr flags = some s' →
      Allows vma.prot flags ∧ Resolved s' k addr vma.prot flags) ↔ MeetsArea frames s k addr vma flags := by
  obtain ⟨hfault, hleaves⟩ := h.leaves hhandler
  obtain ⟨phys, prot, hentry⟩ := h.installed (h.consistent.mp hleft.1)
  rw [hfault]
  have hresolved := @resolved_installed s k addr flags vma s₁ phys prot (by rw [hleaves]; exact hentry)
    (fun k' vaddr _ _ => by rw [hleaves])
  have hbit : UserBit (s.leaf k addr) ↔ prot.user = true := by
    rw [hentry]
    exact pteEntry_userBit phys prot
  have hframe : pageFrame (s.leaf k addr) = pageFrame (wrap64 phys) := by
    rw [hentry]
    exact pteEntry_pageFrame phys prot
  unfold MeetsArea
  rw [hkept, hframe, hbit]
  constructor
  · intro hall
    obtain ⟨hallows, hres⟩ := hall s₁ rfl
    obtain ⟨husr, huser, hexec, hwrite⟩ := hresolved.mp hres
    exact ⟨htame, hallows, hexec, by simpa using hwrite, fun _ => ⟨husr, huser⟩⟩
  · rintro ⟨-, hallows, hexec, hwrite, hbits⟩ _ hsome
    obtain rfl := Option.some.inj hsome
    obtain ⟨husr, huser⟩ := hbits hleft
    exact ⟨hallows, hresolved.mpr ⟨husr, huser, hexec, by simpa using hwrite⟩⟩

/-- A fault that is not wild is resolved, and only as the area allows, exactly when the machine is
stopped or the area meets the condition. -/
theorem Faulting.resolved_iff (hp : Supply pages limit) (h : Faulting pages frames limit s k addr flags mm vma)
    (htame : ¬ s.Wild vma addr) :
    (∀ s', kernelPageFault pages frames s k addr flags = some s' →
      Allows vma.prot flags ∧ Resolved s' k addr vma.prot flags) ↔
      Stops frames s k addr vma flags ∨ MeetsArea frames s k addr vma flags := by
  cases hhandler : faultHandler frames s mm.pgtable vma addr flags with
  | none =>
      have hstops := (h.handler_none htame).mp hhandler
      have hfault := h.kernelPageFault_eq
      rw [hhandler] at hfault
      rw [hfault]
      exact ⟨fun _ => .inl hstops, fun _ => nofun⟩
  | some r =>
      obtain ⟨newPage, s₁⟩ := r
      have hruns : ¬ Stops frames s k addr vma flags := by
        rw [← h.handler_none htame, hhandler]
        nofun
      rw [or_iff_right hruns]
      have hhandler' := hhandler
      unfold faultHandler at hhandler'
      rcases h.kind with hkind | hkind
      · rw [hkind] at hhandler'
        rcases anonymousPageHandler_cases hhandler' with ⟨hprot, rfl, -⟩ | ⟨hprot, hwrite, page, hpage, hcase⟩
        · refine h.maps_iff hp htame hhandler (by simp [Left, hprot]) ?_
          simp [keptFrame, hkind, hprot, h.next_alone]
        · rw [h.getPhys hprot] at hpage
          rcases hcase with ⟨hmay, hshared, rfl, -⟩ | ⟨hmay, hshared, rfl, -⟩ | ⟨hmay, hpw, rfl, -⟩
          · refine h.maps_iff hp htame hhandler (by simp [Left, hwrite, hmay]) ?_
            simp [keptFrame, hkind, hprot, hpage, hmay, hshared, h.next_alone]
          · refine h.maps_iff hp htame hhandler (by simp [Left, hwrite, hmay]) ?_
            simp [keptFrame, hkind, hprot, hpage, hmay, hshared]
          · refine h.leaves_iff htame hhandler (by simp [Left, hprot, hmay]) ?_
            simp [keptFrame, hkind, hprot, hpage, hmay]
      · rw [hkind] at hhandler'
        obtain ⟨page, hslot, hcase⟩ := ramfsVmaFault_cases hhandler'
        rcases hcase with ⟨hprot, rfl, -⟩ | ⟨hprot, hwrite, hmay, hpriv, rfl, -⟩ |
          ⟨hprot, hwrite, hmay, hpriv, rfl, -⟩ | ⟨hprot, hnot, rfl, -⟩
        · refine h.maps_iff hp htame hhandler (by simp [Left, hprot]) ?_
          simp [keptFrame, hkind, hprot, hslot]
        · refine h.maps_iff hp htame hhandler (by simp [Left, hwrite, hmay]) ?_
          simp [keptFrame, hkind, hprot, hwrite, hmay, hpriv, h.next_alone]
        · refine h.maps_iff hp htame hhandler (by simp [Left, hwrite, hmay]) ?_
          simp [keptFrame, hkind, hprot, hwrite, hmay, hpriv, hslot]
        · refine h.leaves_iff htame hhandler ⟨hprot, hnot⟩ ?_
          unfold keptFrame
          rw [hkind]
          dsimp only
          rw [if_pos hprot, if_neg (by simpa using hnot)]

theorem answersFault_tame {prot : Prot} (htame : ¬ s.WildFault k addr) :
    AnswersFault k addr prot flags (faultOutcome pages frames s k addr flags) ↔
      ∀ s', kernelPageFault pages frames s k addr flags = some s' →
        Allows prot flags ∧ Resolved s' k addr prot flags := by
  rw [faultOutcome, if_neg htame]
  cases kernelPageFault pages frames s k addr flags with
  | none => exact ⟨fun _ => nofun, fun _ => trivial⟩
  | some s' => exact ⟨fun h _ hs => Option.some.inj hs ▸ h, fun h => h s' rfl⟩

/-- A fault is answered as it should be exactly when the machine is stopped or the area meets the
condition. -/
theorem fault_resolved_iff (hp : Supply pages limit) (h : Faulting pages frames limit s k addr flags mm vma) :
    AnswersFault k addr vma.prot flags (faultOutcome pages frames s k addr flags) ↔
      Stops frames s k addr vma flags ∨ MeetsArea frames s k addr vma flags := by
  by_cases hwild : s.Wild vma addr
  · rw [faultOutcome, if_pos (h.wild_iff.mpr hwild)]
    refine ⟨nofun, ?_⟩
    rintro (hstops | hmeets)
    · unfold Stops at hstops
      rw [hwild.1] at hstops
      exact absurd hstops.1 hwild.2
    · exact absurd hwild hmeets.1
  · rw [answersFault_tame fun hfault => hwild (h.wild_iff.mp hfault)]
    exact h.resolved_iff hp hwild

end resolution

/-! ### A first fault in an anonymous area -/

theorem kernelPageFault_takes {pages : Nat → Nat} {frames : Frames} {s s' : System} {k addr : Nat}
    {flags : FaultFlags} (h : kernelPageFault pages frames s k addr flags = some s') :
    s'.tables.next ≤ s.tables.next + 262657 := by
  obtain ⟨mm, -, h⟩ := Option.bind_eq_some_iff.mp h
  obtain ⟨vma, -, h⟩ := Option.bind_eq_some_iff.mp h
  obtain ⟨⟨newPage, s₁⟩, hhandler, h⟩ := Option.bind_eq_some_iff.mp h
  obtain ⟨htables, -⟩ := faultHandler_frame hhandler
  rw [← htables]
  cases newPage with
  | none =>
      obtain rfl := Option.some.inj h
      omega
  | some p => exact System.mapPage_takes h

/-- One anonymous page at 4 MiB. -/
def anonymousArea (prot : Prot) : VmArea :=
  ⟨0x400000, 0x401000, 0x1000, prot, ⟨true, false, false, 0⟩, none, 0, 0, .null⟩

theorem anonymous_faulting (prot : Prot) (heap : PageHeap) {flags : FaultFlags}
    (hprot : flags.protection = false) :
    Faulting lowPages lowFrames (2 ^ 30) (newSpace [anonymousArea prot] heap []) 0 0x400000 flags
      ⟨lowPages 0, [anonymousArea prot]⟩ (anonymousArea prot) where
  grounded := newSpace_grounded _ _ _
  space := rfl
  area := rfl
  kind := .inl rfl
  low := by decide
  consistent := by
    rw [hprot, newSpace_leaf]
    decide
  installed := by
    rw [newSpace_leaf]
    intro hpresent
    exact absurd hpresent (by decide)
  unused := by
    intro k' vaddr _ hpresent
    rw [newSpace_leaf] at hpresent
    exact absurd hpresent (by decide)
  room := by
    intro s' hs'
    have htakes := kernelPageFault_takes hs'
    have hnext : (newSpace [anonymousArea prot] heap []).tables.next = 1 := rfl
    omega

/-- A system of one address space with the area. -/
def anonymousSpace (prot : Prot) : System :=
  newSpace [anonymousArea prot] ⟨fun _ => ⟨fun _ => 0, 0, 0, 0⟩, 0⟩ []

theorem anonymousSpace_tame (prot : Prot) : ¬ (anonymousSpace prot).WildFault 0 0x400000 := by
  rintro ⟨mm, hmm, vma, hvma, hops, -⟩
  obtain rfl := Option.some.inj hmm
  obtain rfl := Option.some.inj hvma
  contradiction

/-- A user write to memory that is readable, writable and executable. -/
theorem fault_resolved_iff_rwx :
    ∃ s', faultOutcome lowPages lowFrames (anonymousSpace ⟨true, true, true, true, false, 0⟩)
        0 0x400000 ⟨false, true, true, false⟩ = .returned s' ∧
      Allows ⟨true, true, true, true, false, 0⟩ ⟨false, true, true, false⟩ ∧
        Resolved s' 0 0x400000 ⟨true, true, true, true, false, 0⟩ ⟨false, true, true, false⟩ := by
  have hfaulting := anonymous_faulting ⟨true, true, true, true, false, 0⟩
    ⟨fun _ => ⟨fun _ => 0, 0, 0, 0⟩, 0⟩
    (show (FaultFlags.mk false true true false).protection = false from rfl)
  obtain ⟨s', hfault, -⟩ := hfaulting.maps lowPages_supply rfl
  have houtcome : faultOutcome lowPages lowFrames (anonymousSpace ⟨true, true, true, true, false, 0⟩)
      0 0x400000 ⟨false, true, true, false⟩ = .returned s' := by
    rw [faultOutcome, if_neg (anonymousSpace_tame _), anonymousSpace, hfault]
  have hanswers := (fault_resolved_iff lowPages_supply hfaulting).mpr (.inr ⟨by
    rintro ⟨hops, -⟩
    contradiction, by decide, rfl, .inl rfl, by
    rintro ⟨hprot, -⟩
    contradiction⟩)
  rw [← anonymousSpace, houtcome] at hanswers
  exact ⟨s', houtcome, hanswers⟩

/-- A user write to memory that is only readable: the fault succeeds and the page is writable. -/
theorem readonly_fault_writable :
    Faulting lowPages lowFrames (2 ^ 30) (anonymousSpace ⟨true, false, false, true, false, 0⟩) 0 0x400000
        ⟨false, true, true, false⟩ ⟨lowPages 0, [anonymousArea ⟨true, false, false, true, false, 0⟩]⟩
        (anonymousArea ⟨true, false, false, true, false, 0⟩) ∧
      ¬ AnswersFault 0 0x400000 ⟨true, false, false, true, false, 0⟩ ⟨false, true, true, false⟩
        (faultOutcome lowPages lowFrames (anonymousSpace ⟨true, false, false, true, false, 0⟩) 0 0x400000
          ⟨false, true, true, false⟩) := by
  have hfaulting := anonymous_faulting ⟨true, false, false, true, false, 0⟩
    ⟨fun _ => ⟨fun _ => 0, 0, 0, 0⟩, 0⟩
    (show (FaultFlags.mk false true true false).protection = false from rfl)
  refine ⟨hfaulting, ?_⟩
  obtain ⟨s', hfault, -⟩ := hfaulting.maps lowPages_supply rfl
  rw [answersFault_tame (anonymousSpace_tame _)]
  intro hall
  exact absurd (hall s' hfault).1 (by decide)

end Lucix.Mm
