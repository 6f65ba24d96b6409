import Lucix.PageTableMap

/-! The address spaces that `cpu_mm_create_page_table` and `cpu_mm_map_page` build.
Each process table translates a user page to what was last mapped there in that same
table; the invariant is that the tables below user halves have one owner each. -/
namespace Lucix.PageTable
open RadixTable Execution

structure AddressSpaces where
  tables : Tables
  procs : List Nat

inductive TableCall where
  | create
  | map (pgtable physAddr vaddr : Nat) (prot : Prot)

def AddressSpaces.step (pages : Nat → Nat) (kernelPgtable : Nat) (s : AddressSpaces) :
    TableCall → Option AddressSpaces
  | .create =>
      let (pgtable, tables) := cpuMmCreatePageTable pages s.tables kernelPgtable
      some ⟨tables, pgtable :: s.procs⟩
  | .map pgtable physAddr vaddr prot =>
      (cpuMmMapPage pages s.tables pgtable physAddr vaddr prot).map fun tables =>
        { s with tables := tables }

/-- A page of physical memory is mapped at a user address of a process table. -/
def AddressSpaces.UserCall (s : AddressSpaces) : TableCall → Prop
  | .create => True
  | .map pgtable physAddr vaddr _ => pgtable ∈ s.procs ∧ physAddr % pageSize = 0 ∧
      physAddr < 2 ^ 48 ∧ pml4FromVa vaddr < 256

instance (s : AddressSpaces) (c : TableCall) : Decidable (s.UserCall c) := by
  cases c <;> unfold AddressSpaces.UserCall <;> infer_instance

/-- The call does not take more than the first `limit` pages of `alloc_pages`. -/
def AddressSpaces.Legal (pages : Nat → Nat) (limit kernelPgtable : Nat) (s : AddressSpaces)
    (c : TableCall) : Prop :=
  s.UserCall c ∧ ∀ s' ∈ s.step pages kernelPgtable c, s'.tables.next ≤ limit

instance (pages : Nat → Nat) (limit kernelPgtable : Nat) (s : AddressSpaces) (c : TableCall) :
    Decidable (s.Legal pages limit kernelPgtable c) :=
  inferInstanceAs (Decidable (_ ∧ _))

/-- What each table should translate a page to, and how a call changes that. -/
def expected (T : Nat → Nat → Nat) : TableCall → Nat → Nat → Nat
  | .create => T
  | .map pgtable physAddr vaddr _ => fun t page =>
      if t = pgtable ∧ page = pageFrame vaddr then physAddr else T t page

/-- The address that was last mapped at a page of a table, `0xfff` if none was. -/
def lastMapped (calls : List TableCall) : Nat → Nat → Nat := calls.foldl expected fun _ _ => 0xfff

/-- Below the user half every entry is a link, down to the leaf entries. -/
def userShape : Shape Pos Nat where
  below := fun p i => (p.1, p.2 ++ [i])
  inner := fun p i => p.2.length < 3 ∧ (p.2 = [] → i < 256)

theorem userShape_at (r : Nat) (path path' : List Nat) :
    userShape.at (r, path) path' = (r, path ++ path') := by
  induction path' generalizing path with
  | nil => simp [Shape.at]
  | cons i path' ih =>
      have hstep : userShape.at (r, path) (i :: path') = userShape.at (r, path ++ [i]) path' := rfl
      rw [hstep, ih, List.append_assoc, List.singleton_append]

theorem userShape_full (r : Nat) {vaddr : Nat} (huser : pml4FromVa vaddr < 256) :
    userShape.Full (r, []) (vaPath vaddr) := by
  refine ⟨⟨⟨by simp, fun _ => huser⟩, ⟨by simp [userShape], by simp [userShape]⟩,
    ⟨by simp [userShape], by simp [userShape]⟩, trivial⟩, fun j => ?_⟩
  rw [userShape_at]
  simp [userShape, vaPath]

/-! ### The kernel half -/

/-- The tables below the top-level table that `cpu_mm_get_phys_address` reads. -/
def tablesBelow (s : Tables) (pgtable vaddr : Nat) : List Nat :=
  let entry := s.mem pgtable (pml4FromVa vaddr)
  if entry &&& presentFlag = 0 then [] else
  let pdpt := pa2va (pageFrame entry)
  let entry := s.mem pdpt (pdptFromVa vaddr)
  if entry &&& presentFlag = 0 then [pdpt] else
  let pdet := pa2va (pageFrame entry)
  let entry := s.mem pdet (pdetFromVa vaddr)
  if entry &&& presentFlag = 0 then [pdpt, pdet] else
  if entry &&& pdetPageSize ≠ 0 then [pdpt, pdet] else
  [pdpt, pdet, pa2va (pageFrame entry)]

theorem getPhys_congr {s s' : Tables} {pgtable pgtable' vaddr : Nat}
    (htop : s'.mem pgtable' (pml4FromVa vaddr) = s.mem pgtable (pml4FromVa vaddr))
    (hbelow : ∀ t ∈ tablesBelow s pgtable vaddr, s'.mem t = s.mem t) :
    cpuMmGetPhysAddress s' pgtable' vaddr = cpuMmGetPhysAddress s pgtable vaddr := by
  unfold cpuMmGetPhysAddress
  unfold tablesBelow at hbelow
  dsimp only at hbelow ⊢
  rw [htop]
  by_cases h4 : s.mem pgtable (pml4FromVa vaddr) &&& presentFlag = 0
  · rw [if_pos h4, if_pos h4]
  rw [if_neg h4] at hbelow ⊢
  rw [if_neg h4]
  generalize pa2va (pageFrame (s.mem pgtable (pml4FromVa vaddr))) = pdpt at hbelow ⊢
  by_cases h3 : s.mem pdpt (pdptFromVa vaddr) &&& presentFlag = 0
  · rw [if_pos h3] at hbelow
    rw [hbelow pdpt (by simp), if_pos h3, if_pos h3]
  rw [if_neg h3] at hbelow
  have hpdpt : s'.mem pdpt = s.mem pdpt := hbelow pdpt (by split_ifs <;> simp)
  rw [hpdpt, if_neg h3, if_neg h3]
  generalize pa2va (pageFrame (s.mem pdpt (pdptFromVa vaddr))) = pdet at hbelow ⊢
  have hpdet : s'.mem pdet = s.mem pdet := hbelow pdet (by split_ifs <;> simp)
  rw [hpdet]
  by_cases h2 : s.mem pdet (pdetFromVa vaddr) &&& presentFlag = 0
  · rw [if_pos h2, if_pos h2]
  by_cases hbig : s.mem pdet (pdetFromVa vaddr) &&& pdetPageSize ≠ 0
  · rw [if_neg h2, if_neg h2, if_pos hbig, if_pos hbig]
  rw [if_neg h2, if_neg hbig] at hbelow
  rw [if_neg h2, if_neg h2, if_neg hbig, if_neg hbig, hbelow _ (by simp)]

/-! ### Tables below user halves -/

/-- Every process table is the root of a tree of tables of its own. -/
structure UserTables (pages : Nat → Nat) (limit : Nat) (s : Tables) (procs : List Nat)
    (pos : Nat → Option Pos) : Prop where
  owned : Owned pages limit userShape s pos
  roots : ∀ pt ∈ procs, pos pt = some (pt, [])

/-- A table of the kernel: it is in no such tree and is not handed out. -/
def Aside (pages : Nat → Nat) (limit : Nat) (s : Tables) (pos : Nat → Option Pos) (u : Nat) : Prop :=
  pos u = none ∧ Settled pages limit s u

section user
variable {pages : Nat → Nat} {limit : Nat} {s : Tables} {procs : List Nat} {pos : Nat → Option Pos}
  {pt vaddr kernelPgtable u : Nat}

theorem sameLeaf_iff (pt pt' vaddr vaddr' : Nat) :
    (userShape.at (pt', []) (vaPath vaddr') = userShape.at (pt, []) (vaPath vaddr) ∧
      pteFromVa vaddr' = pteFromVa vaddr) ↔ pt' = pt ∧ pageFrame vaddr' = pageFrame vaddr := by
  rw [userShape_at, userShape_at, pageFrame_eq_iff]
  simp only [vaPath, List.nil_append, Prod.mk.injEq, List.cons.injEq, and_true]
  tauto

/-- Top-level entries of the kernel half are not on the way to a user page. -/
theorem kernel_entry_off {j : Nat} (huser : pml4FromVa vaddr < 256) (hj : 256 ≤ j) (r r' : Nat) :
    ¬ userShape.On (r, []) (vaPath vaddr) (r', []) j ∧
      ((r', []) ≠ userShape.at (r, []) (vaPath vaddr) ∨ j ≠ pteFromVa vaddr) := by
  constructor
  · have hne : j ≠ pml4FromVa vaddr := by omega
    simp [Shape.On, vaPath, userShape, hne]
  · left
    rw [userShape_at]
    simp [vaPath]

/-- Mapping a user page sets its leaf entry in its table and changes no other leaf entry, no
top-level entry of a kernel half and no table of the kernel. -/
theorem UserTables.setLeaf (hp : Supply pages limit) (h : UserTables pages limit s procs pos)
    (hpt : pt ∈ procs) (huser : pml4FromVa vaddr < 256) {entry : Nat}
    (hroom : (s.setLeaf pages pt vaddr entry).next ≤ limit) :
    ∃ pos', UserTables pages limit (s.setLeaf pages pt vaddr entry) procs pos' ∧
      (∀ pt' ∈ procs, ∀ vaddr', pml4FromVa vaddr' < 256 →
        leafEntry (s.setLeaf pages pt vaddr entry) pt' vaddr' =
          if pt' = pt ∧ pageFrame vaddr' = pageFrame vaddr then entry else leafEntry s pt' vaddr') ∧
      (∀ pt' ∈ procs, ∀ j, 256 ≤ j → (s.setLeaf pages pt vaddr entry).mem pt' j = s.mem pt' j) ∧
      ∀ u, Aside pages limit s pos u →
        Aside pages limit (s.setLeaf pages pt vaddr entry) pos' u ∧
          (s.setLeaf pages pt vaddr entry).mem u = s.mem u := by
  have hlater : s.next ≤ (s.setLeaf pages pt vaddr entry).next := tableOn_later pages s pt (vaPath vaddr)
  obtain ⟨pos', hown, hlabels, hold, hentry, hleaves, hframe⟩ :=
    h.owned.setLeaf hp (h.roots pt hpt) (userShape_full pt huser) hroom
  refine ⟨pos', ⟨hown, fun pt' hpt' => hlabels _ _ (h.roots pt' hpt')⟩, ?_, ?_, ?_⟩
  · intro pt' hpt' vaddr' huser'
    by_cases hsame : pt' = pt ∧ pageFrame vaddr' = pageFrame vaddr
    · rw [if_pos hsame]
      obtain ⟨hpath, hpte⟩ := (sameLeaf_iff pt pt' vaddr vaddr').mpr hsame
      rw [userShape_at, userShape_at, Prod.mk.injEq, List.nil_append, List.nil_append] at hpath
      rw [leafEntry, hpath.1, hpath.2, hpte]
      exact hentry
    · rw [if_neg hsame]
      apply hleaves _ _ _ _ (h.roots pt' hpt') (userShape_full pt' huser')
      by_contra hne
      exact hsame ((sameLeaf_iff pt pt' vaddr vaddr').mp (by tauto))
  · intro pt' hpt' j hj
    apply hframe pt' j (h.owned.settled _ _ (h.roots pt' hpt'))
    intro q hq
    obtain rfl := Option.some.inj ((h.roots pt' hpt').symm.trans hq)
    exact kernel_entry_off huser hj pt pt'
  · rintro u ⟨hnone, hsettled⟩
    refine ⟨⟨?_, hsettled.later hlater⟩, ?_⟩
    · cases hpos' : pos' u with
      | none => rfl
      | some q =>
          rw [hold u q hpos' hsettled] at hnone
          contradiction
    · funext j
      apply hframe u j hsettled
      intro q hq
      rw [hnone] at hq
      contradiction

theorem UserTables.create (hp : Supply pages limit) (h : UserTables pages limit s procs pos)
    (hroom : s.next < limit) (hkernel : Aside pages limit s pos kernelPgtable)
    (hlow : ∀ i < 256, s.mem kernelPgtable i &&& presentFlag = 0) :
    ∃ pos', UserTables pages limit (cpuMmCreatePageTable pages s kernelPgtable).2
        (pages s.next :: procs) pos' ∧ pages s.next ∉ procs ∧
      (∀ pt ∈ pages s.next :: procs, ∀ vaddr, pml4FromVa vaddr < 256 →
        leafEntry (cpuMmCreatePageTable pages s kernelPgtable).2 pt vaddr =
          if pt = pages s.next then 0 else leafEntry s pt vaddr) ∧
      ∀ u, Aside pages limit s pos u →
        Aside pages limit (cpuMmCreatePageTable pages s kernelPgtable).2 pos' u ∧
          (cpuMmCreatePageTable pages s kernelPgtable).2.mem u = s.mem u := by
  have hfresh : pos (pages s.next) = none := h.owned.none_of_fresh hroom
  have hmem := create_mem (hkernel.2 s.next (Nat.le_refl _) hroom)
  have hnotin : pages s.next ∉ procs := by
    intro hmem
    rw [h.roots _ hmem] at hfresh
    contradiction
  have hempty : ∀ i < 256, entryFormat.target (s.mem kernelPgtable i) = none := by
    intro i hi
    rw [target_none_iff]
    exact hlow i hi
  have howned := h.owned.create hp hroom (hkernel.2 s.next (Nat.le_refl _) hroom)
    (fun i hi => .inl (hempty i (hi.2 rfl)))
  refine ⟨Function.update pos (pages s.next) (some (pages s.next, [])), ⟨howned, ?_⟩, hnotin, ?_, ?_⟩
  · intro pt hpt
    rcases List.mem_cons.mp hpt with rfl | hold
    · rw [Function.update_self]
    · rw [Function.update_of_ne (ne_of_pos (h.roots pt hold) hfresh), h.roots pt hold]
  · intro pt hpt vaddr huser
    by_cases hnew : pt = pages s.next
    · rw [if_pos hnew, hnew]
      apply leaf_cons_none
      rw [hmem, if_pos rfl]
      exact hempty _ huser
    · rw [if_neg hnew]
      have hpos := h.roots pt (List.mem_of_ne_of_mem hnew hpt)
      apply h.owned.labelled.leaf_congr _ hpos (userShape_full pt huser).1
      intro v r hv
      rw [hmem, if_neg (ne_of_pos hv hfresh)]
  · rintro u ⟨hnone, hsettled⟩
    have hne : u ≠ pages s.next := hsettled s.next (Nat.le_refl _) hroom
    refine ⟨⟨?_, hsettled.later (Nat.le_succ _)⟩, ?_⟩
    · rw [Function.update_of_ne hne, hnone]
    · rw [hmem, if_neg hne]

end user

/-! ### Runs -/

/-- A table that translations of kernel addresses read. -/
def InKernel (base : Tables) (kernelPgtable u : Nat) : Prop :=
  u = kernelPgtable ∨ ∃ vaddr, 256 ≤ pml4FromVa vaddr ∧ u ∈ tablesBelow base kernelPgtable vaddr

/-- The tables of the kernel are as they were, every process shares its half, and the user
pages translate as `T` says. -/
structure Translates (pages : Nat → Nat) (limit kernelPgtable : Nat) (base : Tables)
    (T : Nat → Nat → Nat) (s : AddressSpaces) (pos : Nat → Option Pos) : Prop where
  user : UserTables pages limit s.tables s.procs pos
  kernel : ∀ u, InKernel base kernelPgtable u →
    Aside pages limit s.tables pos u ∧ s.tables.mem u = base.mem u
  shared : ∀ pt ∈ s.procs, ∀ j, 256 ≤ j → s.tables.mem pt j = base.mem kernelPgtable j
  pages : ∀ pt ∈ s.procs, ∀ vaddr, pml4FromVa vaddr < 256 →
    cpuMmGetPhysAddress s.tables pt vaddr = T pt (pageFrame vaddr)
  unmapped : ∀ pt, pt ∉ s.procs → ∀ page, T pt page = 0xfff

section runs
variable {pages : Nat → Nat} {limit kernelPgtable : Nat} {base : Tables} {T : Nat → Nat → Nat}
  {s : AddressSpaces} {pos : Nat → Option Pos}

theorem Translates.create (hp : Supply pages limit)
    (hlow : ∀ i < 256, base.mem kernelPgtable i &&& presentFlag = 0)
    (h : Translates pages limit kernelPgtable base T s pos) (hroom : s.tables.next < limit) :
    ∃ pos', Translates pages limit kernelPgtable base T
      ⟨(cpuMmCreatePageTable pages s.tables kernelPgtable).2, pages s.tables.next :: s.procs⟩ pos' := by
  obtain ⟨hkernel, hsame⟩ := h.kernel kernelPgtable (.inl rfl)
  obtain ⟨pos', huser, hnotin, hleaf, haside⟩ := h.user.create hp hroom hkernel (by simpa [hsame] using hlow)
  refine ⟨pos', huser, ?_, ?_, ?_, ?_⟩
  · intro u hu
    obtain ⟨hold, hmem⟩ := h.kernel u hu
    exact ⟨(haside u hold).1, (haside u hold).2.trans hmem⟩
  · intro pt hpt j hj
    dsimp only
    rw [create_mem (hkernel.2 _ (Nat.le_refl _) hroom)]
    by_cases hnew : pt = pages s.tables.next
    · rw [if_pos hnew, hsame]
    · rw [if_neg hnew]
      exact h.shared pt (List.mem_of_ne_of_mem hnew hpt) j hj
  · intro pt hpt vaddr hva
    dsimp only
    rw [getPhys_eq huser.owned.labelled (huser.roots pt hpt) (userShape_full pt hva), hleaf pt hpt vaddr hva]
    by_cases hnew : pt = pages s.tables.next
    · rw [if_pos hnew, hnew, h.unmapped _ hnotin]
      rfl
    · have hold := List.mem_of_ne_of_mem hnew hpt
      rw [if_neg hnew, ← h.pages pt hold vaddr hva,
        getPhys_eq h.user.owned.labelled (h.user.roots pt hold) (userShape_full pt hva)]
  · intro pt hpt page
    exact h.unmapped pt (fun hold => hpt (List.mem_cons_of_mem _ hold)) page

theorem pteEntry_present (physAddr : Nat) (prot : Prot) : pteEntry physAddr prot &&& presentFlag ≠ 0 := by
  unfold pteEntry
  rw [Nat.or_assoc, Nat.or_assoc, frame_or_and _ _ (by decide)]
  cases prot.user <;> decide

theorem pteEntry_pageFrame (physAddr : Nat) (prot : Prot) :
    pageFrame (pteEntry physAddr prot) = pageFrame (wrap64 physAddr) := by
  have hflags : pageFrame (presentFlag ||| (rwFlag ||| if prot.user then userFlag else 0)) = 0 := by
    cases prot.user <;> decide
  rw [pteEntry, Nat.or_assoc, Nat.or_assoc, pageFrame_or _ hflags]

theorem pteEntry_frame {physAddr : Nat} (halign : physAddr % pageSize = 0) (hlt : physAddr < 2 ^ 48)
    (prot : Prot) : pageFrame (pteEntry physAddr prot) = physAddr := by
  rw [pteEntry_pageFrame, wrap64_of_lt (by omega), pageFrame_of_page halign hlt]

theorem Translates.map (hp : Supply pages limit)
    (h : Translates pages limit kernelPgtable base T s pos) {pt physAddr vaddr : Nat} (prot : Prot)
    (hpt : pt ∈ s.procs) (halign : physAddr % pageSize = 0) (hlt : physAddr < 2 ^ 48)
    (hva : pml4FromVa vaddr < 256)
    (hroom : (s.tables.setLeaf pages pt vaddr (pteEntry physAddr prot)).next ≤ limit) :
    ∃ pos', Translates pages limit kernelPgtable base (expected T (.map pt physAddr vaddr prot))
      { s with tables := s.tables.setLeaf pages pt vaddr (pteEntry physAddr prot) } pos' := by
  obtain ⟨pos', huser, hleaf, hupper, haside⟩ := h.user.setLeaf hp hpt hva hroom
  refine ⟨pos', huser, ?_, ?_, ?_, ?_⟩
  · intro u hu
    obtain ⟨hold, hmem⟩ := h.kernel u hu
    exact ⟨(haside u hold).1, (haside u hold).2.trans hmem⟩
  · intro pt' hpt' j hj
    exact (hupper pt' hpt' j hj).trans (h.shared pt' hpt' j hj)
  · intro pt' hpt' vaddr' hva'
    dsimp only [expected]
    rw [getPhys_eq huser.owned.labelled (huser.roots pt' hpt') (userShape_full pt' hva'), hleaf pt' hpt' vaddr' hva']
    by_cases hsame : pt' = pt ∧ pageFrame vaddr' = pageFrame vaddr
    · rw [if_pos hsame, if_pos hsame, if_neg (pteEntry_present physAddr prot),
        pteEntry_frame halign hlt]
    · rw [if_neg hsame, if_neg hsame, ← h.pages pt' hpt' vaddr' hva',
        getPhys_eq h.user.owned.labelled (h.user.roots pt' hpt') (userShape_full pt' hva')]
  · intro pt' hpt' page
    have hne : ¬ (pt' = pt ∧ page = pageFrame vaddr) := fun hsame => hpt' (hsame.1 ▸ hpt)
    dsimp only [expected]
    rw [if_neg hne, h.unmapped pt' hpt']

theorem Translates.step (hp : Supply pages limit)
    (hlow : ∀ i < 256, base.mem kernelPgtable i &&& presentFlag = 0) {c : TableCall}
    (h : Translates pages limit kernelPgtable base T s pos)
    (hlegal : s.Legal pages limit kernelPgtable c) :
    ∃ s', s.step pages kernelPgtable c = some s' ∧
      ∃ pos', Translates pages limit kernelPgtable base (expected T c) s' pos' := by
  obtain ⟨hcall, hroom⟩ := hlegal
  cases c with
  | create => exact ⟨_, rfl, h.create hp hlow (hroom _ rfl)⟩
  | map pt physAddr vaddr prot =>
      obtain ⟨hpt, halign, hlt, hva⟩ := hcall
      have hstep : s.step pages kernelPgtable (.map pt physAddr vaddr prot) =
          some { s with tables := s.tables.setLeaf pages pt vaddr (pteEntry physAddr prot) } := by
        rw [AddressSpaces.step, cpuMmMapPage_eq]
        rfl
      exact ⟨_, hstep, h.map hp prot hpt halign hlt hva (hroom _ hstep)⟩

/-- Kernel addresses, and every address of the kernel table, translate as at the start. -/
theorem Translates.kernel_translation (hlow : ∀ i < 256, base.mem kernelPgtable i &&& presentFlag = 0)
    (h : Translates pages limit kernelPgtable base T s pos) {pt vaddr : Nat}
    (hpt : pt = kernelPgtable ∨ pt ∈ s.procs ∧ 256 ≤ pml4FromVa vaddr) :
    cpuMmGetPhysAddress s.tables pt vaddr = cpuMmGetPhysAddress base kernelPgtable vaddr := by
  have htop : s.tables.mem pt (pml4FromVa vaddr) = base.mem kernelPgtable (pml4FromVa vaddr) := by
    rcases hpt with rfl | ⟨hproc, hupper⟩
    · rw [(h.kernel pt (.inl rfl)).2]
    · exact h.shared pt hproc _ hupper
  by_cases hupper : 256 ≤ pml4FromVa vaddr
  · exact getPhys_congr htop fun t ht => (h.kernel t (.inr ⟨vaddr, hupper, ht⟩)).2
  · have habsent := hlow (pml4FromVa vaddr) (by omega)
    unfold cpuMmGetPhysAddress
    dsimp only
    rw [htop, if_pos habsent, if_pos habsent]

/-- Two states translate an address alike where they expect the same. -/
theorem Translates.others {s' : AddressSpaces} {T' : Nat → Nat → Nat} {pos' : Nat → Option Pos}
    (hlow : ∀ i < 256, base.mem kernelPgtable i &&& presentFlag = 0)
    (h : Translates pages limit kernelPgtable base T s pos)
    (h' : Translates pages limit kernelPgtable base T' s' pos') (hprocs : s'.procs = s.procs)
    {pt vaddr : Nat} (hpt : pt = kernelPgtable ∨ pt ∈ s.procs)
    (hT : T' pt (pageFrame vaddr) = T pt (pageFrame vaddr)) :
    cpuMmGetPhysAddress s'.tables pt vaddr = cpuMmGetPhysAddress s.tables pt vaddr := by
  rcases hpt with hkernel | hproc
  · rw [h.kernel_translation hlow (.inl hkernel), h'.kernel_translation hlow (.inl hkernel)]
  have hproc' : pt ∈ s'.procs := hprocs ▸ hproc
  by_cases hupper : 256 ≤ pml4FromVa vaddr
  · rw [h.kernel_translation hlow (.inr ⟨hproc, hupper⟩),
      h'.kernel_translation hlow (.inr ⟨hproc', hupper⟩)]
  · rw [h.pages pt hproc vaddr (by omega), h'.pages pt hproc' vaddr (by omega), hT]

/-- Every process table translates a user page to what was last mapped there in that table, and
mapping a page changes no other translation of any table. -/
theorem run_tables_isolated (hp : Supply pages limit)
    (hlow : ∀ i < 256, base.mem kernelPgtable i &&& presentFlag = 0)
    (hunused : ∀ u, InKernel base kernelPgtable u → Settled pages limit base u)
    {calls : List TableCall}
    (hlegal : Guarded (AddressSpaces.step pages kernelPgtable)
      (AddressSpaces.Legal pages limit kernelPgtable) ⟨base, []⟩ calls) :
    ∃ s, run (AddressSpaces.step pages kernelPgtable) ⟨base, []⟩ calls = some s ∧
      (∀ pt ∈ s.procs, ∀ vaddr, pml4FromVa vaddr < 256 →
        cpuMmGetPhysAddress s.tables pt vaddr = lastMapped calls pt (pageFrame vaddr)) ∧
      ∀ pt physAddr vaddr prot, s.Legal pages limit kernelPgtable (.map pt physAddr vaddr prot) →
        ∃ s', s.step pages kernelPgtable (.map pt physAddr vaddr prot) = some s' ∧
          ∀ pt' vaddr', pt' = kernelPgtable ∨ pt' ∈ s.procs →
            pt' ≠ pt ∨ pageFrame vaddr' ≠ pageFrame vaddr →
            cpuMmGetPhysAddress s'.tables pt' vaddr' = cpuMmGetPhysAddress s.tables pt' vaddr' := by
  have hstart : Translates pages limit kernelPgtable base (fun _ _ => 0xfff) ⟨base, []⟩ fun _ => none := by
    refine ⟨⟨⟨⟨nofun, nofun⟩, nofun⟩, nofun⟩, ?_, nofun, nofun, fun _ _ _ => rfl⟩
    intro u hu
    exact ⟨⟨rfl, hunused u hu⟩, rfl⟩
  have hstep : ∀ T s c, (∃ pos, Translates pages limit kernelPgtable base T s pos) →
      s.Legal pages limit kernelPgtable c → ∃ s', s.step pages kernelPgtable c = some s' ∧
        ∃ pos', Translates pages limit kernelPgtable base (expected T c) s' pos' := by
    rintro T s c ⟨pos, h⟩ hc
    exact h.step hp hlow hc
  obtain ⟨s, hrun, pos, hs⟩ := run_follows _ hstep ⟨_, hstart⟩ hlegal
  refine ⟨s, hrun, hs.pages, ?_⟩
  intro pt physAddr vaddr prot hmap
  obtain ⟨s', hstep, pos', hs'⟩ := hs.step hp hlow hmap
  have hprocs : s'.procs = s.procs := by
    rw [AddressSpaces.step, Option.map_eq_some_iff] at hstep
    obtain ⟨_, -, rfl⟩ := hstep
    rfl
  refine ⟨s', hstep, ?_⟩
  intro pt' vaddr' hpt' hne
  apply hs.others hlow hs' hprocs hpt'
  exact if_neg (not_and_or.mpr hne)

end runs

/-- Pages from 1 MiB of physical memory on. -/
def lowPages (k : Nat) : Nat := pa2va (0x100000 + k * 0x1000)

theorem lowPages_supply : Supply lowPages (2 ^ 30) := by
  constructor
  · intro k hk
    show pageFrame (va2pa (pa2va _)) = va2pa (pa2va _)
    rw [va2pa_pa2va]
    exact pageFrame_of_page (by omega) (by omega)
  · intro k _ l _ hsame
    have := congrArg va2pa hsame
    unfold lowPages at this
    rw [va2pa_pa2va, va2pa_pa2va] at this
    omega

/-- Two processes map their own page at the same address; the first maps it again. -/
def twoProcesses : List TableCall :=
  [.create, .create, .map (lowPages 0) 0x5000 0x400000 ⟨true, true, false, true, false, 0⟩,
    .map (lowPages 1) 0x6000 0x400000 ⟨true, false, true, true, false, 0⟩,
    .map (lowPages 0) 0x7000 0x400fff ⟨true, true, false, true, false, 0⟩]

theorem run_tables_isolated_two :
    ∃ s, run (AddressSpaces.step lowPages (pa2va 0x1000)) ⟨⟨fun _ _ => 0, 0⟩, []⟩ twoProcesses = some s ∧
      (∀ pt ∈ s.procs, ∀ vaddr, pml4FromVa vaddr < 256 →
        cpuMmGetPhysAddress s.tables pt vaddr = lastMapped twoProcesses pt (pageFrame vaddr)) ∧
      lastMapped twoProcesses (lowPages 0) 0x400000 = 0x7000 ∧
      lastMapped twoProcesses (lowPages 1) 0x400000 = 0x6000 ∧
      lastMapped twoProcesses (lowPages 1) 0x401000 = 0xfff := by
  have hunused : ∀ u, InKernel ⟨fun _ _ => 0, 0⟩ (pa2va 0x1000) u →
      Settled lowPages (2 ^ 30) ⟨fun _ _ => 0, 0⟩ u := by
    rintro u (rfl | ⟨vaddr, -, hmem⟩)
    · intro k _ hk hsame
      have := congrArg va2pa hsame
      unfold lowPages at this
      rw [va2pa_pa2va, va2pa_pa2va] at this
      omega
    · simp [tablesBelow] at hmem
  have hlegal : Guarded (AddressSpaces.step lowPages (pa2va 0x1000))
      (AddressSpaces.Legal lowPages (2 ^ 30) (pa2va 0x1000)) ⟨⟨fun _ _ => 0, 0⟩, []⟩ twoProcesses := by
    decide +kernel
  obtain ⟨s, hrun, hpages, -⟩ := run_tables_isolated lowPages_supply (by simp) hunused hlegal
  exact ⟨s, hrun, hpages, by decide, by decide, by decide⟩

end Lucix.PageTable
