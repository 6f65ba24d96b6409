import Lucix.ProcessTables
import Lucix.MapRange
import Lucix.VmZone

/-! The kernel half of the address spaces. A process table gets a copy of the kernel's
top-level entries when it is created, so it sees later kernel mappings only below
top-level entries that were there at that time. -/
namespace Lucix.Vm
open PageTable RadixTable Execution

structure KernelSpaces where
  spaces : AddressSpaces
  zones : List VmZone

inductive KernelCall where
  | table (c : TableCall)
  | ioremap (physAddr size flags : Nat) (memory : Bool)
  | mapVmZone (zone : VmZone)

def KernelSpaces.step (pages : Nat → Nat) (kernelPgtable : Nat) (s : KernelSpaces) :
    KernelCall → Option KernelSpaces
  | .table c => (s.spaces.step pages kernelPgtable c).map fun spaces => { s with spaces := spaces }
  | .ioremap physAddr size flags memory =>
      (Vm.ioremap pages s.spaces.tables kernelPgtable s.zones physAddr size flags memory).map
        fun (tables, zones) => ⟨{ s.spaces with tables := tables }, zones⟩
  | .mapVmZone zone =>
      if zone ∈ s.zones then
        (Vm.mapVmZone pages s.spaces.tables kernelPgtable zone).map fun tables =>
          { s with spaces := { s.spaces with tables := tables } }
      else none

/-- The zone that a call maps. -/
def KernelSpaces.zoneOf (s : KernelSpaces) : KernelCall → Option VmZone
  | .table _ => none
  | .ioremap physAddr size flags memory => (ioremapZone s.zones physAddr size flags memory).map Prod.fst
  | .mapVmZone zone => some zone

/-- Every top-level entry that mapping the zone goes through is present in the kernel's table. -/
def SlotsPresent (tables : Tables) (kernelPgtable : Nat) (zone : VmZone) : Prop :=
  ∀ i, pml4FromVa zone.startAddr ≤ i → i ≤ pml4FromVa zone.startAddr + pml4FromVa zone.size →
    tables.mem kernelPgtable i &&& presentFlag ≠ 0

/-- Pages are mapped at user addresses, and no zone needs a new top-level entry once there are
processes. -/
def KernelSpaces.Seen (kernelPgtable : Nat) (s : KernelSpaces) (c : KernelCall) : Prop :=
  (∀ c', c = .table c' → s.spaces.UserCall c') ∧
    (s.spaces.procs = [] ∨ ∀ zone ∈ s.zoneOf c, SlotsPresent s.spaces.tables kernelPgtable zone)

/-- The call does not take more than the first `limit` pages of `alloc_pages`. -/
def KernelSpaces.Room (pages : Nat → Nat) (limit kernelPgtable : Nat) (s : KernelSpaces)
    (c : KernelCall) : Prop :=
  ∀ s' ∈ s.step pages kernelPgtable c, s'.spaces.tables.next ≤ limit

/-! ### Positions of the tables -/

/-- The tables below the kernel half belong to the kernel's table, whichever table links to them.
In the slots of the identity map the entries of the PDET level are pages. -/
def sharedShape (kernelPgtable : Nat) : Shape Pos Nat where
  below := fun p i => if p.2 = [] ∧ 256 ≤ i then (kernelPgtable, [i]) else (p.1, p.2 ++ [i])
  inner := fun p _ => p.2.length < 3 ∧ (p.2.length = 2 → p.2.headD 0 < 256 ∨ 259 ≤ p.2.headD 0)

section shape
variable {kernelPgtable : Nat}

theorem shared_below_top {r i : Nat} (hi : 256 ≤ i) :
    (sharedShape kernelPgtable).below (r, []) i = (kernelPgtable, [i]) := by
  simp [sharedShape, hi]

theorem shared_below_user {r i : Nat} (hi : i < 256) :
    (sharedShape kernelPgtable).below (r, []) i = (r, [i]) := by
  simp [sharedShape, Nat.not_le.mpr hi]

theorem shared_below {r i j : Nat} {path : List Nat} :
    (sharedShape kernelPgtable).below (r, i :: path) j = (r, i :: path ++ [j]) := by
  simp [sharedShape]

theorem shared_at_user {r vaddr : Nat} (huser : pml4FromVa vaddr < 256) :
    (sharedShape kernelPgtable).at (r, []) (vaPath vaddr) = (r, vaPath vaddr) := by
  simp only [Shape.at, vaPath, List.foldl, shared_below_user huser, shared_below]
  rfl

theorem shared_full_user {r vaddr : Nat} (huser : pml4FromVa vaddr < 256) :
    (sharedShape kernelPgtable).Full (r, []) (vaPath vaddr) := by
  constructor
  · simp only [vaPath, Shape.Inner, shared_below_user huser, shared_below]
    simp [sharedShape, huser]
  · intro j
    rw [shared_at_user huser]
    simp [sharedShape, vaPath]

theorem shared_slot {W : Pos → Nat → Prop} (hW : ∀ i path j, W (kernelPgtable, i :: path) j) {big : Bool}
    {i : Nat} (hi : 256 ≤ i) (hbig : big = decide (i < 259)) :
    (sharedShape kernelPgtable).inner (kernelPgtable, []) i ∧
      PdptTable (sharedShape kernelPgtable) W big
        ((sharedShape kernelPgtable).below (kernelPgtable, []) i) := by
  refine ⟨by simp [sharedShape], ?_⟩
  rw [shared_below_top hi]
  intro j
  refine ⟨hW _ _ _, by simp [sharedShape], ?_⟩
  rw [shared_below, List.cons_append]
  intro k
  refine ⟨hW _ _ _, ?_⟩
  rw [shared_below]
  by_cases hlt : i < 259
  · rw [hbig, decide_eq_true hlt, if_pos rfl]
    simp [sharedShape]
    omega
  · rw [hbig, decide_eq_false hlt, if_neg (by simp)]
    refine ⟨by simp [sharedShape]; omega, fun l => ⟨?_, hW _ _ _⟩⟩
    simp [sharedShape]

end shape

/-! ### The invariant -/

/-- Every process table has the kernel's entries in its kernel half. -/
structure Shares (pages : Nat → Nat) (limit kernelPgtable : Nat) (s : KernelSpaces)
    (pos : Nat → Option Pos) : Prop where
  owned : Owned pages limit (sharedShape kernelPgtable) s.spaces.tables pos
  kernel : pos kernelPgtable = some (kernelPgtable, [])
  roots : ∀ pt ∈ s.spaces.procs, pt ≠ kernelPgtable ∧ pos pt = some (pt, [])
  low : ∀ i < 256, entryFormat.target (s.spaces.tables.mem kernelPgtable i) = none
  shared : ∀ pt ∈ s.spaces.procs, ∀ i, 256 ≤ i →
    s.spaces.tables.mem pt i = s.spaces.tables.mem kernelPgtable i
  zones : ∀ zone ∈ s.zones, zone.InWindow

theorem window_slots {zone : VmZone} (h : zone.InWindow) :
    384 ≤ pml4FromVa zone.startAddr ∧ pml4FromVa zone.startAddr + pml4FromVa zone.size ≤ 386 := by
  obtain ⟨hlow, hhigh⟩ := h
  unfold vmapZoneStart vmapZoneSize at *
  rw [pml4FromVa_eq, pml4FromVa_eq]
  omega

section steps
variable {pages : Nat → Nat} {limit kernelPgtable : Nat} {s : KernelSpaces} {pos : Nat → Option Pos}

theorem Shares.create (hp : Supply pages limit) (h : Shares pages limit kernelPgtable s pos)
    (hroom : s.spaces.tables.next < limit) :
    Shares pages limit kernelPgtable
      { s with spaces := ⟨(cpuMmCreatePageTable pages s.spaces.tables kernelPgtable).2,
        pages s.spaces.tables.next :: s.spaces.procs⟩ }
      (Function.update pos (pages s.spaces.tables.next) (some (pages s.spaces.tables.next, []))) := by
  have hfresh : pos (pages s.spaces.tables.next) = none := h.owned.none_of_fresh hroom
  have hne : kernelPgtable ≠ pages s.spaces.tables.next := ne_of_pos h.kernel hfresh
  have hold : ∀ u q, pos u = some q →
      Function.update pos (pages s.spaces.tables.next) (some (pages s.spaces.tables.next, [])) u = some q := by
    intro u q hu
    rw [Function.update_of_ne (ne_of_pos hu hfresh), hu]
  have hkernel : (cpuMmCreatePageTable pages s.spaces.tables kernelPgtable).2.mem kernelPgtable =
      s.spaces.tables.mem kernelPgtable := by
    rw [create_mem hne, if_neg hne]
  refine ⟨h.owned.create hp hroom hne ?_, hold _ _ h.kernel, ?_, ?_, ?_, h.zones⟩
  · intro i _
    by_cases hi : i < 256
    · exact .inl (h.low i hi)
    · have hentry := h.owned.labelled.entries _ _ i h.kernel (by simp [sharedShape])
      rwa [shared_below_top (by omega)] at hentry ⊢
  · intro pt hpt
    rcases List.mem_cons.mp hpt with rfl | hproc
    · exact ⟨hne.symm, Function.update_self _ _ _⟩
    · exact ⟨(h.roots pt hproc).1, hold _ _ (h.roots pt hproc).2⟩
  · intro i hi
    dsimp only
    rw [hkernel]
    exact h.low i hi
  · intro pt hpt i hi
    dsimp only
    rw [hkernel, create_mem hne]
    by_cases hnew : pt = pages s.spaces.tables.next
    · rw [if_pos hnew]
    · rw [if_neg hnew]
      exact h.shared pt (List.mem_of_ne_of_mem hnew hpt) i hi

theorem Shares.map (hp : Supply pages limit) (h : Shares pages limit kernelPgtable s pos)
    {pt vaddr entry : Nat} (hpt : pt ∈ s.spaces.procs) (huser : pml4FromVa vaddr < 256)
    (hroom : (s.spaces.tables.setLeaf pages pt vaddr entry).next ≤ limit) :
    ∃ pos', Shares pages limit kernelPgtable
      { s with spaces := { s.spaces with tables := s.spaces.tables.setLeaf pages pt vaddr entry } } pos' := by
  obtain ⟨hne, hpos⟩ := h.roots pt hpt
  obtain ⟨pos', hown, hlabels, -, -, -, hframe⟩ := h.owned.setLeaf hp hpos (shared_full_user huser) hroom
  -- the only top-level entry on the way is one of the user half of `pt`
  have htop : ∀ r i, pos r = some (r, []) → r ≠ pt ∨ 256 ≤ i →
      (s.spaces.tables.setLeaf pages pt vaddr entry).mem r i = s.spaces.tables.mem r i := by
    intro r i hr hcase
    apply hframe r i (h.owned.settled r _ hr)
    intro q hq
    obtain rfl := Option.some.inj (hr.symm.trans hq)
    rw [shared_at_user huser]
    simp only [vaPath, Shape.On, shared_below_user huser, shared_below]
    refine ⟨?_, .inl (by simp)⟩
    rintro (⟨hsame, hi⟩ | ⟨hsame, -⟩ | ⟨hsame, -⟩ | hfalse)
    · rcases hcase with hr' | hge
      · exact hr' (Prod.mk.inj hsame).1
      · omega
    · simp at hsame
    · simp at hsame
    · exact hfalse
  refine ⟨pos', hown, hlabels _ _ h.kernel, ?_, ?_, ?_, h.zones⟩
  · intro pt' hpt'
    exact ⟨(h.roots pt' hpt').1, hlabels _ _ (h.roots pt' hpt').2⟩
  · intro i hi
    dsimp only
    rw [htop kernelPgtable i h.kernel (.inl hne.symm)]
    exact h.low i hi
  · intro pt' hpt' i hi
    dsimp only
    rw [htop kernelPgtable i h.kernel (.inr hi), htop pt' i (h.roots pt' hpt').2 (.inr hi)]
    exact h.shared pt' hpt' i hi

/-- What mapping a range of the kernel half may change: tables below the top level, and the
top-level entries of the kernel that the range goes through. -/
def KernelWords (kernelPgtable low high : Nat) (q : Pos) (j : Nat) : Prop :=
  q.2 ≠ [] ∨ q = (kernelPgtable, []) ∧ low ≤ j ∧ j ≤ high

theorem mapKernel_extends (hp : Supply pages limit) {t t' : Tables}
    (h : Owned pages limit (sharedShape kernelPgtable) t pos)
    (hkernel : pos kernelPgtable = some (kernelPgtable, [])) {physAddr vaddr size low high : Nat}
    {big : Bool} {prot : Prot} (hlow : pml4FromVa vaddr = low)
    (hhigh : pml4FromVa vaddr + pml4FromVa size = high) (hupper : 256 ≤ low)
    (hbig : ∀ i, low ≤ i → i ≤ high → big = decide (i < 259))
    (hmap : mapContiguous pages t kernelPgtable physAddr vaddr size big prot = some t')
    (hroom : t'.next ≤ limit) :
    ∃ pos', Owned pages limit (sharedShape kernelPgtable) t' pos' ∧
      Extends pages limit (sharedShape kernelPgtable) (KernelWords kernelPgtable low high) t pos t' pos' := by
  refine mapContiguous_extends hp h hkernel ?_ hmap hroom
  intro i hi hi'
  rw [hlow] at hi
  rw [hhigh] at hi'
  refine ⟨.inr ⟨rfl, hi, hi'⟩, ?_⟩
  exact shared_slot (fun _ _ _ => .inl (by simp)) (by omega) (hbig i hi hi')

theorem Shares.proc_words (h : Shares pages limit kernelPgtable s pos) {t' : Tables}
    {pos' : Nat → Option Pos} {low high : Nat}
    (hext : Extends pages limit (sharedShape kernelPgtable) (KernelWords kernelPgtable low high)
      s.spaces.tables pos t' pos') {pt : Nat} (hpt : pt ∈ s.spaces.procs) (i : Nat) :
    t'.mem pt i = s.spaces.tables.mem pt i := by
  obtain ⟨hne, hpos⟩ := h.roots pt hpt
  apply hext.frame pt i (h.owned.settled pt _ hpos)
  intro q hq hword
  obtain rfl := Option.some.inj (hpos.symm.trans hq)
  rcases hword with hnil | ⟨hsame, -⟩
  · exact hnil rfl
  · exact hne (Prod.mk.inj hsame).1

theorem Shares.mapVmZone (hp : Supply pages limit) (h : Shares pages limit kernelPgtable s pos)
    {zone : VmZone} {zones : List VmZone} {tables : Tables} (hwindow : zone.InWindow)
    (hzones : ∀ zone ∈ zones, zone.InWindow)
    (hseen : s.spaces.procs = [] ∨ SlotsPresent s.spaces.tables kernelPgtable zone)
    (hmap : Vm.mapVmZone pages s.spaces.tables kernelPgtable zone = some tables)
    (hroom : tables.next ≤ limit) :
    ∃ pos', Shares pages limit kernelPgtable ⟨{ s.spaces with tables := tables }, zones⟩ pos' := by
  obtain ⟨hlow, hhigh⟩ := window_slots hwindow
  obtain ⟨pos', hown, hext⟩ := mapKernel_extends hp h.owned h.kernel rfl rfl (by omega)
    (fun i hi _ => (decide_eq_false (by omega)).symm) hmap hroom
  have hkernel : ∀ i, ¬ (pml4FromVa zone.startAddr ≤ i ∧
      i ≤ pml4FromVa zone.startAddr + pml4FromVa zone.size) →
      tables.mem kernelPgtable i = s.spaces.tables.mem kernelPgtable i := by
    intro i hout
    apply hext.frame _ i (h.owned.settled _ _ h.kernel)
    intro q hq hword
    obtain rfl := Option.some.inj (h.kernel.symm.trans hq)
    rcases hword with hnil | ⟨-, hin⟩
    · exact hnil rfl
    · exact hout hin
  refine ⟨pos', hown, hext.labels _ _ h.kernel, ?_, ?_, ?_, hzones⟩
  · intro pt hpt
    exact ⟨(h.roots pt hpt).1, hext.labels _ _ (h.roots pt hpt).2⟩
  · intro i hi
    dsimp only
    rw [hkernel i (by omega)]
    exact h.low i hi
  · intro pt hpt i hi
    rcases hseen with hnone | hpresent
    · have hpt' : pt ∈ s.spaces.procs := hpt
      rw [hnone] at hpt'
      contradiction
    · dsimp only
      rw [h.proc_words hext hpt i, h.shared pt hpt i hi]
      by_cases hin : pml4FromVa zone.startAddr ≤ i ∧
          i ≤ pml4FromVa zone.startAddr + pml4FromVa zone.size
      · have hlink : entryFormat.target (s.spaces.tables.mem kernelPgtable i) ≠ none :=
          fun hnone => hpresent i hin.1 hin.2 ((target_none_iff _).mp hnone)
        rw [hext.links _ _ i h.kernel (by simp [sharedShape]) hlink]
      · rw [hkernel i hin]

theorem Shares.step (hp : Supply pages limit) (h : Shares pages limit kernelPgtable s pos)
    {c : KernelCall} (hroom : s.Room pages limit kernelPgtable c) (hseen : s.Seen kernelPgtable c)
    {s' : KernelSpaces} (hstep : s.step pages kernelPgtable c = some s') :
    ∃ pos', Shares pages limit kernelPgtable s' pos' := by
  have hlimit := hroom s' hstep
  obtain ⟨huser, hpresent⟩ := hseen
  cases c with
  | table c =>
      obtain ⟨spaces, hspaces, rfl⟩ := Option.map_eq_some_iff.mp hstep
      have hcall := huser c rfl
      cases c with
      | create =>
          obtain rfl := Option.some.inj hspaces
          exact ⟨_, h.create hp hlimit⟩
      | map pt physAddr vaddr prot =>
          rw [AddressSpaces.step, cpuMmMapPage_eq] at hspaces
          obtain rfl := Option.some.inj hspaces
          exact h.map hp hcall.1 hcall.2.2.2 hlimit
  | ioremap physAddr size flags memory =>
      obtain ⟨⟨tables, zones⟩, hioremap, rfl⟩ := Option.map_eq_some_iff.mp hstep
      obtain ⟨⟨zone, zones'⟩, hzone, hmap⟩ := Option.bind_eq_some_iff.mp hioremap
      obtain ⟨tables', hmap', hpair⟩ := Option.map_eq_some_iff.mp hmap
      obtain ⟨rfl, rfl⟩ := Prod.mk.inj hpair
      obtain ⟨hwindow, hzones⟩ := ioremapZone_window h.zones hzone
      refine h.mapVmZone hp hwindow hzones ?_ hmap' hlimit
      refine hpresent.imp_right fun hall => hall zone ?_
      simp [KernelSpaces.zoneOf, hzone]
  | mapVmZone zone =>
      rw [KernelSpaces.step] at hstep
      split_ifs at hstep with hmem
      obtain ⟨tables, hmap, rfl⟩ := Option.map_eq_some_iff.mp hstep
      exact h.mapVmZone hp (h.zones zone hmem) h.zones (hpresent.imp_right fun hall => hall zone rfl) hmap
        hlimit

end steps

/-! ### Runs -/

section runs
variable {pages : Nat → Nat} {limit kernelPgtable kernelPhysBase : Nat} {base t : Tables}

theorem pagingInit_cases (hinit : pagingInit pages base kernelPhysBase = some (kernelPgtable, t)) :
    kernelPgtable = pages base.next ∧ ∃ t₁,
      mapContiguous pages (base.allocPage pages).2 (pages base.next) 0 identityBase 0x10000000000 true
        kernelProt = some t₁ ∧
      mapContiguous pages t₁ (pages base.next) kernelPhysBase baseKernelVa kernelReservedSize false
        kernelProt = some t := by
  unfold pagingInit at hinit
  dsimp only at hinit
  obtain ⟨t₁, hmap₁, hrest⟩ := Option.bind_eq_some_iff.mp hinit
  obtain ⟨t₂, hmap₂, hpair⟩ := Option.map_eq_some_iff.mp hrest
  obtain ⟨rfl, rfl⟩ := Prod.mk.inj hpair
  exact ⟨rfl, t₁, hmap₁, hmap₂⟩

/-- After `paging_init` only the kernel's table exists, and of its top-level entries only those
of the identity map and of the kernel executable are present. -/
theorem pagingInit_shares (hp : Supply pages limit)
    (hinit : pagingInit pages base kernelPhysBase = some (kernelPgtable, t)) (hroom : t.next ≤ limit) :
    ∃ pos, Shares pages limit kernelPgtable ⟨⟨t, []⟩, []⟩ pos ∧
      ∀ i, ¬ (256 ≤ i ∧ i ≤ 258) → i ≠ 511 → t.mem kernelPgtable i = 0 := by
  obtain ⟨rfl, t₁, hmap₁, hmap₂⟩ := pagingInit_cases hinit
  have hroom₁ : t₁.next ≤ limit := (mapContiguous_later hmap₂).trans hroom
  have hroom₀ : base.next < limit := (mapContiguous_later hmap₁).trans hroom₁
  have hown₀ : Owned pages limit (sharedShape (pages base.next)) (base.allocPage pages).2
      (Function.update (fun _ => none) (pages base.next) (some (pages base.next, []))) := by
    refine ⟨⟨?_, ?_⟩, ?_⟩
    all_goals intro u q
    all_goals by_cases hu : u = pages base.next
    · intro _
      exact hu ▸ hp.valid _ hroom₀
    · simp [hu]
    · intro i _ _
      left
      simp [hu, Tables.allocPage, entryFormat]
    · simp [hu]
    · intro _ k hk hlt hsame
      have hk' : base.next + 1 ≤ k := hk
      have := hp.different base.next hroom₀ k hlt (hu ▸ hsame)
      omega
    · simp [hu]
  have hpos₀ := Function.update_self (pages base.next) (some (pages base.next, ([] : List Nat)))
    fun _ => none
  have hidentity : pml4FromVa identityBase = 256 := by decide
  have hidentity' : pml4FromVa identityBase + pml4FromVa 0x10000000000 = 258 := by decide
  have hexec : pml4FromVa baseKernelVa = 511 := by decide
  have hexec' : pml4FromVa baseKernelVa + pml4FromVa kernelReservedSize = 511 := by decide
  obtain ⟨pos₁, hown₁, hext₁⟩ := mapKernel_extends hp hown₀ hpos₀ hidentity hidentity' (by decide)
    (fun i _ hi => (decide_eq_true (by omega)).symm) hmap₁ hroom₁
  have hpos₁ := hext₁.labels _ _ hpos₀
  obtain ⟨pos₂, hown₂, hext₂⟩ := mapKernel_extends hp hown₁ hpos₁ hexec hexec' (by decide)
    (fun i hi _ => (decide_eq_false (by omega)).symm) hmap₂ hroom
  have hzero : ∀ i, ¬ (256 ≤ i ∧ i ≤ 258) → i ≠ 511 → t.mem (pages base.next) i = 0 := by
    intro i hout hne
    rw [hext₂.frame _ i (hown₁.settled _ _ hpos₁), hext₁.frame _ i (hown₀.settled _ _ hpos₀)]
    · simp [Tables.allocPage]
    · intro q hq hword
      obtain rfl := Option.some.inj (hpos₀.symm.trans hq)
      rcases hword with hnil | ⟨-, hin⟩
      · exact hnil rfl
      · exact hout hin
    · intro q hq hword
      obtain rfl := Option.some.inj (hpos₁.symm.trans hq)
      rcases hword with hnil | ⟨-, hlow, hhigh⟩
      · exact hnil rfl
      · omega
  refine ⟨pos₂, ⟨hown₂, hext₂.labels _ _ hpos₁, by simp, ?_, by simp, by simp⟩, hzero⟩
  intro i hi
  dsimp only
  rw [hzero i (by omega) (by omega)]
  exact entryFormat.target_empty

/-- As long as zones need no new top-level entry once there are processes, every process table
translates the kernel addresses as the kernel's table does. -/
theorem run_kernel_half_shared (hp : Supply pages limit)
    (hinit : pagingInit pages base kernelPhysBase = some (kernelPgtable, t)) (hroom : t.next ≤ limit)
    {calls : List KernelCall} {s : KernelSpaces}
    (hseen : Guarded (KernelSpaces.step pages kernelPgtable)
      (fun s c => s.Room pages limit kernelPgtable c ∧ s.Seen kernelPgtable c) ⟨⟨t, []⟩, []⟩ calls)
    (hrun : run (KernelSpaces.step pages kernelPgtable) ⟨⟨t, []⟩, []⟩ calls = some s) :
    ∀ pt ∈ s.spaces.procs, ∀ vaddr, 256 ≤ pml4FromVa vaddr →
      cpuMmGetPhysAddress s.spaces.tables pt vaddr =
        cpuMmGetPhysAddress s.spaces.tables kernelPgtable vaddr := by
  obtain ⟨pos₀, hstart, -⟩ := pagingInit_shares hp hinit hroom
  obtain ⟨pos, h⟩ := run_guarded (fun s => ∃ pos, Shares pages limit kernelPgtable s pos)
    (fun _ _ _ ⟨_, h⟩ hguard hstep => h.step hp hguard.1 hguard.2 hstep) ⟨pos₀, hstart⟩ hseen hrun
  intro pt hpt vaddr hva
  exact getPhys_congr (h.shared pt hpt _ hva) fun _ _ => rfl

end runs

/-! ### A mapping that a process does not see -/

theorem pagingInit_takes {pages : Nat → Nat} {base t : Tables} {kernelPhysBase kernelPgtable : Nat}
    (hinit : pagingInit pages base kernelPhysBase = some (kernelPgtable, t)) :
    kernelPgtable = pages base.next ∧ t.next ≤ base.next + 1 + 4 * 262657 := by
  obtain ⟨rfl, t₁, hmap₁, hmap₂⟩ := pagingInit_cases hinit
  have htakes₁ := mapContiguous_takes hmap₁
  have htakes₂ := mapContiguous_takes hmap₂
  rw [show pml4FromVa 0x10000000000 = 2 by decide] at htakes₁
  rw [show pml4FromVa kernelReservedSize = 0 by decide] at htakes₂
  have hnext : (base.allocPage pages).2.next = base.next + 1 := rfl
  exact ⟨rfl, by omega⟩

theorem pagingInit_isSome (pages : Nat → Nat) (base : Tables) (kernelPhysBase : Nat) :
    (pagingInit pages base kernelPhysBase).isSome = true := by
  have hidentity : pml4FromVa identityBase + pml4FromVa 0x10000000000 < 512 := by decide
  have hexec : pml4FromVa baseKernelVa + pml4FromVa kernelReservedSize < 512 := by decide
  simp only [pagingInit, mapContiguous, if_pos hidentity, if_pos hexec, Option.bind_some, Option.map_some,
    Option.isSome_some]

theorem shared_full_kernel {kernelPgtable vaddr : Nat} (hslot : 259 ≤ pml4FromVa vaddr) :
    (sharedShape kernelPgtable).Full (kernelPgtable, []) (vaPath vaddr) := by
  have htop : 256 ≤ pml4FromVa vaddr := by omega
  constructor
  · simp only [vaPath, Shape.Inner, shared_below_top htop, shared_below]
    simp [sharedShape, hslot]
  · intro j
    simp only [Shape.at, vaPath, List.foldl, shared_below_top htop, shared_below]
    simp [sharedShape]

section hidden
variable {pages : Nat → Nat} {limit kernelPgtable : Nat} {s : KernelSpaces} {pos : Nat → Option Pos}

theorem ioremapZone_first (physAddr : Nat) :
    ioremapZone [] physAddr 0x1000 0 true =
      some (⟨vmapZoneStart, 0x2000, 0, physAddr⟩, [⟨vmapZoneStart, 0x2000, 0, physAddr⟩]) := by
  have hwrap : wrap64 (0x1000 + pageSize) = 0x2000 := wrap64_of_lt (by decide)
  have hfits : ¬ 0x2000 > vmapZoneSize := by decide
  simp only [ioremapZone, getVmZone, hwrap, if_neg hfits, zoneSlot]
  rfl

theorem leaf_setEntries_two (hp : Supply pages limit) {S : Shape Pos Nat} {t : Tables} {p : Pos}
    {pgtable vaddr : Nat} (h : Owned pages limit S t pos) (hpt : pos pgtable = some p)
    (hfull : S.Full p (vaPath vaddr)) (hroom : (t.tableOn pages pgtable (vaPath vaddr)).2.next ≤ limit)
    (entry : Nat → Nat) :
    leafEntry ((t.tableOn pages pgtable (vaPath vaddr)).2.setEntries
      (t.tableOn pages pgtable (vaPath vaddr)).1 (pteFromVa vaddr) entry 2) pgtable vaddr = entry 0 := by
  obtain ⟨hinner, hleaf⟩ := hfull
  obtain ⟨pos', hown, hgrow, hpos, hreach, -⟩ := h.tableOn hp hpt hinner hroom
  have hpt' := hgrow.labels _ _ hpt
  have hfirst := hown.labelled.store hpos (hleaf (pteFromVa vaddr)) (entry 0)
  have hne : pteFromVa vaddr ≠ pteFromVa vaddr + 1 := by omega
  refine (hfirst.leaf_store hpos (hleaf (pteFromVa vaddr + 1)) (entry 1) hpt' hinner _).trans ?_
  rw [if_neg fun hsame => hne hsame.2]
  refine (hown.labelled.leaf_store hpos (hleaf _) (entry 0) hpt' hinner _).trans ?_
  rw [if_pos ⟨hreach, rfl⟩]

/-- A zone of two pages that lie in one table takes the tables on the way to it. -/
theorem mapVmZone_two (pages : Nat → Nat) (s : Tables) (pgtable physAddr : Nat) {vaddr : Nat}
    (hpte : pteFromVa vaddr ≤ 510) :
    ∃ tables, Vm.mapVmZone pages s pgtable ⟨vaddr, 0x2000, 0, physAddr⟩ = some tables ∧
      tables = (s.tableOn pages pgtable (vaPath vaddr)).2.setEntries
        (s.tableOn pages pgtable (vaPath vaddr)).1 (pteFromVa vaddr)
        (MapArgs.mk physAddr 0x2000 false ⟨true, true, false, false, false, 0⟩).entry 2 ∧
      tables.next ≤ s.next + 262657 := by
  have hsize : pml4FromVa 0x2000 = 0 := by decide
  have hpages : (MapArgs.mk physAddr 0x2000 false ⟨true, true, false, false, false, 0⟩).numPages = 2 := by
    simp [MapArgs.numPages, MapArgs.pgsize, pageSize]
  have hmap := @mapContiguous_within pages s pgtable physAddr vaddr 0x2000
    ⟨true, true, false, false, false, 0⟩ hsize (by omega) (by omega)
  rw [hpages] at hmap
  have htakes := mapContiguous_takes hmap
  rw [hsize] at htakes
  exact ⟨_, hmap, rfl, by omega⟩

theorem mapVmZone_first (hp : Supply pages limit) (h : Shares pages limit kernelPgtable s pos)
    (physAddr : Nat) (hroom : s.spaces.tables.next + 262657 ≤ limit) :
    ∃ tables, Vm.mapVmZone pages s.spaces.tables kernelPgtable ⟨vmapZoneStart, 0x2000, 0, physAddr⟩ =
        some tables ∧ tables.next ≤ s.spaces.tables.next + 262657 ∧
      leafEntry tables kernelPgtable vmapZoneStart =
        pteEntry physAddr ⟨true, true, false, false, false, 0⟩ := by
  have hfull := @shared_full_kernel kernelPgtable vmapZoneStart (by decide)
  have hfirst : (MapArgs.mk physAddr 0x2000 false ⟨true, true, false, false, false, 0⟩).entry 0 =
      pteEntry physAddr ⟨true, true, false, false, false, 0⟩ := by
    simp [MapArgs.entry, pteEntry]
  obtain ⟨tables, hmap, heq, hnext⟩ := mapVmZone_two pages s.spaces.tables kernelPgtable physAddr
    (show pteFromVa vmapZoneStart ≤ 510 by decide)
  have hroom' : (s.spaces.tables.tableOn pages kernelPgtable (vaPath vmapZoneStart)).2.next ≤ limit := by
    rw [heq] at hnext
    exact hnext.trans hroom
  refine ⟨tables, hmap, hnext, ?_⟩
  rw [heq, ← hfirst]
  exact leaf_setEntries_two hp h.owned h.kernel hfull hroom' _

theorem ioremapZone_second (physAddr physAddr' : Nat) :
    ioremapZone [⟨vmapZoneStart, 0x2000, 0, physAddr⟩] physAddr' 0x1000 0 true =
      some (⟨vmapZoneStart + 0x2000, 0x2000, 0, physAddr'⟩,
        [⟨vmapZoneStart, 0x2000, 0, physAddr⟩, ⟨vmapZoneStart + 0x2000, 0x2000, 0, physAddr'⟩]) := by
  have hwrap : wrap64 (0x1000 + pageSize) = 0x2000 := wrap64_of_lt (by decide)
  have hfits : ¬ 0x2000 > vmapZoneSize := by decide
  have hslot : zoneSlot 0x2000 vmapZoneStart [⟨vmapZoneStart, 0x2000, 0, physAddr⟩] =
      some (1, vmapZoneStart + 0x2000) := by
    have hend : wrap64 (0x2000 + vmapZoneStart) = vmapZoneStart + 0x2000 := wrap64_of_lt (by decide)
    have hlast : sub64 (vmapZoneStart + vmapZoneSize) 0x2000 = vmapZoneStart + vmapZoneSize - 0x2000 :=
      sub64_of_le (by decide) (by decide)
    simp only [zoneSlot, hend, hlast, if_neg (show ¬ vmapZoneStart < vmapZoneStart by decide),
      if_neg (show ¬ vmapZoneStart + 0x2000 < vmapZoneStart by decide),
      if_neg (show ¬ vmapZoneStart + 0x2000 ≤ vmapZoneStart by decide),
      if_neg (show ¬ vmapZoneStart + 0x2000 > vmapZoneStart + vmapZoneSize - 0x2000 by decide)]
    rfl
  simp only [ioremapZone, getVmZone, hwrap, if_neg hfits, hslot]
  rfl

/-- An entry below the top-level table can be reached only through a present one. -/
theorem top_present_of_leaf {t : Tables} {pgtable vaddr : Nat}
    (hleaf : leafEntry t pgtable vaddr &&& presentFlag ≠ 0) :
    t.mem pgtable (pml4FromVa vaddr) &&& presentFlag ≠ 0 := by
  intro hnone
  apply hleaf
  have hreach : reach entryFormat t.mem pgtable (vaPath vaddr) = none := by
    rw [vaPath, reach, (target_none_iff _).mpr hnone, Option.bind_none]
  rw [leafEntry, leaf, hreach]
  exact Nat.zero_and _

theorem step_first {physAddr : Nat} {tables : Tables} (hzones : s.zones = [])
    (hmap : Vm.mapVmZone pages s.spaces.tables kernelPgtable ⟨vmapZoneStart, 0x2000, 0, physAddr⟩ =
      some tables) :
    s.step pages kernelPgtable (.ioremap physAddr 0x1000 0 true) =
      some ⟨{ s.spaces with tables := tables }, [⟨vmapZoneStart, 0x2000, 0, physAddr⟩]⟩ := by
  rw [KernelSpaces.step, Vm.ioremap, hzones, ioremapZone_first, Option.bind_some]
  dsimp only
  rw [hmap]
  rfl

theorem step_second {physAddr physAddr' : Nat} {tables : Tables}
    (hzones : s.zones = [⟨vmapZoneStart, 0x2000, 0, physAddr⟩])
    (hmap : Vm.mapVmZone pages s.spaces.tables kernelPgtable ⟨vmapZoneStart + 0x2000, 0x2000, 0, physAddr'⟩ =
      some tables) :
    s.step pages kernelPgtable (.ioremap physAddr' 0x1000 0 true) =
      some ⟨{ s.spaces with tables := tables },
        [⟨vmapZoneStart, 0x2000, 0, physAddr⟩, ⟨vmapZoneStart + 0x2000, 0x2000, 0, physAddr'⟩]⟩ := by
  rw [KernelSpaces.step, Vm.ioremap, hzones, ioremapZone_second, Option.bind_some]
  dsimp only
  rw [hmap]
  rfl

/-- The second zone lies below the top-level entry of the first, which the processes have if it was there
when they were created. -/
theorem seen_second {physAddr physAddr' : Nat} (hzones : s.zones = [⟨vmapZoneStart, 0x2000, 0, physAddr⟩])
    (hpresent : s.spaces.tables.mem kernelPgtable 384 &&& presentFlag ≠ 0) :
    s.Seen kernelPgtable (.ioremap physAddr' 0x1000 0 true) := by
  refine ⟨nofun, .inr ?_⟩
  intro zone hzone i hlow hhigh
  rw [KernelSpaces.zoneOf, hzones, ioremapZone_second] at hzone
  obtain rfl := Option.some.inj hzone
  change pml4FromVa (vmapZoneStart + 0x2000) ≤ i at hlow
  change i ≤ pml4FromVa (vmapZoneStart + 0x2000) + pml4FromVa 0x2000 at hhigh
  rw [show pml4FromVa (vmapZoneStart + 0x2000) = 384 by decide] at hlow hhigh
  rw [show pml4FromVa 0x2000 = 0 by decide] at hhigh
  obtain rfl : i = 384 := by omega
  exact hpresent

/-- The first zone is mapped through a top-level entry that no process has. -/
theorem Shares.first_zone_hidden (hp : Supply pages limit) (h : Shares pages limit kernelPgtable s pos)
    {pt : Nat} (physAddr : Nat) (hpt : pt ∈ s.spaces.procs) (hzones : s.zones = [])
    (habsent : s.spaces.tables.mem kernelPgtable 384 = 0) (halign : physAddr % pageSize = 0)
    (hlt : physAddr < 2 ^ 48) (hroom : s.spaces.tables.next + 262657 ≤ limit) :
    ∃ s', s.step pages kernelPgtable (.ioremap physAddr 0x1000 0 true) = some s' ∧
      s'.spaces.procs = s.spaces.procs ∧
      cpuMmGetPhysAddress s'.spaces.tables kernelPgtable vmapZoneStart = physAddr ∧
      cpuMmGetPhysAddress s'.spaces.tables pt vmapZoneStart = 0xfff := by
  have hslot : pml4FromVa vmapZoneStart = 384 := by decide
  have hlast : pml4FromVa vmapZoneStart + pml4FromVa 0x2000 = 384 := by decide
  have hfull := @shared_full_kernel kernelPgtable vmapZoneStart (by decide)
  obtain ⟨tables, hmap, hnext, hentry⟩ := mapVmZone_first hp h physAddr hroom
  obtain ⟨pos', hown, hext⟩ := mapKernel_extends hp h.owned h.kernel hslot hlast (by decide)
    (fun i hi _ => (decide_eq_false (by omega)).symm) hmap (hnext.trans hroom)
  refine ⟨_, step_first hzones hmap, rfl, ?_, ?_⟩
  · dsimp only
    rw [getPhys_eq hown.labelled (hext.labels _ _ h.kernel) hfull, hentry,
      if_neg (pteEntry_present _ _), pteEntry_frame halign hlt]
  · have hword : tables.mem pt 384 = 0 := by
      rw [h.proc_words hext hpt 384, h.shared pt hpt 384 (by norm_num), habsent]
    unfold cpuMmGetPhysAddress
    dsimp only
    rw [hslot, hword]
    rfl

end hidden

/-- A process is created, then a page of device memory is mapped: the kernel's table translates
its address, the process's table does not. -/
theorem ioremap_hidden_from_process :
    ∃ kernelPgtable t, pagingInit lowPages ⟨fun _ _ => 0, 0⟩ 0x200000 = some (kernelPgtable, t) ∧
      ∃ s, run (KernelSpaces.step lowPages kernelPgtable) ⟨⟨t, []⟩, []⟩
          [.table .create, .ioremap 0xfd000000 0x1000 0 true] = some s ∧
        ∃ pt ∈ s.spaces.procs, 256 ≤ pml4FromVa vmapZoneStart ∧
          cpuMmGetPhysAddress s.spaces.tables kernelPgtable vmapZoneStart = 0xfd000000 ∧
          cpuMmGetPhysAddress s.spaces.tables pt vmapZoneStart = 0xfff := by
  obtain ⟨⟨kernelPgtable, t⟩, hinit⟩ :=
    Option.isSome_iff_exists.mp (pagingInit_isSome lowPages ⟨fun _ _ => 0, 0⟩ 0x200000)
  obtain ⟨-, hnext⟩ := pagingInit_takes hinit
  dsimp only at hnext
  obtain ⟨pos, hstart, hzero⟩ := pagingInit_shares lowPages_supply hinit (by omega)
  have hcreated := hstart.create lowPages_supply (by dsimp only; omega)
  have hother := (hcreated.roots _ List.mem_cons_self).1
  have habsent : (cpuMmCreatePageTable lowPages t kernelPgtable).2.mem kernelPgtable 384 = 0 := by
    rw [create_mem hother.symm, if_neg hother.symm]
    exact hzero 384 (by omega) (by omega)
  have hroom : (cpuMmCreatePageTable lowPages t kernelPgtable).2.next + 262657 ≤ 2 ^ 30 := by
    show t.next + 1 + 262657 ≤ 2 ^ 30
    omega
  obtain ⟨s, hstep, hprocs, hkernel, hproc⟩ := hcreated.first_zone_hidden lowPages_supply
    0xfd000000 List.mem_cons_self rfl habsent (by decide) (by decide) hroom
  refine ⟨kernelPgtable, t, hinit, s, ?_, lowPages t.next, ?_, by decide, hkernel, hproc⟩
  · simp only [run]
    exact Option.bind_eq_some_iff.mpr ⟨_, rfl, Option.bind_eq_some_iff.mpr ⟨s, hstep, rfl⟩⟩
  · rw [hprocs]
    exact List.mem_cons_self

/-- The other order: device memory is mapped before the first process is created, and more of it
afterwards, below the same top-level entry. -/
theorem run_kernel_half_shared_early :
    ∃ kernelPgtable t s, pagingInit lowPages ⟨fun _ _ => 0, 0⟩ 0x200000 = some (kernelPgtable, t) ∧
      run (KernelSpaces.step lowPages kernelPgtable) ⟨⟨t, []⟩, []⟩
        [.ioremap 0xfd000000 0x1000 0 true, .table .create, .ioremap 0xfe000000 0x1000 0 true] = some s ∧
      s.spaces.procs ≠ [] ∧
      ∀ pt ∈ s.spaces.procs, ∀ vaddr, 256 ≤ pml4FromVa vaddr →
        cpuMmGetPhysAddress s.spaces.tables pt vaddr =
          cpuMmGetPhysAddress s.spaces.tables kernelPgtable vaddr := by
  obtain ⟨⟨kernelPgtable, t⟩, hinit⟩ :=
    Option.isSome_iff_exists.mp (pagingInit_isSome lowPages ⟨fun _ _ => 0, 0⟩ 0x200000)
  obtain ⟨-, hnext⟩ := pagingInit_takes hinit
  dsimp only at hnext
  obtain ⟨pos, hstart, -⟩ := pagingInit_shares lowPages_supply hinit (by omega)
  obtain ⟨tables, hmap, htables, hleaf⟩ :=
    mapVmZone_first lowPages_supply hstart 0xfd000000 (by dsimp only; omega)
  have hfirst := step_first rfl hmap
  dsimp only at htables hfirst
  have hroom₁ : (⟨⟨t, []⟩, []⟩ : KernelSpaces).Room lowPages (2 ^ 30) kernelPgtable
      (.ioremap 0xfd000000 0x1000 0 true) := by
    intro s' hs'
    obtain rfl := Option.some.inj (hfirst.symm.trans hs')
    show tables.next ≤ 2 ^ 30
    omega
  have hseen₁ : (⟨⟨t, []⟩, []⟩ : KernelSpaces).Seen kernelPgtable (.ioremap 0xfd000000 0x1000 0 true) :=
    ⟨nofun, .inl rfl⟩
  obtain ⟨pos₁, h₁⟩ := hstart.step lowPages_supply hroom₁ hseen₁ hfirst
  have hcreated := h₁.create lowPages_supply (by dsimp only; omega)
  have hother := (hcreated.roots _ List.mem_cons_self).1
  -- the entry that the first zone has made is still there
  have hpresent :
      (cpuMmCreatePageTable lowPages tables kernelPgtable).2.mem kernelPgtable 384 &&& presentFlag ≠ 0 := by
    rw [create_mem hother.symm, if_neg hother.symm]
    exact top_present_of_leaf (hleaf ▸ pteEntry_present _ _)
  obtain ⟨tables', hmap', -, htables'⟩ := mapVmZone_two lowPages
    (cpuMmCreatePageTable lowPages tables kernelPgtable).2 kernelPgtable 0xfe000000
    (show pteFromVa (vmapZoneStart + 0x2000) ≤ 510 by decide)
  change tables'.next ≤ tables.next + 1 + 262657 at htables'
  let s₂ : KernelSpaces := ⟨⟨(cpuMmCreatePageTable lowPages tables kernelPgtable).2,
    [(cpuMmCreatePageTable lowPages tables kernelPgtable).1]⟩, [⟨vmapZoneStart, 0x2000, 0, 0xfd000000⟩]⟩
  have hsecond := step_second (s := s₂) rfl hmap'
  have hrun : run (KernelSpaces.step lowPages kernelPgtable) ⟨⟨t, []⟩, []⟩
      [.ioremap 0xfd000000 0x1000 0 true, .table .create, .ioremap 0xfe000000 0x1000 0 true] = some _ :=
    Option.bind_eq_some_iff.mpr ⟨_, hfirst, Option.bind_eq_some_iff.mpr ⟨_, rfl,
      Option.bind_eq_some_iff.mpr ⟨_, hsecond, rfl⟩⟩⟩
  have hseen : Guarded (KernelSpaces.step lowPages kernelPgtable)
      (fun s c => s.Room lowPages (2 ^ 30) kernelPgtable c ∧ s.Seen kernelPgtable c) ⟨⟨t, []⟩, []⟩
      [.ioremap 0xfd000000 0x1000 0 true, .table .create, .ioremap 0xfe000000 0x1000 0 true] := by
    refine ⟨⟨hroom₁, hseen₁⟩, ?_⟩
    rw [hfirst]
    refine ⟨⟨?_, ?_, .inr nofun⟩, ⟨?_, seen_second (s := s₂) rfl hpresent⟩, ?_⟩
    · intro s' hs'
      obtain rfl := Option.some.inj hs'
      show tables.next + 1 ≤ 2 ^ 30
      omega
    · rintro c' hc
      obtain rfl := KernelCall.table.inj hc
      trivial
    · intro s' hs'
      obtain rfl := Option.some.inj (hsecond.symm.trans hs')
      show tables'.next ≤ 2 ^ 30
      omega
    · split <;> trivial
  exact ⟨kernelPgtable, t, _, hinit, hrun, List.cons_ne_nil _ _,
    run_kernel_half_shared lowPages_supply hinit (by omega) hseen hrun⟩

end Lucix.Vm
