import Lucix.Sched
import Lucix.KernelHalf

/-! The page table in `CR3`. The scheduler loads the table of the task it switches to,
and `map_vm_zone` loads the table of the kernel. -/
namespace Lucix.Sched
open Ring Execution RoundRobin PageTable Vm

/-- The cpu and the kernel's mappings; tasks are named in the order in which they are created. -/
structure Machine where
  cpu : Cpu
  kernel : KernelSpaces
  nextTask : Nat

inductive MachineCall where
  | timer
  | addTask (kstack : Nat)
  | ioremap (physAddr size flags : Nat) (memory : Bool)
  | mapVmZone (zone : VmZone)

/-- The call ends in `map_vm_zone`. -/
def MachineCall.maps : MachineCall → Bool
  | .ioremap .. => true
  | .mapVmZone _ => true
  | _ => false

section machine
variable (pages : Nat → Nat) (kernelPgtable : Nat)

/-- The end of `map_vm_zone` loads the kernel's table. -/
def Machine.mapKernel (s : Machine) (c : KernelCall) : Option Machine :=
  (s.kernel.step pages kernelPgtable c).map fun kernel =>
    { s with kernel := kernel, cpu := { s.cpu with cr3 := va2pa kernelPgtable } }

def Machine.step (s : Machine) : MachineCall → Option Machine
  | .timer => (timerIrq s.cpu).map fun cpu => { s with cpu := cpu }
  | .addTask kstack =>
      let (pgtable, tables) := cpuMmCreatePageTable pages s.kernel.spaces.tables kernelPgtable
      some ⟨schedAddTask (createTask s.cpu s.nextTask pgtable kstack) s.nextTask,
        { s.kernel with spaces := ⟨tables, pgtable :: s.kernel.spaces.procs⟩ }, s.nextTask + 1⟩
  | .ioremap physAddr size flags memory =>
      s.mapKernel pages kernelPgtable (.ioremap physAddr size flags memory)
  | .mapVmZone zone => s.mapKernel pages kernelPgtable (.mapVmZone zone)

end machine

/-- The machine after `paging_init` and `sched_per_cpu_init`. -/
def Machine.boot (cpu : Cpu) (tables : Tables) : Machine := ⟨schedPerCpuInit cpu, ⟨⟨tables, []⟩, []⟩, 0⟩

def Machine.start (s : Machine) : Option Machine :=
  (schedStart s.cpu).map fun cpu => { s with cpu := cpu }

/-- The table of the current task is loaded. -/
def Loaded (s : Machine) : Prop :=
  ∃ t pgtable, s.cpu.current = some t ∧ (s.cpu.tasks t).mm = some pgtable ∧ s.cpu.cr3 = va2pa pgtable

/-! ### What the calls keep -/

/-- The tasks on the queue have been created, each with a table of its own that is newer than the
kernel's, the page `k`. -/
structure Spaced (pages : Nat → Nat) (k : Nat) (s : Machine) (queue : List Nat) : Prop where
  ring : s.cpu.links.IsRing .head (queue.map .task)
  created : ∀ t ∈ queue, t < s.nextTask
  table : ∀ t ∈ queue, ∃ l, k < l ∧ l < s.kernel.spaces.tables.next ∧ (s.cpu.tasks t).mm = some (pages l)

section steps
variable {pages : Nat → Nat} {kernelPgtable k : Nat} {s s' : Machine} {queue : List Nat}

theorem Spaced.addTask (h : Spaced pages k s queue) (hk : k < s.kernel.spaces.tables.next) (kstack : Nat)
    (hstep : s.step pages kernelPgtable (.addTask kstack) = some s') :
    Spaced pages k s' (queue ++ [s.nextTask]) ∧ s'.cpu.current = s.cpu.current ∧
      s'.cpu.cr3 = s.cpu.cr3 ∧ ∀ t ∈ queue, s'.cpu.tasks t = s.cpu.tasks t := by
  obtain rfl := Option.some.inj hstep
  have hnew : ∀ t ∈ queue, t ≠ s.nextTask := fun t ht => Nat.ne_of_lt (h.created t ht)
  have hkept : ∀ t ∈ queue, (createTask s.cpu s.nextTask (pages s.kernel.spaces.tables.next) kstack).tasks t =
      s.cpu.tasks t := fun t ht => Function.update_of_ne (hnew t ht) _ _
  refine ⟨⟨?_, ?_, ?_⟩, rfl, rfl, hkept⟩
  · have hfresh : QNode.task s.nextTask ∉ QNode.head :: queue.map .task := by
      simpa using fun hmem => hnew _ hmem rfl
    have hring : (initListHead s.cpu.links (.task s.nextTask)).IsRing .head (queue.map .task) := by
      have hother : ∀ n ∈ QNode.head :: queue.map .task, n ≠ .task s.nextTask := by
        rintro n hn rfl
        exact hfresh hn
      exact h.ring.congr (fun n hn => (initListHead_frame (hother n hn)).1)
        (fun n hn => (initListHead_frame (hother n hn)).2)
    rw [List.map_append]
    exact listAddTail_ring hring hfresh
  · intro t ht
    rcases List.mem_append.mp ht with hmem | hmem
    · exact Nat.lt_succ_of_lt (h.created t hmem)
    · exact List.mem_singleton.mp hmem ▸ Nat.lt_succ_self _
  · intro t ht
    rcases List.mem_append.mp ht with hmem | hmem
    · obtain ⟨l, hkl, hl, hmm⟩ := h.table t hmem
      exact ⟨l, hkl, Nat.lt_succ_of_lt hl, (congrArg Task.mm (hkept t hmem)).trans hmm⟩
    · obtain rfl := List.mem_singleton.mp hmem
      have hmm : (createTask s.cpu s.nextTask (pages s.kernel.spaces.tables.next) kstack).tasks s.nextTask =
          ⟨some (pages s.kernel.spaces.tables.next), kstack, false⟩ := Function.update_self _ _ _
      exact ⟨s.kernel.spaces.tables.next, hk, Nat.lt_succ_self _, congrArg Task.mm hmm⟩

theorem Spaced.mapKernel (h : Spaced pages k s queue) {c : KernelCall} (hc : ∀ c', c ≠ .table c')
    (hstep : s.mapKernel pages kernelPgtable c = some s') :
    Spaced pages k s' queue ∧ s'.cpu.current = s.cpu.current ∧ s'.cpu.cr3 = va2pa kernelPgtable ∧
      s.kernel.spaces.tables.next ≤ s'.kernel.spaces.tables.next := by
  obtain ⟨kernel, hkernel, rfl⟩ := Option.map_eq_some_iff.mp hstep
  have hlater : s.kernel.spaces.tables.next ≤ kernel.spaces.tables.next := by
    cases c with
    | table c' => exact absurd rfl (hc c')
    | ioremap physAddr size flags memory =>
        obtain ⟨⟨tables, zones⟩, hioremap, rfl⟩ := Option.map_eq_some_iff.mp hkernel
        obtain ⟨zone, -, hmap⟩ := Option.bind_eq_some_iff.mp hioremap
        obtain ⟨tables', hmap', hpair⟩ := Option.map_eq_some_iff.mp hmap
        obtain ⟨rfl, -⟩ := Prod.mk.inj hpair
        exact mapContiguous_later hmap'
    | mapVmZone zone =>
        rw [KernelSpaces.step] at hkernel
        split_ifs at hkernel
        obtain ⟨tables, hmap, rfl⟩ := Option.map_eq_some_iff.mp hkernel
        exact mapContiguous_later hmap
  refine ⟨⟨h.ring, h.created, ?_⟩, rfl, rfl, hlater⟩
  intro t ht
  obtain ⟨l, hkl, hl, hmm⟩ := h.table t ht
  exact ⟨l, hkl, hl.trans_le hlater, hmm⟩

/-- The state while tasks run. -/
structure Running (pages : Nat → Nat) (k : Nat) (s : Machine) : Prop where
  newer : k < s.kernel.spaces.tables.next
  turn : ∃ t : Turn Nat, Runs s.cpu t ∧ Spaced pages k s t.queue

theorem Running.timer (h : Running pages k s) (hstep : s.step pages kernelPgtable .timer = some s') :
    Running pages k s' ∧ (Loaded s → Loaded s') := by
  obtain ⟨t, hruns, hspaced⟩ := h.turn
  obtain ⟨cpu, hirq, rfl⟩ := Option.map_eq_some_iff.mp hstep
  have hmarked : Runs (s.cpu.setNeedsSched t.now true) t := ⟨hruns.ring, hruns.current⟩
  rw [hruns.timerIrq, hmarked.schedule_eq] at hirq
  have hnext : t.next.now ∈ t.queue := List.get_mem _ _
  obtain ⟨l, -, -, hmm⟩ := hspaced.table _ hnext
  split_ifs at hirq with hsame
  · obtain rfl := Option.some.inj hirq
    refine ⟨⟨h.newer, t, ⟨hruns.ring, hruns.current⟩, hspaced.ring, hspaced.created, ?_⟩, ?_⟩
    · simpa only [setNeedsSched_mm] using hspaced.table
    · rintro ⟨x, pgtable, hx, hxmm, hcr3⟩
      exact ⟨x, pgtable, hx, by simpa only [setNeedsSched_mm] using hxmm, hcr3⟩
  · obtain rfl := Option.some.inj hirq
    refine ⟨⟨h.newer, t.next, ⟨hruns.ring, rfl⟩, hspaced.ring, hspaced.created, ?_⟩, ?_⟩
    · simp only [switchTo, setNeedsSched_mm]
      exact hspaced.table
    · rintro -
      refine ⟨t.next.now, pages l, rfl, ?_, ?_⟩
      · simpa only [switchTo, setNeedsSched_mm] using hmm
      · simp only [switchTo, setNeedsSched_mm, hmm]

theorem Running.step (h : Running pages k s) {c : MachineCall}
    (hstep : s.step pages kernelPgtable c = some s') :
    Running pages k s' ∧ s.kernel.spaces.tables.next ≤ s'.kernel.spaces.tables.next ∧
      (c.maps = false → Loaded s → Loaded s') ∧ (c.maps = true → s'.cpu.cr3 = va2pa kernelPgtable) := by
  obtain ⟨t, hruns, hspaced⟩ := h.turn
  have hmap : ∀ c' : KernelCall, (∀ c'', c' ≠ .table c'') →
      s.mapKernel pages kernelPgtable c' = some s' →
      Running pages k s' ∧ s.kernel.spaces.tables.next ≤ s'.kernel.spaces.tables.next ∧
        s'.cpu.cr3 = va2pa kernelPgtable := by
    intro c' hc' hstep'
    obtain ⟨hspaced', hcurrent, hcr3, hlater⟩ := hspaced.mapKernel hc' hstep'
    exact ⟨⟨h.newer.trans_le hlater, t, ⟨hspaced'.ring, hcurrent.trans hruns.current⟩, hspaced'⟩, hlater, hcr3⟩
  cases c with
  | timer =>
      have htimer := h.timer hstep
      obtain ⟨cpu, -, rfl⟩ := Option.map_eq_some_iff.mp hstep
      exact ⟨htimer.1, Nat.le_refl _, fun _ => htimer.2, nofun⟩
  | addTask kstack =>
      obtain ⟨hspaced', hcurrent, hcr3, htasks⟩ := hspaced.addTask h.newer kstack hstep
      have hlater : s.kernel.spaces.tables.next ≤ s'.kernel.spaces.tables.next := by
        obtain rfl := Option.some.inj hstep
        exact Nat.le_succ _
      have hnow : t.now ∈ t.queue := List.get_mem _ _
      refine ⟨⟨h.newer.trans_le hlater, t.join s.nextTask, ⟨hspaced'.ring, ?_⟩, hspaced'⟩, hlater, ?_, nofun⟩
      · rw [Turn.join_now]
        exact hcurrent.trans hruns.current
      · rintro - ⟨x, pgtable, hx, hxmm, hloaded⟩
        obtain rfl := Option.some.inj (hruns.current.symm.trans hx)
        exact ⟨t.now, pgtable, hcurrent.trans hx, (congrArg Task.mm (htasks _ hnow)).trans hxmm,
          hcr3.trans hloaded⟩
  | ioremap physAddr size flags memory =>
      obtain ⟨hrunning, hlater, hcr3⟩ := hmap _ (by simp) hstep
      exact ⟨hrunning, hlater, nofun, fun _ => hcr3⟩
  | mapVmZone zone =>
      obtain ⟨hrunning, hlater, hcr3⟩ := hmap _ (by simp) hstep
      exact ⟨hrunning, hlater, nofun, fun _ => hcr3⟩

theorem Spaced.start (h : Spaced pages k s queue) (hk : k < s.kernel.spaces.tables.next)
    (hstart : s.start = some s') : Running pages k s' ∧ Loaded s' := by
  obtain ⟨cpu, hcpu, rfl⟩ := Option.map_eq_some_iff.mp hstart
  obtain ⟨first, hfirst, hrest⟩ := Option.bind_eq_some_iff.mp hcpu
  obtain ⟨pgtable, hmm, hcpu'⟩ := Option.bind_eq_some_iff.mp hrest
  obtain rfl := Option.some.inj hcpu'
  cases queue with
  | nil =>
      rw [h.ring.seg.1] at hfirst
      cases hfirst
  | cons x rest =>
      have hring := h.ring
      rw [List.map_cons] at hring
      rw [hring.next_head] at hfirst
      obtain rfl := Option.some.inj hfirst
      exact ⟨⟨hk, ⟨x :: rest, 0, Nat.succ_pos _⟩, ⟨h.ring, rfl⟩, h.ring, h.created, h.table⟩, x, pgtable,
        rfl, hmm, rfl⟩

end steps

/-! ### Runs -/

section runs
variable {pages : Nat → Nat} {kernelPgtable limit kernelPhysBase : Nat} {base tables : Tables} {cpu : Cpu}
  {pre calls : List MachineCall} {s₁ s₂ s₃ : Machine}

/-- The calls before `sched_start`: tasks are added and zones are mapped. -/
theorem boot_spaced {k : Nat} (hk : k < tables.next)
    (hboot : run (Machine.step pages kernelPgtable) (Machine.boot cpu tables) pre = some s₁)
    (hpre : ∀ c ∈ pre, c ≠ .timer) :
    ∃ queue, Spaced pages k s₁ queue ∧ k < s₁.kernel.spaces.tables.next := by
  have hempty : Spaced pages k (Machine.boot cpu tables) [] :=
    ⟨Links.isRing_nil.mpr (initListHead_selfLinked _ _), nofun, nofun⟩
  have hguard : Guarded (Machine.step pages kernelPgtable) (fun _ c => c ≠ .timer)
      (Machine.boot cpu tables) pre := guarded_of_forall (fun c hc _ => hpre c hc) _
  refine run_guarded (fun s => ∃ queue, Spaced pages k s queue ∧ k < s.kernel.spaces.tables.next) ?_
    ⟨[], hempty, hk⟩ hguard hboot
  rintro s c s' ⟨queue, hspaced, hlt⟩ hc hstep
  cases c with
  | timer => exact absurd rfl hc
  | addTask kstack =>
      refine ⟨_, (hspaced.addTask hlt kstack hstep).1, ?_⟩
      obtain rfl := Option.some.inj hstep
      exact Nat.lt_succ_of_lt hlt
  | ioremap physAddr size flags memory =>
      obtain ⟨hspaced', -, -, hlater⟩ := hspaced.mapKernel (by simp) hstep
      exact ⟨queue, hspaced', hlt.trans_le hlater⟩
  | mapVmZone zone =>
      obtain ⟨hspaced', -, -, hlater⟩ := hspaced.mapKernel (by simp) hstep
      exact ⟨queue, hspaced', hlt.trans_le hlater⟩

theorem run_loaded {k : Nat} (hrunning : Running pages k s₂) (hloaded : Loaded s₂)
    (hcalls : ∀ c ∈ calls, c.maps = false)
    (hrun : run (Machine.step pages kernelPgtable) s₂ calls = some s₃) : Loaded s₃ := by
  have hguard : Guarded (Machine.step pages kernelPgtable) (fun _ c => c.maps = false) s₂ calls :=
    guarded_of_forall (fun c hc _ => hcalls c hc) _
  have hstep : ∀ s c s', Running pages k s ∧ Loaded s → c.maps = false →
      s.step pages kernelPgtable c = some s' → Running pages k s' ∧ Loaded s' := by
    rintro s c s' ⟨hr, hl⟩ hc hs
    obtain ⟨hr', -, hkeep, -⟩ := hr.step hs
    exact ⟨hr', hkeep hc hl⟩
  exact (run_guarded _ hstep ⟨hrunning, hloaded⟩ hguard hrun).2

theorem run_running {k : Nat} (hrunning : Running pages k s₂)
    (hrun : run (Machine.step pages kernelPgtable) s₂ calls = some s₃) :
    Running pages k s₃ ∧ s₂.kernel.spaces.tables.next ≤ s₃.kernel.spaces.tables.next := by
  have hstep : ∀ s c s',
      Running pages k s ∧ s₂.kernel.spaces.tables.next ≤ s.kernel.spaces.tables.next →
      s.step pages kernelPgtable c = some s' →
      Running pages k s' ∧ s₂.kernel.spaces.tables.next ≤ s'.kernel.spaces.tables.next := by
    rintro s c s' ⟨hr, hle⟩ hs
    obtain ⟨hr', hlater, -⟩ := hr.step hs
    exact ⟨hr', hle.trans hlater⟩
  exact run_preserves _ hstep ⟨hrunning, Nat.le_refl _⟩ hrun

theorem Running.not_loaded {k : Nat} {s : Machine} (h : Running pages k s) (hp : Supply pages limit)
    (hroom : s.kernel.spaces.tables.next ≤ limit) (hcr3 : s.cpu.cr3 = va2pa (pages k)) : ¬ Loaded s := by
  rintro ⟨x, pgtable, hx, hmm, hloaded⟩
  obtain ⟨t, hruns, hspaced⟩ := h.turn
  obtain rfl := Option.some.inj (hruns.current.symm.trans hx)
  obtain ⟨l, hkl, hl, hmm'⟩ := hspaced.table t.now (List.get_mem _ _)
  obtain rfl := Option.some.inj (hmm.symm.trans hmm')
  have hsame : pages k = pages l := by
    rw [← pa2va_va2pa (pages k), ← hcr3, hloaded, pa2va_va2pa]
  have := hp.different k (hkl.trans (hl.trans_le hroom)) l (hl.trans_le hroom) hsame
  omega

/-- In a run without `map_vm_zone` the table of the current task is always loaded; a run with it
reaches a state in which it is not. -/
theorem loaded_without_mapping
    (hinit : pagingInit pages base kernelPhysBase = some (kernelPgtable, tables))
    (hpre : ∀ c ∈ pre, c ≠ .timer)
    (hboot : run (Machine.step pages kernelPgtable) (Machine.boot cpu tables) pre = some s₁)
    (hstart : s₁.start = some s₂)
    (hrun : run (Machine.step pages kernelPgtable) s₂ calls = some s₃) :
    ((∀ c ∈ calls, c.maps = false) → ∀ calls' s, calls' <+: calls →
      run (Machine.step pages kernelPgtable) s₂ calls' = some s → Loaded s) ∧
    (∀ limit, Supply pages limit → s₃.kernel.spaces.tables.next ≤ limit →
      (∀ calls' s, calls' <+: calls → run (Machine.step pages kernelPgtable) s₂ calls' = some s → Loaded s) →
      ∀ c ∈ calls, c.maps = false) := by
  obtain ⟨rfl, t₁, hmap₁, hmap₂⟩ := pagingInit_cases hinit
  have hk : base.next < tables.next := (mapContiguous_later hmap₁).trans (mapContiguous_later hmap₂)
  obtain ⟨queue, hspaced, hk₁⟩ := boot_spaced hk hboot hpre
  obtain ⟨hrunning, hloaded⟩ := hspaced.start hk₁ hstart
  constructor
  · intro hcalls calls' s hbefore hrun'
    exact run_loaded hrunning hloaded (fun c hc => hcalls c (hbefore.subset hc)) hrun'
  · intro limit hp hroom hall c hc
    by_contra hmaps
    obtain ⟨front, back, rfl⟩ := List.append_of_mem hc
    rw [List.append_cons, run_append] at hrun
    obtain ⟨u, hfront, hback⟩ := Option.bind_eq_some_iff.mp hrun
    have hbefore : front ++ [c] <+: front ++ c :: back := ⟨back, (List.append_cons front c back).symm⟩
    have hu := hall _ u hbefore hfront
    obtain ⟨hrunning', -⟩ := run_running hrunning hfront
    obtain ⟨-, hlater⟩ := run_running hrunning' hback
    rw [run_append] at hfront
    obtain ⟨v, hv, hlast⟩ := Option.bind_eq_some_iff.mp hfront
    obtain ⟨w, hw, hend⟩ := Option.bind_eq_some_iff.mp hlast
    obtain rfl := Option.some.inj hend
    obtain ⟨-, -, -, hcr3⟩ := (run_running hrunning hv).1.step hw
    exact hrunning'.not_loaded hp (hlater.trans hroom) (hcr3 (by simpa using hmaps)) hu

end runs

/-- Two tasks, the timer, and a third task. -/
theorem loaded_without_mapping_three :
    ∃ kernelPgtable tables s₁ s₂ s₃,
      pagingInit lowPages ⟨fun _ _ => 0, 0⟩ 0x200000 = some (kernelPgtable, tables) ∧
      run (Machine.step lowPages kernelPgtable) (Machine.boot bareCpu tables)
        [.addTask 0x2000, .addTask 0x4000] = some s₁ ∧ s₁.start = some s₂ ∧
      run (Machine.step lowPages kernelPgtable) s₂ [.timer, .addTask 0x6000] = some s₃ ∧
      ∀ calls' s, calls' <+: [MachineCall.timer, .addTask 0x6000] →
        run (Machine.step lowPages kernelPgtable) s₂ calls' = some s → Loaded s := by
  obtain ⟨⟨kernelPgtable, tables⟩, hinit⟩ :=
    Option.isSome_iff_exists.mp (pagingInit_isSome lowPages ⟨fun _ _ => 0, 0⟩ 0x200000)
  have hboot : run (Machine.step lowPages kernelPgtable) (Machine.boot bareCpu tables)
      [.addTask 0x2000, .addTask 0x4000] = some _ := rfl
  have hpre : ∀ c ∈ [MachineCall.addTask 0x2000, .addTask 0x4000], c ≠ .timer := by simp
  refine ⟨kernelPgtable, tables, _, _, _, hinit, hboot, rfl, rfl, ?_⟩
  exact (loaded_without_mapping hinit hpre hboot rfl rfl).1 (by simp [MachineCall.maps])

theorem Running.first_zone {pages : Nat → Nat} {k limit : Nat} {s : Machine} (h : Running pages k s)
    (hp : Supply pages limit) (hzones : s.kernel.zones = [])
    (hroom : s.kernel.spaces.tables.next + 262657 ≤ limit) :
    ∃ s', s.step pages (pages k) (.ioremap 0xfd000000 0x1000 0 true) = some s' ∧ ¬ Loaded s' := by
  have hslot : pml4FromVa vmapZoneStart + pml4FromVa 0x2000 < 512 := by decide
  have hsize : pml4FromVa 0x2000 = 0 := by decide
  obtain ⟨tables, hmap⟩ : ∃ tables, Vm.mapVmZone pages s.kernel.spaces.tables (pages k)
      ⟨vmapZoneStart, 0x2000, 0, 0xfd000000⟩ = some tables := by
    simp only [Vm.mapVmZone, mapContiguous, if_pos hslot]
    exact ⟨_, rfl⟩
  have htakes := mapContiguous_takes hmap
  rw [hsize] at htakes
  have hstep : s.step pages (pages k) (.ioremap 0xfd000000 0x1000 0 true) =
      some ⟨{ s.cpu with cr3 := va2pa (pages k) },
        ⟨{ s.kernel.spaces with tables := tables }, [⟨vmapZoneStart, 0x2000, 0, 0xfd000000⟩]⟩,
        s.nextTask⟩ := by
    rw [Machine.step, Machine.mapKernel, step_first hzones hmap]
    rfl
  refine ⟨_, hstep, (h.step hstep).1.not_loaded hp ?_ rfl⟩
  exact htakes.trans (by omega)

/-- A task maps a page of device memory and is left with the kernel's table. -/
theorem ioremap_leaves_kernel_table :
    ∃ kernelPgtable tables s₁ s₂ s₃,
      pagingInit lowPages ⟨fun _ _ => 0, 0⟩ 0x200000 = some (kernelPgtable, tables) ∧
      run (Machine.step lowPages kernelPgtable) (Machine.boot bareCpu tables) [.addTask 0x2000] = some s₁ ∧
      s₁.start = some s₂ ∧
      run (Machine.step lowPages kernelPgtable) s₂ [.ioremap 0xfd000000 0x1000 0 true] = some s₃ ∧
      ¬ Loaded s₃ := by
  obtain ⟨⟨kernelPgtable, tables⟩, hinit⟩ :=
    Option.isSome_iff_exists.mp (pagingInit_isSome lowPages ⟨fun _ _ => 0, 0⟩ 0x200000)
  obtain ⟨rfl, hnext⟩ := pagingInit_takes hinit
  obtain ⟨-, t₁, hmap₁, hmap₂⟩ := pagingInit_cases hinit
  have hk : 0 < tables.next := (mapContiguous_later hmap₁).trans (mapContiguous_later hmap₂)
  dsimp only at hnext hinit
  have hboot : run (Machine.step lowPages (lowPages 0)) (Machine.boot bareCpu tables) [.addTask 0x2000] =
      some _ := rfl
  obtain ⟨queue, hspaced, hk₁⟩ := boot_spaced hk hboot (by simp)
  obtain ⟨hrunning, -⟩ := hspaced.start hk₁ rfl
  have hroom : tables.next + 1 + 262657 ≤ 2 ^ 30 := by omega
  obtain ⟨s₃, hstep, hnot⟩ := hrunning.first_zone lowPages_supply rfl hroom
  exact ⟨lowPages 0, tables, _, _, s₃, hinit, hboot, rfl,
    Option.bind_eq_some_iff.mpr ⟨s₃, hstep, rfl⟩, hnot⟩

end Lucix.Sched
