import Lucix.Sched
import Lucix.Word

/-!
# Switching tasks, `arch/x86_64/jmp_user.s` and `mk_kernel_task`

The stack and the registers that `cpu_switch_to` saves and loads. Memory is a map from
addresses to the 8-byte words there. In `struct task` the field at offset `0x40`, which
the assembly uses, is `kstack`; the field `ksp` is at `0x48`.
-/
namespace Lucix.Sched
open Ring Execution

/-- The stack pointer and the callee-saved registers. -/
structure Regs where
  rsp : Nat
  rbp : Nat
  rbx : Nat
  r12 : Nat
  r13 : Nat
  r14 : Nat
  r15 : Nat
  deriving DecidableEq, Repr

/-- Memory with a stack pointer into it. -/
structure Stack where
  mem : Nat → Nat
  rsp : Nat

def Stack.push (st : Stack) (word : Nat) : Stack :=
  ⟨Function.update st.mem (sub64 st.rsp 8) word, sub64 st.rsp 8⟩

def Stack.pop (st : Stack) : Nat × Stack := (st.mem st.rsp, ⟨st.mem, wrap64 (st.rsp + 8)⟩)

/-- The pushes of `cpu_switch_to`, behind the return address that its call has pushed. -/
def pushRegs (st : Stack) (r : Regs) (ret : Nat) : Stack :=
  let st := st.push ret
  let st := st.push r.rbp
  let st := st.push r.rbx
  let st := st.push r.r12
  let st := st.push r.r13
  let st := st.push r.r14
  st.push r.r15

/-- The pops of `cpu_switch_to` and its `ret`: the registers and where it returns to. -/
def popRegs (st : Stack) : Regs × Nat :=
  let (r15, st) := st.pop
  let (r14, st) := st.pop
  let (r13, st) := st.pop
  let (r12, st) := st.pop
  let (rbx, st) := st.pop
  let (rbp, st) := st.pop
  let (rip, st) := st.pop
  (⟨st.rsp, rbp, rbx, r12, r13, r14, r15⟩, rip)

structure Context where
  cpu : Cpu
  ksp : Nat → Nat
  mem : Nat → Nat
  regs : Regs
  rip : Nat

def Cpu.setKstack (s : Cpu) (t kstack : Nat) : Cpu :=
  { s with tasks := Function.update s.tasks t { s.tasks t with kstack := kstack } }

/-- The function `create_task` with its effect on `ksp` and on the stack pages, which `alloc_pages`
clears. -/
def Context.createTask (s : Context) (t pgtable kstack : Nat) : Context :=
  { s with
    cpu := Sched.createTask s.cpu t pgtable kstack
    ksp := Function.update s.ksp t (kstack + pageSize * 2)
    mem := fun a => if kstack ≤ a ∧ a < kstack + pageSize * 2 then 0 else s.mem a }

/-- The function `mk_kernel_task`, without the initial registers of `cpu_ktask_setup`. -/
def Context.mkKernelTask (s : Context) (t pgtable kstack entry : Nat) : Context :=
  let s := s.createTask t pgtable kstack
  let ksp := s.ksp t - 8
  { s with
    mem := Function.update s.mem ksp entry
    ksp := Function.update s.ksp t (ksp - 48) }

/-- The call of `cpu_switch_to`, which returns to `ret` when `prev` is switched in again. -/
def Context.cpuSwitchTo (s : Context) (ret prev next : Nat) : Context :=
  let st := pushRegs ⟨s.mem, s.regs.rsp⟩ s.regs ret
  let cpu := s.cpu.setKstack prev st.rsp
  let (regs, rip) := popRegs ⟨st.mem, (cpu.tasks next).kstack⟩
  { s with cpu := cpu, mem := st.mem, regs := regs, rip := rip }

/-! ### Frames -/

/-- The words that `cpu_switch_to` leaves at the top of a stack. -/
def Frame (mem : Nat → Nat) (sp : Nat) (r : Regs) (ret : Nat) : Prop :=
  mem sp = r.r15 ∧ mem (sp + 8) = r.r14 ∧ mem (sp + 16) = r.r13 ∧ mem (sp + 24) = r.r12 ∧
    mem (sp + 32) = r.rbx ∧ mem (sp + 40) = r.rbp ∧ mem (sp + 48) = ret

theorem popRegs_eq (mem : Nat → Nat) {sp : Nat} (h : sp + 56 < 2 ^ 64) :
    popRegs ⟨mem, sp⟩ = (⟨sp + 56, mem (sp + 40), mem (sp + 32), mem (sp + 24), mem (sp + 16), mem (sp + 8),
      mem sp⟩, mem (sp + 48)) := by
  have hstep : ∀ k, k < 49 → wrap64 (sp + k + 8) = sp + (k + 8) := fun k hk => wrap64_of_lt (by omega)
  have hfirst : wrap64 (sp + 8) = sp + 8 := wrap64_of_lt (by omega)
  simp only [popRegs, Stack.pop, hfirst, hstep, Nat.reduceAdd, Nat.reduceLT]

theorem pushRegs_rsp (st : Stack) (r : Regs) (ret : Nat) : (pushRegs st r ret).rsp = sub64 st.rsp 56 := by
  simp only [pushRegs, Stack.push]
  repeat rw [sub64_sub64 (by norm_num) (by norm_num)]

theorem pushRegs_mem (mem : Nat → Nat) {sp : Nat} (r : Regs) (ret : Nat) (h : sp + 56 < 2 ^ 64) :
    Frame (pushRegs ⟨mem, sp + 56⟩ r ret).mem sp r ret ∧
      ∀ a, ¬ (sp ≤ a ∧ a < sp + 56) → (pushRegs ⟨mem, sp + 56⟩ r ret).mem a = mem a := by
  have hstep : ∀ k, 8 ≤ k → k ≤ 56 → sub64 (sp + k) 8 = sp + (k - 8) := by
    intro k hk hle
    rw [sub64_of_le (by omega) (by omega), Nat.add_sub_assoc hk]
  have hmem : (pushRegs ⟨mem, sp + 56⟩ r ret).mem =
      Function.update (Function.update (Function.update (Function.update (Function.update (Function.update
        (Function.update mem (sp + 48) ret) (sp + 40) r.rbp) (sp + 32) r.rbx) (sp + 24) r.r12) (sp + 16) r.r13)
        (sp + 8) r.r14) sp r.r15 := by
    simp only [pushRegs, Stack.push, hstep, Nat.reduceLeDiff, Nat.reduceSub, Nat.add_zero]
  rw [hmem]
  constructor
  · simp [Frame]
  · intro a ha
    simp only [Function.update_apply]
    split_ifs <;> omega

theorem Frame.popRegs {mem : Nat → Nat} {sp ret : Nat} {r : Regs} (h : Frame mem sp r ret)
    (hroom : sp + 56 < 2 ^ 64) (hrsp : r.rsp = sp + 56) : popRegs ⟨mem, sp⟩ = (r, ret) := by
  obtain ⟨h15, h14, h13, h12, hbx, hbp, hret⟩ := h
  rw [popRegs_eq mem hroom, h15, h14, h13, h12, hbx, hbp, hret, ← hrsp]

theorem setKstack_kstack (s : Cpu) (x y kstack : Nat) :
    ((s.setKstack x kstack).tasks y).kstack = if y = x then kstack else (s.tasks y).kstack := by
  simp only [Cpu.setKstack, Function.update_apply]
  split_ifs <;> rfl

section switch
variable {s : Context} {ret prev next : Nat}

theorem cpuSwitchTo_kstack (t : Nat) : ((s.cpuSwitchTo ret prev next).cpu.tasks t).kstack =
    if t = prev then sub64 s.regs.rsp 56 else (s.cpu.tasks t).kstack := by
  rw [← pushRegs_rsp ⟨s.mem, s.regs.rsp⟩ s.regs ret]
  exact setKstack_kstack _ _ _ _

/-- The registers that a task is switched in with come from the address in its field `kstack`. -/
theorem cpuSwitchTo_regs (hne : next ≠ prev) :
    ((s.cpuSwitchTo ret prev next).regs, (s.cpuSwitchTo ret prev next).rip) =
      popRegs ⟨(pushRegs ⟨s.mem, s.regs.rsp⟩ s.regs ret).mem, (s.cpu.tasks next).kstack⟩ := by
  have hkstack := setKstack_kstack s.cpu prev next (pushRegs ⟨s.mem, s.regs.rsp⟩ s.regs ret).rsp
  rw [if_neg hne] at hkstack
  simp only [Context.cpuSwitchTo, hkstack]

end switch

/-! ### What `schedule` picks -/

/-- The task whose registers the cpu has. -/
def Cpu.running (s : Cpu) : Nat := s.current.getD s.idle

section pick
variable {s : Cpu} {queue : List Nat}

theorem containerOf_next (hring : s.links.IsRing .head (queue.map .task)) {n : QNode}
    (hn : n ∈ QNode.head :: queue.map .task) (hne : s.links.next n ≠ .head) :
    ∃ t ∈ queue, containerOf (s.links.next n) = some t := by
  rcases List.mem_cons.mp (hring.next_mem hn) with hhead | hmem
  · exact absurd hhead hne
  · obtain ⟨t, ht, heq⟩ := List.mem_map.mp hmem
    exact ⟨t, ht, by rw [← heq]; rfl⟩

theorem schedPickNextTask_mem (hring : s.links.IsRing .head (queue.map .task))
    (hcurrent : ∀ t ∈ s.current, t ∈ queue) :
    schedPickNextTask s = some none ∧ s.current = none ∨
      ∃ next ∈ queue, schedPickNextTask s = some (some next) := by
  unfold schedPickNextTask
  cases hc : s.current with
  | none =>
      dsimp only
      by_cases hempty : listEmpty s.links .head = true
      · rw [if_pos hempty]
        exact .inl ⟨rfl, rfl⟩
      · rw [if_neg hempty]
        have hne : s.links.next .head ≠ .head := fun heq => hempty (decide_eq_true heq)
        obtain ⟨t, ht, hof⟩ := containerOf_next hring List.mem_cons_self hne
        exact .inr ⟨t, ht, by rw [hof]; rfl⟩
  | some c =>
      dsimp only
      have hmem : c ∈ queue := hcurrent c hc
      have hnode : QNode.task c ∈ QNode.head :: queue.map .task :=
        List.mem_cons_of_mem _ (List.mem_map_of_mem hmem)
      right
      split_ifs with hlast
      · have hne : s.links.next .head ≠ .head := by
          intro heq
          have hnil := List.map_eq_nil_iff.mp (hring.empty_iff.mp heq)
          rw [hnil] at hmem
          cases hmem
        obtain ⟨t, ht, hof⟩ := containerOf_next hring List.mem_cons_self hne
        exact ⟨t, ht, by rw [hof]; rfl⟩
      · obtain ⟨t, ht, hof⟩ := containerOf_next hring hnode hlast
        exact ⟨t, ht, by rw [hof]; rfl⟩

/-- A call of `schedule` that switches to `next` and leaves the state `cpu`. -/
structure Switches (s : Cpu) (queue : List Nat) (cpu : Cpu) (next : Nat) : Prop where
  scheduled : schedule s = some (cpu, some (s.running, next))
  mem : next ∈ queue
  ne : next ≠ s.running
  current : cpu.current = some next
  links : cpu.links = s.links
  idle : cpu.idle = s.idle
  kstack : ∀ t, (cpu.tasks t).kstack = (s.tasks t).kstack
  rsp0 : cpu.rsp0 = (s.tasks next).kstack + pageSize * 2

theorem schedule_cases (hring : s.links.IsRing .head (queue.map .task))
    (hcurrent : ∀ t ∈ s.current, t ∈ queue) :
    (∃ cpu : Cpu, schedule s = some (cpu, none) ∧ cpu.current = s.current ∧ cpu.links = s.links ∧
      cpu.idle = s.idle ∧ ∀ t, (cpu.tasks t).kstack = (s.tasks t).kstack) ∨
    ∃ cpu next, Switches s queue cpu next := by
  rcases schedPickNextTask_mem hring hcurrent with ⟨hpick, hnone⟩ | ⟨next, hnext, hpick⟩
  · refine .inl ⟨s, ?_, rfl, rfl, rfl, fun _ => rfl⟩
    rw [schedule, hpick, hnone]
    exact if_pos rfl
  · by_cases hsame : next = s.running
    · cases hc : s.current with
      | none =>
          refine .inl ⟨s, ?_, hc, rfl, rfl, fun _ => rfl⟩
          rw [Cpu.running, hc] at hsame
          rw [schedule, hpick, hc]
          exact if_pos hsame
      | some c =>
          refine .inl ⟨s.setNeedsSched c false, ?_, hc, rfl, rfl, fun t => setNeedsSched_kstack s c t false⟩
          rw [Cpu.running, hc] at hsame
          rw [schedule, hpick, hc]
          exact if_pos hsame
    · cases hc : s.current with
      | none =>
          refine .inr ⟨switchTo s next, next, ?_, hnext, hsame, rfl, rfl, rfl, fun _ => rfl, rfl⟩
          rw [Cpu.running, hc] at hsame ⊢
          rw [schedule, hpick, hc]
          exact if_neg hsame
      | some c =>
          have hkept := fun t => setNeedsSched_kstack s c t false
          refine .inr ⟨switchTo (s.setNeedsSched c false) next, next, ?_, hnext, hsame, rfl, rfl, rfl, hkept,
            congrArg (· + pageSize * 2) (hkept next)⟩
          rw [Cpu.running, hc] at hsame ⊢
          rw [schedule, hpick, hc]
          exact if_neg hsame

end pick

/-! ### Runs -/

/-- What `create_task` and `mk_kernel_task` have made: the stack pages of each task, and the
function at which a kernel task starts. -/
structure Made where
  base : Nat → Nat
  entry : Nat → Option Nat

/-- A machine, and the registers that each task had when it was last switched out. -/
structure Watched where
  ctx : Context
  left : Nat → Option Regs

/-- What the running task does before the next call of `schedule`, and that call. -/
inductive SwitchEvent where
  | work (regs : Regs) (stores : List (Nat × Nat))
  | schedule

def storeAll (mem : Nat → Nat) (stores : List (Nat × Nat)) : Nat → Nat :=
  stores.foldl (fun mem st => Function.update mem st.1 st.2) mem

def Watched.step (ret : Nat) (w : Watched) : SwitchEvent → Option Watched
  | .work regs stores =>
      some { w with ctx := { w.ctx with regs := regs, mem := storeAll w.ctx.mem stores } }
  | .schedule => (Sched.schedule w.ctx.cpu).map fun (cpu, switch) =>
      match switch with
      | none => { w with ctx := { w.ctx with cpu := cpu } }
      | some (prev, next) => ⟨{ w.ctx with cpu := cpu }.cpuSwitchTo ret prev next,
          Function.update w.left prev (some w.ctx.regs)⟩

/-- What a call of `schedule` should do: keep the field `kstack` of every task, and if it switches,
point the `tss` at the stack of the new task and start it where it stopped, or at its entry. -/
def Resumes (made : Made) (ret : Nat) (w : Watched) (e : SwitchEvent) (w' : Watched) : Prop :=
  e = .schedule → (∀ t, (w'.ctx.cpu.tasks t).kstack = (w.ctx.cpu.tasks t).kstack) ∧
    ∀ cpu prev next, schedule w.ctx.cpu = some (cpu, some (prev, next)) →
      w'.ctx.cpu.rsp0 = made.base next + pageSize * 2 ∧
      (∀ r, w.left next = some r → w'.ctx.regs = r ∧ w'.ctx.rip = ret) ∧
      (w.left next = none → ∀ entry, made.entry next = some entry → w'.ctx.rip = entry)

/-- The condition on a call of `schedule` that switches: the stack of the old task is full but for
the seven words to be pushed, and a new kernel task has its entry where these would be. -/
def StackFull (made : Made) (w : Watched) (e : SwitchEvent) : Prop :=
  e = .schedule → ∀ cpu prev next, schedule w.ctx.cpu = some (cpu, some (prev, next)) →
    sub64 w.ctx.regs.rsp 56 = (w.ctx.cpu.tasks prev).kstack ∧
    (w.left next = none → ∀ entry, made.entry next = some entry →
      w.ctx.mem ((w.ctx.cpu.tasks next).kstack + 48) = entry)

/-- Only the one pair of tasks that `schedule` names is looked at. -/
theorem stackFull_schedule_iff {made : Made} {w : Watched} : StackFull made w .schedule ↔
    ∀ called ∈ schedule w.ctx.cpu, ∀ switch ∈ called.2,
      sub64 w.ctx.regs.rsp 56 = (w.ctx.cpu.tasks switch.1).kstack ∧
      (w.left switch.2 = none → ∀ entry ∈ made.entry switch.2,
        w.ctx.mem ((w.ctx.cpu.tasks switch.2).kstack + 48) = entry) := by
  constructor
  · rintro h ⟨cpu, _⟩ hcalled ⟨prev, next⟩ rfl
    exact h rfl cpu prev next hcalled
  · rintro h - cpu prev next hsched
    exact h _ hsched _ rfl

instance (made : Made) (w : Watched) : DecidablePred (StackFull made w)
  | .work .. => isTrue nofun
  | .schedule => decidable_of_iff _ stackFull_schedule_iff.symm

/-- A task does not write to the stacks of the others, not even to the first bytes of one with a word that
begins below it. -/
def Fair (made : Made) (tasks : List Nat) (w : Watched) : SwitchEvent → Prop
  | .work regs stores => regs.rsp < 2 ^ 64 ∧ ∀ st ∈ stores, ∀ t ∈ tasks, t ≠ w.ctx.cpu.running →
      ¬ (made.base t < st.1 + 8 ∧ st.1 < made.base t + pageSize * 2)
  | .schedule => True

/-- The blocks that `alloc_pages` has returned. -/
structure Stacks (made : Made) (tasks : List Nat) : Prop where
  room : ∀ t ∈ tasks, made.base t + pageSize * 2 ≤ 2 ^ 64
  apart : ∀ t ∈ tasks, ∀ u ∈ tasks, t ≠ u →
    made.base t + pageSize * 2 ≤ made.base u ∨ made.base u + pageSize * 2 ≤ made.base t

theorem Stacks.frame_lt {made : Made} {tasks : List Nat} (h : Stacks made tasks) {t : Nat} (ht : t ∈ tasks) :
    made.base t + 56 < 2 ^ 64 := by
  have hroom := h.room t ht
  unfold pageSize at hroom
  omega

/-- The tasks on the queue and the idle task, while every switch has met the condition. -/
structure Sound (made : Made) (ret idle : Nat) (queue : List Nat) (w : Watched) : Prop where
  ring : w.ctx.cpu.links.IsRing .head (queue.map .task)
  idles : w.ctx.cpu.idle = idle
  current : ∀ t ∈ w.ctx.cpu.current, t ∈ queue
  kstack : ∀ t ∈ idle :: queue, (w.ctx.cpu.tasks t).kstack = made.base t
  rsp : w.ctx.regs.rsp < 2 ^ 64
  frames : ∀ t ∈ idle :: queue, t ≠ w.ctx.cpu.running → ∀ r, w.left t = some r →
    r.rsp = made.base t + 56 ∧ Frame w.ctx.mem (made.base t) r ret

/-- The state before the first switch, as `create_task` leaves the tasks. -/
structure Booted (made : Made) (idle : Nat) (queue : List Nat) (w : Watched) : Prop where
  ring : w.ctx.cpu.links.IsRing .head (queue.map .task)
  idles : w.ctx.cpu.idle = idle
  current : ∀ t ∈ w.ctx.cpu.current, t ∈ queue
  kstack : ∀ t ∈ idle :: queue, (w.ctx.cpu.tasks t).kstack = made.base t
  rsp : w.ctx.regs.rsp < 2 ^ 64
  left : ∀ t, w.left t = none

section runs
variable {made : Made} {ret idle : Nat} {queue : List Nat} {w : Watched}

theorem Booted.sound (h : Booted made idle queue w) : Sound made ret idle queue w := by
  refine ⟨h.ring, h.idles, h.current, h.kstack, h.rsp, ?_⟩
  intro t _ _ r hr
  rw [h.left] at hr
  cases hr

theorem Frame.congr {mem mem' : Nat → Nat} {sp : Nat} {r : Regs} (h : Frame mem sp r ret)
    (hmem : ∀ a, sp ≤ a → a < sp + 56 → mem' a = mem a) : Frame mem' sp r ret := by
  unfold Frame at *
  rw [hmem sp (by omega) (by omega), hmem (sp + 8) (by omega) (by omega),
    hmem (sp + 16) (by omega) (by omega), hmem (sp + 24) (by omega) (by omega),
    hmem (sp + 32) (by omega) (by omega), hmem (sp + 40) (by omega) (by omega),
    hmem (sp + 48) (by omega) (by omega)]
  exact h

theorem storeAll_of_notMem {mem : Nat → Nat} {stores : List (Nat × Nat)} {a : Nat}
    (h : ∀ st ∈ stores, st.1 ≠ a) : storeAll mem stores a = mem a := by
  induction stores generalizing mem with
  | nil => rfl
  | cons st stores ih =>
      have hrest : storeAll (Function.update mem st.1 st.2) stores a = Function.update mem st.1 st.2 a :=
        ih fun st' hst' => h st' (List.mem_cons_of_mem _ hst')
      exact hrest.trans (Function.update_of_ne (h st List.mem_cons_self).symm _ _)

theorem Sound.work (h : Sound made ret idle queue w) {regs : Regs} {stores : List (Nat × Nat)}
    (hfair : Fair made (idle :: queue) w (.work regs stores)) :
    Sound made ret idle queue
      { w with ctx := { w.ctx with regs := regs, mem := storeAll w.ctx.mem stores } } := by
  refine ⟨h.ring, h.idles, h.current, h.kstack, hfair.1, ?_⟩
  intro t ht hne r hr
  obtain ⟨hrsp, hframe⟩ := h.frames t ht hne r hr
  refine ⟨hrsp, hframe.congr fun a hlow hhigh => storeAll_of_notMem ?_⟩
  rintro st hst rfl
  exact hfair.2 st hst t ht hne ⟨by omega, by unfold pageSize; omega⟩

theorem eq_add_of_sub64 {a b : Nat} (ha : a < 2 ^ 64) (hb : b + pageSize * 2 ≤ 2 ^ 64)
    (h : sub64 a 56 = b) : a = b + 56 := by
  rw [sub64] at h
  unfold pageSize at hb
  omega

theorem Sound.running_mem (h : Sound made ret idle queue w) : w.ctx.cpu.running ∈ idle :: queue := by
  unfold Cpu.running
  cases hc : w.ctx.cpu.current with
  | none =>
      rw [Option.getD_none, h.idles]
      exact List.mem_cons_self
  | some t => exact List.mem_cons_of_mem _ (h.current t hc)

/-- The state after a switch. -/
def Watched.switched (ret : Nat) (w : Watched) (cpu : Cpu) (prev next : Nat) : Watched :=
  ⟨{ w.ctx with cpu := cpu }.cpuSwitchTo ret prev next, Function.update w.left prev (some w.ctx.regs)⟩

section switch
variable {cpu : Cpu} {next : Nat}

theorem Sound.pushed (h : Sound made ret idle queue w) (hst : Stacks made (idle :: queue))
    (hfull : sub64 w.ctx.regs.rsp 56 = (w.ctx.cpu.tasks w.ctx.cpu.running).kstack) :
    w.ctx.regs.rsp = made.base w.ctx.cpu.running + 56 ∧
    Frame (pushRegs ⟨w.ctx.mem, w.ctx.regs.rsp⟩ w.ctx.regs ret).mem (made.base w.ctx.cpu.running)
      w.ctx.regs ret ∧
    ∀ t ∈ idle :: queue, t ≠ w.ctx.cpu.running → ∀ a, made.base t ≤ a → a < made.base t + 56 →
      (pushRegs ⟨w.ctx.mem, w.ctx.regs.rsp⟩ w.ctx.regs ret).mem a = w.ctx.mem a := by
  have hmem := h.running_mem
  have hroom := hst.room _ hmem
  rw [h.kstack _ hmem] at hfull
  have hrsp := eq_add_of_sub64 h.rsp hroom hfull
  have hpush := pushRegs_mem w.ctx.mem w.ctx.regs ret (by unfold pageSize at hroom; omega :
    made.base w.ctx.cpu.running + 56 < 2 ^ 64)
  rw [← hrsp] at hpush
  refine ⟨hrsp, hpush.1, ?_⟩
  intro t ht hne a hlow hhigh
  apply hpush.2
  have hapart := hst.apart t ht _ hmem hne
  unfold pageSize at hapart
  omega

/-- The registers of the new task come from the start of its stack pages. -/
theorem Sound.switched_regs (h : Sound made ret idle queue w)
    (hsw : Switches w.ctx.cpu queue cpu next) :
    ((w.switched ret cpu w.ctx.cpu.running next).ctx.regs, (w.switched ret cpu w.ctx.cpu.running next).ctx.rip) =
      popRegs ⟨(pushRegs ⟨w.ctx.mem, w.ctx.regs.rsp⟩ w.ctx.regs ret).mem, made.base next⟩ := by
  rw [← h.kstack next (List.mem_cons_of_mem _ hsw.mem), ← hsw.kstack next]
  exact cpuSwitchTo_regs hsw.ne

/-- The word that a task without a frame is started with. -/
theorem Sound.switched_rip (h : Sound made ret idle queue w) (hst : Stacks made (idle :: queue))
    (hsw : Switches w.ctx.cpu queue cpu next)
    (hfull : sub64 w.ctx.regs.rsp 56 = (w.ctx.cpu.tasks w.ctx.cpu.running).kstack) :
    (w.switched ret cpu w.ctx.cpu.running next).ctx.rip =
      w.ctx.mem ((w.ctx.cpu.tasks next).kstack + 48) := by
  have hmem : next ∈ idle :: queue := List.mem_cons_of_mem _ hsw.mem
  obtain ⟨-, -, hothers⟩ := h.pushed hst hfull
  have hrip := congrArg Prod.snd (h.switched_regs hsw)
  rw [popRegs_eq _ (hst.frame_lt hmem)] at hrip
  rw [h.kstack next hmem, ← hothers next hmem hsw.ne _ (by omega) (by omega)]
  exact hrip

theorem Sound.resumes_iff (h : Sound made ret idle queue w) (hst : Stacks made (idle :: queue))
    (hsw : Switches w.ctx.cpu queue cpu next) :
    Resumes made ret w .schedule (w.switched ret cpu w.ctx.cpu.running next) ↔
      StackFull made w .schedule := by
  have hmem : next ∈ idle :: queue := List.mem_cons_of_mem _ hsw.mem
  have hkstack : ∀ t, ((w.switched ret cpu w.ctx.cpu.running next).ctx.cpu.tasks t).kstack =
      if t = w.ctx.cpu.running then sub64 w.ctx.regs.rsp 56 else (w.ctx.cpu.tasks t).kstack := by
    intro t
    rw [← hsw.kstack t]
    exact cpuSwitchTo_kstack t
  constructor
  · intro hresumes _ cpu' prev next' hsched
    cases hsw.scheduled.symm.trans hsched
    obtain ⟨hkept, hswitch⟩ := hresumes rfl
    obtain ⟨-, -, hentry⟩ := hswitch _ _ _ hsw.scheduled
    have hfull : sub64 w.ctx.regs.rsp 56 = (w.ctx.cpu.tasks w.ctx.cpu.running).kstack := by
      rw [← hkept, hkstack, if_pos rfl]
    refine ⟨hfull, ?_⟩
    intro hnone entry hmade
    rw [← h.switched_rip hst hsw hfull]
    exact hentry hnone entry hmade
  · intro hcond _
    obtain ⟨hfull, hentry⟩ := hcond rfl _ _ _ hsw.scheduled
    obtain ⟨-, -, hothers⟩ := h.pushed hst hfull
    refine ⟨?_, ?_⟩
    · intro t
      rw [hkstack]
      split_ifs with ht
      · rw [ht, hfull]
      · rfl
    · intro cpu' prev next' hsched
      cases hsw.scheduled.symm.trans hsched
      refine ⟨?_, ?_, ?_⟩
      · rw [← h.kstack next hmem]
        exact hsw.rsp0
      · intro r hr
        obtain ⟨hrsp, hframe⟩ := h.frames next hmem hsw.ne r hr
        have hframe' := hframe.congr (hothers next hmem hsw.ne)
        have hregs := h.switched_regs hsw
        rw [hframe'.popRegs (hst.frame_lt hmem) hrsp] at hregs
        exact Prod.mk.inj hregs
      · intro hnone entry hmade
        rw [h.switched_rip hst hsw hfull]
        exact hentry hnone entry hmade

theorem Sound.switch (h : Sound made ret idle queue w) (hst : Stacks made (idle :: queue))
    (hsw : Switches w.ctx.cpu queue cpu next)
    (hfull : sub64 w.ctx.regs.rsp 56 = (w.ctx.cpu.tasks w.ctx.cpu.running).kstack) :
    Sound made ret idle queue (w.switched ret cpu w.ctx.cpu.running next) := by
  have hmem : next ∈ idle :: queue := List.mem_cons_of_mem _ hsw.mem
  obtain ⟨hrsp, hframe, hothers⟩ := h.pushed hst hfull
  have hlt := hst.frame_lt hmem
  have hrunning : (w.switched ret cpu w.ctx.cpu.running next).ctx.cpu.running = next := by
    show cpu.current.getD cpu.idle = next
    rw [hsw.current]
    rfl
  refine ⟨?_, hsw.idle.trans h.idles, ?_, ?_, ?_, ?_⟩
  · show cpu.links.IsRing .head (queue.map .task)
    rw [hsw.links]
    exact h.ring
  · intro t ht
    obtain rfl := Option.some.inj (hsw.current.symm.trans ht)
    exact hsw.mem
  · intro t ht
    refine (cpuSwitchTo_kstack t).trans ?_
    split_ifs with hprev
    · rw [← h.kstack t ht, hprev]
      exact hfull
    · exact (hsw.kstack t).trans (h.kstack t ht)
  · have hregs := congrArg (fun p => p.1.rsp) (h.switched_regs hsw)
    rw [popRegs_eq _ hlt] at hregs
    exact hregs.trans_lt hlt
  · intro t ht hne r hr
    rw [hrunning] at hne
    by_cases hprev : t = w.ctx.cpu.running
    · subst hprev
      have hself : (w.switched ret cpu w.ctx.cpu.running next).left w.ctx.cpu.running = some w.ctx.regs :=
        Function.update_self _ _ _
      obtain rfl := Option.some.inj (hself.symm.trans hr)
      exact ⟨hrsp, hframe⟩
    · have hleft : w.left t = some r := (Function.update_of_ne hprev _ _).symm.trans hr
      obtain ⟨hrsp', hframe'⟩ := h.frames t ht hprev r hleft
      exact ⟨hrsp', hframe'.congr (hothers t ht hprev)⟩

end switch

theorem Sound.step (h : Sound made ret idle queue w) (hst : Stacks made (idle :: queue))
    (e : SwitchEvent) (hfair : Fair made (idle :: queue) w e) :
    ∃ w', w.step ret e = some w' ∧ (Resumes made ret w e w' ↔ StackFull made w e) ∧
      (StackFull made w e → Sound made ret idle queue w') := by
  cases e with
  | work regs stores => exact ⟨_, rfl, ⟨nofun, nofun⟩, fun _ => h.work hfair⟩
  | schedule =>
      rcases schedule_cases h.ring h.current with ⟨cpu, hsched, hcurrent, hlinks, hidle, hkept⟩ |
        ⟨cpu, next, hsw⟩
      · refine ⟨{ w with ctx := { w.ctx with cpu := cpu } }, ?_, ?_, ?_⟩
        · rw [Watched.step, hsched]
          rfl
        · constructor
          · intro _ _ cpu' prev next hsched'
            cases hsched.symm.trans hsched'
          · intro _ _
            refine ⟨hkept, ?_⟩
            intro cpu' prev next hsched'
            cases hsched.symm.trans hsched'
        · intro _
          have hrunning : cpu.running = w.ctx.cpu.running := by
            rw [Cpu.running, Cpu.running, hcurrent, hidle]
          refine ⟨hlinks ▸ h.ring, hidle.trans h.idles, hcurrent ▸ h.current, ?_, h.rsp, ?_⟩
          · intro t ht
            exact (hkept t).trans (h.kstack t ht)
          · intro t ht hne
            exact h.frames t ht (hrunning ▸ hne)
      · refine ⟨w.switched ret cpu w.ctx.cpu.running next, ?_, h.resumes_iff hst hsw, ?_⟩
        · rw [Watched.step, hsw.scheduled]
          rfl
        · intro hcond
          exact h.switch hst hsw (hcond rfl _ _ _ hsw.scheduled).1

/-- Switched-out tasks resume where they stopped, and new ones start at their entry, all along a
run, exactly when every switch finds the old task's stack full and the entry at the start of
the new one's. -/
theorem switches_resume_iff (ret : Nat) (hst : Stacks made (idle :: queue))
    (hboot : Booted made idle queue w) {events : List SwitchEvent}
    (hfair : Guarded (Watched.step ret) (Fair made (idle :: queue)) w events) :
    Along (Watched.step ret) (Resumes made ret) w events ↔
      Guarded (Watched.step ret) (StackFull made) w events :=
  along_iff (Sound made ret idle queue) (fun _ e h hfair => h.step hst e hfair) hboot.sound hfair

end runs

/-! ### Two kernel tasks -/

/-- The stack pages of the tasks, apart from each other. -/
def kernelStack (t : Nat) : Nat := identityBase + 0x200000 + 0x2000 * t

/-- The function at which each task starts. -/
def kernelEntry (t : Nat) : Nat := 0xffffffff80001000 + 0x100 * t

/-- The idle task and two more, as `mk_kernel_task` makes them. -/
def threeMade : Context :=
  let s : Context := ⟨bareCpu, fun _ => 0, fun _ => 0, ⟨0, 0, 0, 0, 0, 0, 0⟩, 0⟩
  [0, 1, 2].foldl (fun s t => s.mkKernelTask t (identityBase + 0x100000 + 0x1000 * t) (kernelStack t)
    (kernelEntry t)) s

/-- The two tasks on the queue, the first of which has used 256 bytes of its stack. -/
def twoStarted (cpu : Cpu) : Watched where
  ctx := { threeMade with cpu := cpu, regs := ⟨kernelStack 1 + 0x1f00, 1, 2, 3, 4, 5, 6⟩ }
  left := fun _ => none

def twoMade : Made := ⟨kernelStack, fun t => some (kernelEntry t)⟩

/-- The same stacks, with a second task that is no kernel task. -/
def userMade : Made := ⟨kernelStack, fun t => if t = 2 then none else some (kernelEntry t)⟩

/-- Each task runs until only the seven words fit on its stack. -/
def fullSwitches : List SwitchEvent :=
  [.work ⟨kernelStack 1 + 56, 1, 2, 3, 4, 5, 6⟩ [], .schedule,
    .work ⟨kernelStack 2 + 56, 7, 8, 9, 10, 11, 12⟩ [], .schedule]

theorem twoMade_stacks : Stacks twoMade [0, 1, 2] := by
  constructor
  · decide
  · decide

theorem twoStarted_booted {cpu : Cpu} (hstart : started threeMade.cpu [1, 2] = some cpu) {made : Made}
    (hbase : made.base = kernelStack) : Booted made 0 [1, 2] (twoStarted cpu) := by
  obtain ⟨t, hqueue, hruns⟩ := started_runs hstart (by decide)
  have hcpu : started threeMade.cpu [1, 2] = some _ := rfl
  have hrsp : kernelStack 1 + 0x1f00 < 2 ^ 64 := by decide
  refine ⟨hqueue ▸ hruns.ring, ?_, ?_, ?_, hrsp, fun _ => rfl⟩
  · obtain rfl := Option.some.inj (hcpu.symm.trans hstart)
    rfl
  · intro x hx
    obtain rfl := Option.some.inj (hruns.current.symm.trans hx)
    rw [← hqueue]
    exact List.get_mem _ _
  · obtain rfl := Option.some.inj (hcpu.symm.trans hstart)
    rw [hbase]
    decide

/-- The first task is switched out for the second one and resumes. -/
theorem switches_resume_iff_two :
    ∃ cpu, started threeMade.cpu [1, 2] = some cpu ∧
      Along (Watched.step 0xffffffff80000010) (Resumes userMade 0xffffffff80000010) (twoStarted cpu)
        fullSwitches ∧
      (run (Watched.step 0xffffffff80000010) (twoStarted cpu) fullSwitches).map (fun w => (w.ctx.regs, w.ctx.rip)) =
        some (⟨kernelStack 1 + 56, 1, 2, 3, 4, 5, 6⟩, 0xffffffff80000010) := by
  have hstart : started threeMade.cpu [1, 2] = some _ := rfl
  have hstacks : Stacks userMade [0, 1, 2] := ⟨twoMade_stacks.room, twoMade_stacks.apart⟩
  have hfair : ∀ e ∈ fullSwitches, ∀ w, Fair userMade [0, 1, 2] w e := by
    intro e he w
    fin_cases he
    · exact ⟨by decide, nofun⟩
    · trivial
    · exact ⟨by decide, nofun⟩
    · trivial
  refine ⟨_, hstart, ?_, ?_⟩
  · exact (switches_resume_iff _ hstacks (twoStarted_booted hstart rfl) (guarded_of_forall hfair _)).mpr
      (by decide +kernel)
  · decide +kernel

/-- The first switch overwrites the field `kstack` of the first task. -/
theorem first_switch_overwrites_kstack :
    ∃ cpu, started threeMade.cpu [1, 2] = some cpu ∧ Booted twoMade 0 [1, 2] (twoStarted cpu) ∧
      ¬ Along (Watched.step 0xffffffff80000010) (Resumes twoMade 0xffffffff80000010) (twoStarted cpu)
        [.schedule] := by
  have hstart : started threeMade.cpu [1, 2] = some _ := rfl
  have hbooted : Booted twoMade 0 [1, 2] _ := twoStarted_booted hstart rfl
  refine ⟨_, hstart, hbooted, ?_⟩
  rintro ⟨w', hstep, hresumes, -⟩
  obtain ⟨w'', hstep', hiff, -⟩ := hbooted.sound.step twoMade_stacks .schedule trivial
  obtain rfl := Option.some.inj (hstep'.symm.trans hstep)
  obtain ⟨hfull, -⟩ := hiff.mp hresumes rfl _ 1 2 rfl
  have hrsp : sub64 (kernelStack 1 + 0x1f00) 56 = kernelStack 1 + 0x1f00 - 56 :=
    sub64_of_le (by decide) (by decide)
  exact absurd (hrsp.symm.trans hfull) (by decide)

end Lucix.Sched
