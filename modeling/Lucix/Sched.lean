import Lucix.ListHead
import Lucix.Paging
import Lucix.Execution
import Lucix.RoundRobin

/-!
# The scheduler, `kernel/sched.c` and `arch/x86_64/arch_sched.c`

The run queue of the one `struct cpu`, the task that runs, and the registers that
`schedule` sets. A function returns `none` where `container_of` is applied to the list
head, which is not part of a task. The last act of `schedule`, `cpu_switch_to`, gets
the two tasks that `schedule` returns here.
-/
namespace Lucix.Sched
open Ring Execution RoundRobin

/-- The list nodes: `cpu->runqueue.tasks` and the field `qlist` of each task. -/
inductive QNode where
  | head
  | task (t : Nat)
  deriving DecidableEq, Repr

/-- The fields of `struct task` that the scheduler uses; `mm` is the page table of the address
space, if the task has one. -/
structure Task where
  mm : Option Nat
  kstack : Nat
  needsSched : Bool
  deriving DecidableEq, Repr

structure Cpu where
  links : Links QNode
  tasks : Nat → Task
  current : Option Nat
  idle : Nat
  cr3 : Nat
  rsp0 : Nat

def containerOf : QNode → Option Nat
  | .head => none
  | .task t => some t

def Cpu.setNeedsSched (s : Cpu) (t : Nat) (b : Bool) : Cpu :=
  { s with tasks := Function.update s.tasks t { s.tasks t with needsSched := b } }

/-- The end of `sched_per_cpu_init`. -/
def schedPerCpuInit (s : Cpu) : Cpu := { s with current := none, links := initListHead s.links .head }

/-- The function `create_task` with `TASK_USER`, for the task object `t`: its page table, and the
stack pages that `alloc_pages` has returned. -/
def createTask (s : Cpu) (t pgtable kstack : Nat) : Cpu :=
  { s with
    tasks := Function.update s.tasks t ⟨some pgtable, kstack, false⟩
    links := initListHead s.links (.task t) }

def schedAddTask (s : Cpu) (t : Nat) : Cpu := { s with links := listAddTail s.links (.task t) .head }

/-- The function `sched_start`, with the `tss` that `cpu_context_switch` sets. -/
def schedStart (s : Cpu) : Option Cpu := do
  let t ← containerOf (s.links.next .head)
  let pgtable ← (s.tasks t).mm
  some { s with current := some t, cr3 := va2pa pgtable, rsp0 := (s.tasks t).kstack + pageSize * 2 }

/-- The function `sched_pick_next_task`: a task, or null. -/
def schedPickNextTask (s : Cpu) : Option (Option Nat) :=
  match s.current with
  | none =>
      if listEmpty s.links .head then some none
      else (containerOf (s.links.next .head)).map some
  | some t =>
      if s.links.next (.task t) = .head then (containerOf (s.links.next .head)).map some
      else (containerOf (s.links.next (.task t))).map some

/-- The switch to `next` in `schedule`, up to `cpu_switch_to`. -/
def switchTo (s : Cpu) (next : Nat) : Cpu :=
  { s with
    cr3 := match (s.tasks next).mm with
      | some pgtable => va2pa pgtable
      | none => s.cr3
    current := some next
    rsp0 := (s.tasks next).kstack + pageSize * 2 }

/-- The function `schedule`, and the arguments of its `cpu_switch_to`, if it gets there. -/
def schedule (s : Cpu) : Option (Cpu × Option (Nat × Nat)) := do
  let picked ← schedPickNextTask s
  let prev := s.current.getD s.idle
  let s := match s.current with
    | some t => s.setNeedsSched t false
    | none => s
  let next := picked.getD s.idle
  if next = prev then some (s, none) else some (switchTo s next, some (prev, next))

/-- The timer branch of `__irq_handler_stub`: `sched_irq` marks the task that runs. -/
def timerIrq (s : Cpu) : Option Cpu := do
  let s := match s.current with
    | some t => s.setNeedsSched t true
    | none => s
  let s ← match s.current with
    | some t => if (s.tasks t).needsSched then (schedule s).map Prod.fst else some s
    | none => some s
  if s.current = none ∧ listEmpty s.links .head = false then (schedule s).map Prod.fst else some s

/-! ### The queue takes turns -/

/-- The run queue holds the members of the queue, and the task whose turn it is runs. -/
structure Runs (s : Cpu) (t : Turn Nat) : Prop where
  ring : s.links.IsRing .head (t.queue.map .task)
  current : s.current = some t.now

section steps
variable {s : Cpu} {t : Turn Nat}

/-- Where the link of the node at `i` goes, with the head at `0`. -/
theorem Runs.next_at (h : Runs s t) (i : Nat) :
    ((QNode.head :: t.queue.map .task)[i]?).map s.links.next = (t.queue.map .task ++ [.head])[i]? := by
  rw [← List.getElem?_map, h.ring.seg.map_next]

theorem Runs.first (h : Runs s t) (hlt : 0 < t.queue.length) :
    s.links.next .head = .task (t.queue.get ⟨0, hlt⟩) := by
  have hnext := h.next_at 0
  rw [List.getElem?_append_left (by rwa [List.length_map]), List.getElem?_map,
    List.getElem?_eq_getElem hlt] at hnext
  exact Option.some.inj hnext

/-- The link of the task that runs goes to the next task, or to the head if there is none. -/
theorem Runs.next_now (h : Runs s t) :
    (t.pos + 1 = t.queue.length ∧ s.links.next (.task t.now) = .head) ∨
    (t.pos + 1 ≠ t.queue.length ∧ s.links.next (.task t.now) = .task t.next.now) := by
  have hnext := h.next_at (t.pos + 1)
  have hlt := t.lt
  rw [List.getElem?_cons_succ, List.getElem?_map, List.getElem?_eq_getElem hlt] at hnext
  by_cases hlast : t.pos + 1 = t.queue.length
  · refine .inl ⟨hlast, ?_⟩
    rw [hlast, List.getElem?_append_right (by rw [List.length_map]), List.length_map, Nat.sub_self] at hnext
    exact Option.some.inj hnext
  · refine .inr ⟨hlast, ?_⟩
    have hlt' : t.pos + 1 < t.queue.length := by omega
    rw [List.getElem?_append_left (by rwa [List.length_map]), List.getElem?_map,
      List.getElem?_eq_getElem hlt'] at hnext
    refine (Option.some.inj hnext).trans ?_
    simp only [Turn.now, Turn.next, if_neg hlast, List.get_eq_getElem]

theorem Runs.pick (h : Runs s t) : schedPickNextTask s = some (some t.next.now) := by
  unfold schedPickNextTask
  rw [h.current]
  dsimp only
  rcases h.next_now with ⟨hlast, hnode⟩ | ⟨hlast, hnode⟩
  · rw [hnode, if_pos rfl, h.first (Nat.zero_lt_of_lt t.lt)]
    simp only [Turn.now, Turn.next, if_pos hlast, containerOf, Option.map_some]
  · rw [hnode, if_neg (by simp)]
    rfl

theorem setNeedsSched_tasks (s : Cpu) (x y : Nat) (b : Bool) : (s.setNeedsSched x b).tasks y =
    if y = x then { s.tasks x with needsSched := b } else s.tasks y :=
  Function.update_apply _ _ _ _

@[simp] theorem setNeedsSched_mm (s : Cpu) (x y : Nat) (b : Bool) :
    ((s.setNeedsSched x b).tasks y).mm = (s.tasks y).mm := by
  rw [setNeedsSched_tasks]
  split_ifs with hy
  · rw [hy]
  · rfl

@[simp] theorem setNeedsSched_kstack (s : Cpu) (x y : Nat) (b : Bool) :
    ((s.setNeedsSched x b).tasks y).kstack = (s.tasks y).kstack := by
  rw [setNeedsSched_tasks]
  split_ifs with hy
  · rw [hy]
  · rfl

theorem Runs.schedule_eq (h : Runs s t) : schedule s =
    if t.next.now = t.now then some (s.setNeedsSched t.now false, none)
    else some (switchTo (s.setNeedsSched t.now false) t.next.now, some (t.now, t.next.now)) := by
  unfold Sched.schedule
  rw [h.pick, h.current]
  rfl

theorem Runs.schedule (h : Runs s t) : ∃ s' switch, schedule s = some (s', switch) ∧ Runs s' t.next := by
  rw [h.schedule_eq]
  split_ifs with hsame
  · exact ⟨_, _, rfl, h.ring, h.current.trans (congrArg some hsame.symm)⟩
  · exact ⟨_, _, rfl, h.ring, rfl⟩

/-- Once a task runs, the timer calls `schedule`. -/
theorem Runs.timerIrq (h : Runs s t) :
    timerIrq s = (Sched.schedule (s.setNeedsSched t.now true)).map Prod.fst := by
  have hmarked : Runs (s.setNeedsSched t.now true) t := ⟨h.ring, h.current⟩
  obtain ⟨s', switch, hsched, h'⟩ := hmarked.schedule
  have hneeds : ((s.setNeedsSched t.now true).tasks t.now).needsSched = true := by
    rw [setNeedsSched_tasks, if_pos rfl]
  have hsome : ¬ (s'.current = none ∧ listEmpty s'.links .head = false) := by
    rw [h'.current]
    exact fun hnone => nomatch hnone.1
  unfold Sched.timerIrq
  simp only [h.current, hmarked.current, hneeds, if_true, hsched, Option.map_some, Option.bind_eq_bind,
    Option.bind_some, if_neg hsome]

theorem Runs.add (h : Runs s t) {x : Nat} (hx : x ∉ t.queue) : Runs (schedAddTask s x) (t.join x) := by
  constructor
  · have hnew : QNode.task x ∉ QNode.head :: t.queue.map .task := by
      simpa using hx
    have hring := listAddTail_ring h.ring hnew
    simpa [schedAddTask, Turn.join] using hring
  · rw [Turn.join_now]
    exact h.current

end steps

/-! ### Runs -/

/-- The state after `sched_per_cpu_init`, the tasks added before the start, and `sched_start`. -/
def started (s : Cpu) (ts : List Nat) : Option Cpu :=
  schedStart (ts.foldl schedAddTask (schedPerCpuInit s))

/-- A call of `sched_add_task` or `schedule`. -/
def Cpu.step (s : Cpu) : Act Nat → Option Cpu
  | .join t => some (schedAddTask s t)
  | .next => (schedule s).map Prod.fst

/-- The tasks that the calls of `schedule` in a run select, in order. -/
def selections (s : Cpu) : List (Act Nat) → List (Option Nat)
  | [] => []
  | .join t :: acts => selections (schedAddTask s t) acts
  | .next :: acts =>
      match schedule s with
      | some (s', _) => s'.current :: selections s' acts
      | none => []

section runs
variable {s s₀ : Cpu} {t : Turn Nat} {ts : List Nat} {acts : List (Act Nat)}

theorem foldl_add_ring {pre : List Nat} (h : s.links.IsRing .head (pre.map .task))
    (hnodup : (pre ++ ts).Nodup) :
    (ts.foldl schedAddTask s).links.IsRing .head ((pre ++ ts).map .task) := by
  induction ts generalizing s pre with
  | nil =>
      rw [List.append_nil]
      exact h
  | cons x ts ih =>
      have hx : QNode.task x ∉ QNode.head :: pre.map .task := by
        have := (List.nodup_append.mp hnodup).2.2
        simp only [List.mem_cons, reduceCtorEq, List.mem_map, QNode.task.injEq, exists_eq_right, false_or]
        exact fun hmem => this x hmem x List.mem_cons_self rfl
      have hsplit : pre ++ x :: ts = (pre ++ [x]) ++ ts := List.append_cons pre x ts
      rw [hsplit] at hnodup ⊢
      apply ih ?_ hnodup
      rw [List.map_append]
      exact listAddTail_ring h hx

theorem started_runs (hstart : started s₀ ts = some s) (hnodup : ts.Nodup) :
    ∃ t : Turn Nat, t.queue = ts ∧ Runs s t := by
  have hempty : (schedPerCpuInit s₀).links.IsRing .head (List.map .task []) :=
    Links.isRing_nil.mpr (initListHead_selfLinked _ _)
  have hring := foldl_add_ring hempty hnodup
  unfold started schedStart at hstart
  obtain ⟨first, hfirst, hrest⟩ := Option.bind_eq_some_iff.mp hstart
  obtain ⟨pgtable, hmm, hs⟩ := Option.bind_eq_some_iff.mp hrest
  obtain rfl := Option.some.inj hs
  cases ts with
  | nil =>
      rw [hring.seg.1] at hfirst
      cases hfirst
  | cons x ts =>
      rw [hring.next_head] at hfirst
      exact ⟨⟨x :: ts, 0, Nat.succ_pos _⟩, rfl, hring, hfirst.symm⟩

theorem Runs.run (h : Runs s t) (hnodup : (t.queue ++ Turn.joined acts).Nodup) :
    ∃ s', run Cpu.step s acts = some s' ∧ Runs s' (acts.foldl Turn.act t) ∧
      selections s acts = (t.selected acts).map some := by
  induction acts generalizing s t with
  | nil => exact ⟨s, rfl, h, rfl⟩
  | cons e acts ih =>
      cases e with
      | join x =>
          have hx : x ∉ t.queue := fun hmem =>
            (List.nodup_append.mp hnodup).2.2 x hmem x List.mem_cons_self rfl
          apply ih (h.add hx)
          rwa [Turn.joined, List.append_cons] at hnodup
      | next =>
          obtain ⟨s₁, switch, hsched, h₁⟩ := h.schedule
          obtain ⟨s', hrun, hs', hsel⟩ := ih h₁ hnodup
          refine ⟨s', ?_, hs', ?_⟩
          · rw [Execution.run, Cpu.step, hsched]
            exact hrun
          · rw [selections, hsched]
            simp only [Turn.selected, List.map_cons, h₁.current, hsel]

theorem replicate_next (t : Turn Nat) (k : Nat) :
    (List.replicate k Act.next).foldl Turn.act t = Turn.next^[k] t ∧
      Turn.joined (List.replicate k (Act.next : Act Nat)) = [] := by
  induction k generalizing t with
  | zero => exact ⟨rfl, rfl⟩
  | succ k ih => exact ⟨(ih t.next).1, (ih t).2⟩

/-- The run queue holds the tasks in this order, and the one at `i` runs. -/
def OnQueue (s : Cpu) (queue : List Nat) (i : Nat) : Prop :=
  s.links.IsRing .head (queue.map .task) ∧ i < queue.length ∧ s.current = queue[i]?

theorem Runs.onQueue (h : Runs s t) : OnQueue s t.queue t.pos :=
  ⟨h.ring, t.lt, h.current.trans (List.getElem?_eq_getElem t.lt).symm⟩

theorem Runs.turns (h : Runs s t) (hnodup : t.queue.Nodup) (k : Nat) :
    ∃ s', Execution.run Cpu.step s (List.replicate k .next) = some s' ∧
      OnQueue s' t.queue ((t.pos + k) % t.queue.length) := by
  obtain ⟨hfold, hjoined⟩ := replicate_next t k
  obtain ⟨hqueue, hpos⟩ := t.iterate_next k
  have hnodup' : (t.queue ++ Turn.joined (List.replicate k (Act.next : Act Nat))).Nodup := by
    rw [hjoined, List.append_nil]
    exact hnodup
  obtain ⟨s', hrun, h', -⟩ := h.run hnodup'
  rw [hfold] at h'
  have hon := h'.onQueue
  rw [hqueue, hpos] at hon
  exact ⟨s', hrun, hon⟩

theorem joined_append_next (acts : List (Act Nat)) :
    Turn.joined (acts ++ [Act.next]) = Turn.joined acts := by
  induction acts with
  | nil => rfl
  | cons e acts ih =>
      cases e with
      | join x => exact congrArg (x :: ·) ih
      | next => exact ih

theorem Runs.once {more : List (Act Nat)} {s' : Cpu} (h : Runs s t)
    (hnodup : (t.queue ++ Turn.joined more).Nodup)
    (hrun : Execution.run Cpu.step s (more ++ [.next]) = some s') (hback : s'.current = s.current)
    (hnone : s.current ∉ selections s more) (u : Nat) (hu : u ∈ t.queue) (hne : some u ≠ s.current) :
    (selections s more).count (some u) = 1 := by
  have hinj := Option.some_injective Nat
  obtain ⟨-, -, -, hsel⟩ := h.run hnodup
  obtain ⟨s₁, hrun', h', -⟩ := h.run (by rwa [joined_append_next])
  obtain rfl := Option.some.inj (hrun'.symm.trans hrun)
  rw [h.current, hsel, List.mem_map_of_injective hinj] at hnone
  rw [h.current] at hne hback
  rw [h'.current, List.foldl_append] at hback
  rw [hsel, List.count_map_of_injective _ _ hinj]
  exact Turn.selected_once hnodup hnone (Option.some.inj hback) hu (fun heq => hne (congrArg some heq))

/-- Nobody is skipped: the task that runs is on the queue, `k` turns move it by `k` places, and
between two selections of a task every other task on the queue is selected once. -/
theorem schedule_round_robin (hstart : started s₀ ts = some s)
    (hnodup : (ts ++ Turn.joined acts).Nodup) :
    ∃ s', run Cpu.step s acts = some s' ∧ ∃ i, OnQueue s' (ts ++ Turn.joined acts) i ∧
      (∀ k, ∃ s'', run Cpu.step s' (List.replicate k .next) = some s'' ∧
        OnQueue s'' (ts ++ Turn.joined acts) ((i + k) % (ts ++ Turn.joined acts).length)) ∧
      ∀ more s'', (ts ++ Turn.joined acts ++ Turn.joined more).Nodup →
        run Cpu.step s' (more ++ [.next]) = some s'' → s''.current = s'.current →
        s'.current ∉ selections s' more →
        ∀ u ∈ ts ++ Turn.joined acts, some u ≠ s'.current → (selections s' more).count (some u) = 1 := by
  obtain ⟨t₀, rfl, h₀⟩ := started_runs hstart (List.nodup_append.mp hnodup).1
  obtain ⟨s', hrun, h', -⟩ := h₀.run hnodup
  rw [← Turn.foldl_queue] at hnodup ⊢
  generalize acts.foldl Turn.act t₀ = t at h' hnodup ⊢
  exact ⟨s', hrun, t.pos, h'.onQueue, h'.turns hnodup, fun more s'' => h'.once⟩

end runs

/-- A cpu before its first task, where every task has a page table and a stack. -/
def bareCpu : Cpu where
  links := ⟨id, id⟩
  tasks := fun t => ⟨some (identityBase + 0x100000 + 0x1000 * t), identityBase + 0x200000 + 0x2000 * t, false⟩
  current := none
  idle := 0
  cr3 := 0
  rsp0 := 0

/-- Three tasks, of which the second runs when a fourth joins. -/
theorem schedule_round_robin_three :
    ∃ s, started bareCpu [1, 2, 3] = some s ∧
      ∃ s', run Cpu.step s [.next, .join 4] = some s' ∧ ∃ i, OnQueue s' [1, 2, 3, 4] i ∧
        (∀ k, ∃ s'', run Cpu.step s' (List.replicate k .next) = some s'' ∧
          OnQueue s'' [1, 2, 3, 4] ((i + k) % 4)) ∧
        ∀ more s'', ([1, 2, 3, 4] ++ Turn.joined more).Nodup →
          run Cpu.step s' (more ++ [.next]) = some s'' → s''.current = s'.current →
          s'.current ∉ selections s' more →
          ∀ u ∈ [1, 2, 3, 4], some u ≠ s'.current → (selections s' more).count (some u) = 1 := by
  have hnodup : ([1, 2, 3] ++ Turn.joined [.next, .join 4]).Nodup := by decide
  have hstart : started bareCpu [1, 2, 3] = some _ := rfl
  exact ⟨_, rfl, schedule_round_robin hstart hnodup⟩

end Lucix.Sched
