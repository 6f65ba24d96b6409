import Lucix.Descriptors
import Lucix.Execution

/-! What a program in ring 3 can reach: the transfers of control and the stack loads of a CPU that runs
with the tables of `setup_gdt` and `setup_interrupts`, from the state that `cpu_setup_process` builds. -/
namespace Lucix.Privilege
open Descriptors BitFields Execution

/-- The structure `arch_x86_cpu_state`. -/
structure CpuState where
  rip : Nat := 0
  cs : Nat := 0
  ss : Nat := 0
  rflags : Nat := 0
  rsp : Nat := 0
  rdi : Nat := 0
  rsi : Nat := 0
  rbp : Nat := 0
  rbx : Nat := 0
  rdx : Nat := 0
  rcx : Nat := 0
  rax : Nat := 0
  r8 : Nat := 0
  r9 : Nat := 0
  r10 : Nat := 0
  r11 : Nat := 0
  r12 : Nat := 0
  r13 : Nat := 0
  r14 : Nat := 0
  r15 : Nat := 0
  deriving DecidableEq, Repr

/-- The macro `USER_STACK_SIZE`. -/
def userStackSize : Nat := 2048 * 4096

/-- The state that `cpu_setup_process` fills in once the stack is mapped. -/
def newCpuState (stackStart entry : Nat) : CpuState :=
  { cs := userCs ||| 3
    ss := userDs ||| 3
    rsp := stackStart + userStackSize
    rip := entry
    rflags := 0x202 }

/-! ### The CPU -/

/-- Where and at which level the CPU runs, and the place in the TSS that its stack pointer was taken from
when it last entered a more privileged level. -/
structure State where
  cs : Nat
  ss : Nat
  rip : Nat
  rspFrom : Option Nat
  deriving DecidableEq, Repr

def State.cpl (s : State) : Nat := s.cs % 4

structure Cpu where
  gdt : Gdt
  idt : Idt
  tr : Nat
  deriving DecidableEq, Repr

def Canonical (a : Nat) : Prop := a < 2 ^ 47 ∨ 2 ^ 64 - 2 ^ 47 ≤ a ∧ a < 2 ^ 64

instance (a : Nat) : Decidable (Canonical a) := inferInstanceAs (Decidable (_ ∨ _))

inductive Event where
  | int (vector : Fin 256)
  /-- An exception or an interrupt from outside. -/
  | raised (vector : Fin 256)
  | farJump (selector offset : Nat)
  | iret (cs ss rip : Nat)
  | loadStack (selector : Nat)
  deriving DecidableEq, Repr

/-- The return from the interrupt that has saved a state. -/
def CpuState.iret (state : CpuState) : Event := .iret state.cs state.ss state.rip

/-- The slot of the TSS with the stack pointer for a level, or that of a gate that names a stack. -/
def stackSlot (base ist level : Nat) : Nat := if ist = 0 then base + 4 + 8 * level else base + 36 + 8 * (ist - 1)

/-- Entry through a gate; an error is the vector of the exception raised instead. -/
def deliver (cpu : Cpu) (software : Bool) (vector : Nat) (s : State) : Except Nat State :=
  match cpu.idt.gate vector with
  | none => .error 13
  | some g =>
      if g.type ≠ 14 ∨ software = true ∧ g.dpl < s.cpl then .error 13
      else if g.present = false then .error 11
      else match cpu.gdt.code g.selector with
        | none => .error 13
        | some level =>
            if s.cpl < level ∨ ¬ Canonical g.offset then .error 13
            else if level = s.cpl then .ok { s with cs := g.selector / 4 * 4 + level, rip := g.offset }
            else match cpu.gdt.tss cpu.tr with
              | none => .error 10
              | some (base, limit) =>
                  let slot := stackSlot base g.ist level
                  if base + limit < slot + 7 then .error 10
                  else .ok ⟨g.selector / 4 * 4 + level, level, g.offset, some slot⟩

/-- A stack segment that code of a level may use; below ring 3 it may be the null one. -/
def Gdt.stackFor (gdt : Gdt) (selector level : Nat) : Bool :=
  decide (selector % 4 = level ∧ (gdt.stack selector = some level ∨ selector / 4 = 0 ∧ level ≠ 3))

def transfer (cpu : Cpu) (s : State) : Event → Except Nat State
  | .int vector => deliver cpu true vector s
  | .raised vector => deliver cpu false vector s
  | .farJump selector offset =>
      if cpu.gdt.code selector = some s.cpl ∧ selector % 4 ≤ s.cpl ∧ Canonical offset then
        .ok { s with cs := selector / 4 * 4 + s.cpl, rip := offset }
      else .error 13
  | .iret cs ss rip =>
      if s.cpl ≤ cs % 4 ∧ cpu.gdt.code cs = some (cs % 4) ∧ Gdt.stackFor cpu.gdt ss (cs % 4) = true ∧
          Canonical rip then
        .ok ⟨cs, ss, rip, none⟩
      else .error 13
  | .loadStack selector =>
      if Gdt.stackFor cpu.gdt selector s.cpl = true then .ok { s with ss := selector } else .error 13

/-- An event, or the exception it raises; `none` where that cannot be delivered either. -/
def step (cpu : Cpu) (s : State) (e : Event) : Option State :=
  match transfer cpu s e with
  | .ok s' => some s'
  | .error vector => match deliver cpu false vector s with
      | .ok s' => some s'
      | .error _ => none

/-- A place that an interrupt of a program can have saved: its own segments and an address. -/
def UserFrame (cs ss rip : Nat) : Prop := cs = userCs ||| 3 ∧ ss = userDs ||| 3 ∧ Canonical rip

instance (cs ss rip : Nat) : Decidable (UserFrame cs ss rip) := inferInstanceAs (Decidable (_ ∧ _))

/-- The events of a program. Of what the kernel does only the return to a saved place is followed. -/
def userStep (cpu : Cpu) (s : State) (e : Event) : Option State :=
  if s.cpl = 3 then step cpu s e
  else match e with
    | .iret cs ss rip => if UserFrame cs ss rip then step cpu s (.iret cs ss rip) else none
    | _ => none

/-- The CPU after `setup_gdt` and `setup_interrupts`; `_gdt_reload_segments` loads the TSS. -/
def setupCpu (tss : Nat) (isrStubTable : Nat → Nat) : Cpu := ⟨setupGdt tss, setupInterrupts isrStubTable, 0x28⟩

/-! ### What the kernel means by it -/

/-- A program runs at some instruction, or has entered the kernel by a vector. -/
inductive Place where
  | user (rip : Nat)
  | kernel (vector : Nat)
  deriving DecidableEq, Repr

/-- Where an event takes a program; vector 13 is the protection fault. -/
def after (rip : Nat) : Event → Place
  | .int vector => .kernel (if vector.val = 0x80 then 0x80 else 13)
  | .raised vector => .kernel vector
  | .farJump selector offset =>
      if selector / 4 = userCs / 4 ∧ Canonical offset then .user offset else .kernel 13
  | .iret cs ss target =>
      if UserFrame cs ss target then .user target else .kernel 13
  | .loadStack selector => if selector = userDs ||| 3 then .user rip else .kernel 13

def Place.next : Place → Event → Option Place
  | .kernel _, .iret cs ss target => if UserFrame cs ss target then some (.user target) else none
  | .kernel _, _ => none
  | .user rip, e => some (after rip e)

/-- The CPU at a place. -/
def Place.state (tss : Nat) (isrStubTable : Nat → Nat) : Place → State
  | .user rip => ⟨userCs ||| 3, userDs ||| 3, rip, none⟩
  | .kernel vector => ⟨kernelCs, 0, isrStubTable vector, some (tss + 4)⟩

section proofs
variable {tss : Nat} {isrStubTable : Nat → Nat} {rip : Nat}

theorem user_cpl : (Place.state tss isrStubTable (.user rip)).cpl = 3 := by
  show (userCs ||| 3) % 4 = 3
  decide

theorem deliver_user (htss : tss < 2 ^ 64) {vector : Nat} (hvector : vector < 256)
    (hhandler : Canonical (isrStubTable vector)) (software : Bool) :
    deliver (setupCpu tss isrStubTable) software vector (Place.state tss isrStubTable (.user rip)) =
      if software = true ∧ vector ≠ 0x80 then .error 13
      else .ok (Place.state tss isrStubTable (.kernel vector)) := by
  have hlt : isrStubTable vector < 2 ^ 64 := by
    unfold Canonical at hhandler
    omega
  have htss' : (setupGdt tss).tss 0x28 = some (tss, 103) := setupGdt_tss htss
  have hcode : (setupGdt tss).code kernelCs = some 0 := by
    rw [setupGdt_code]
    rfl
  have hcpl := @user_cpl tss isrStubTable rip
  rw [deliver, show (setupCpu tss isrStubTable).idt = setupInterrupts isrStubTable from rfl,
    setupInterrupts_gate hvector hlt]
  by_cases hself : software = true ∧ vector ≠ 0x80
  · rw [if_pos hself]
    refine if_pos (.inr ⟨hself.1, ?_⟩)
    rw [if_neg hself.2, hcpl]
    exact Nat.zero_lt_succ 2
  · have hallowed : ¬ (14 ≠ 14 ∨ software = true ∧ (if vector = 0x80 then 3 else 0) <
        (Place.state tss isrStubTable (.user rip)).cpl) := by
      rw [hcpl]
      rintro (h | ⟨hs, hlow⟩)
      · exact h rfl
      · exact hself ⟨hs, fun hv => by rw [if_pos hv] at hlow; omega⟩
    have hsome : ¬ ((Place.state tss isrStubTable (.user rip)).cpl < 0 ∨ ¬ Canonical (isrStubTable vector)) :=
      fun h => h.elim (Nat.not_lt_zero _) (fun hn => hn hhandler)
    dsimp only
    rw [if_neg hself, if_neg hallowed, if_neg (by decide),
      show (setupCpu tss isrStubTable).gdt = setupGdt tss from rfl, hcode]
    dsimp only
    rw [if_neg hsome, if_neg (by rw [hcpl]; decide), show (setupCpu tss isrStubTable).tr = 0x28 from rfl, htss']
    dsimp only
    rw [stackSlot, if_pos rfl, if_neg (by omega)]
    rfl

theorem stackFor_user (selector : Nat) :
    Gdt.stackFor (setupGdt tss) selector 3 = true ↔ selector = userDs ||| 3 := by
  have hdiv : userDs / 4 = 8 := rfl
  have hself : userDs ||| 3 = 35 := by decide
  rw [Gdt.stackFor, decide_eq_true_iff, setupGdt_stack, hself]
  constructor
  · rintro ⟨hlevel, hstack | hnull⟩
    · have huser : selector / 4 = userDs / 4 := by
        by_contra hne
        rw [if_neg hne] at hstack
        split_ifs at hstack
        exact absurd (Option.some.inj hstack) (by decide)
      omega
    · exact absurd rfl hnull.2
  · rintro rfl
    exact ⟨rfl, .inl rfl⟩

theorem code_user (selector : Nat) : (setupGdt tss).code selector = some 3 ↔ selector / 4 = userCs / 4 := by
  rw [setupGdt_code]
  split_ifs with hkernel huser
  · rw [hkernel]
    decide
  · simp [huser]
  · simp [huser]

theorem step_of_ok {cpu : Cpu} {s s' : State} {e : Event} (h : transfer cpu s e = .ok s') :
    step cpu s e = some s' := by
  rw [step, h]

theorem step_of_fault {cpu : Cpu} {s s' : State} {e : Event} {vector : Nat} (h : transfer cpu s e = .error vector)
    (hfault : deliver cpu false vector s = .ok s') : step cpu s e = some s' := by
  rw [step, h]
  dsimp only
  rw [hfault]

theorem transfer_user (htss : tss < 2 ^ 64) (hhandlers : ∀ v < 256, Canonical (isrStubTable v)) (e : Event) :
    transfer (setupCpu tss isrStubTable) (Place.state tss isrStubTable (.user rip)) e =
        .ok ((after rip e).state tss isrStubTable) ∨
      transfer (setupCpu tss isrStubTable) (Place.state tss isrStubTable (.user rip)) e = .error 13 ∧
        after rip e = .kernel 13 := by
  have hcpl := @user_cpl tss isrStubTable rip
  have hdeliver := fun (software : Bool) (v : Fin 256) =>
    @deliver_user tss isrStubTable rip htss v.val v.isLt (hhandlers v v.isLt) software
  cases e with
  | int vector =>
      rw [transfer, hdeliver, after]
      by_cases hv : vector.val = 0x80
      · rw [if_neg (fun h => h.2 hv), if_pos hv, hv]
        exact .inl rfl
      · rw [if_pos ⟨rfl, hv⟩, if_neg hv]
        exact .inr ⟨rfl, rfl⟩
  | raised vector =>
      rw [transfer, hdeliver, if_neg (fun h => Bool.false_ne_true h.1)]
      exact .inl rfl
  | farJump selector offset =>
      by_cases hgo : selector / 4 = userCs / 4 ∧ Canonical offset
      · have hself : selector / 4 * 4 + 3 = userCs ||| 3 := by
          rw [hgo.1]
          decide
        rw [after, if_pos hgo, transfer, hcpl, if_pos ⟨(code_user selector).mpr hgo.1, by omega, hgo.2⟩, hself]
        exact .inl rfl
      · rw [after, if_neg hgo, transfer, hcpl, if_neg (fun h => hgo ⟨(code_user selector).mp h.1, h.2.2⟩)]
        exact .inr ⟨rfl, rfl⟩
  | iret cs ss target =>
      have hself : userCs ||| 3 = 27 := by decide
      have hdiv : userCs / 4 = 6 := rfl
      by_cases hgo : UserFrame cs ss target
      · rw [after, if_pos hgo]
        obtain ⟨rfl, rfl, htarget⟩ := hgo
        rw [transfer, hcpl, if_pos ⟨by decide, (code_user _).mpr (by decide), (stackFor_user _).mpr rfl, htarget⟩]
        exact .inl rfl
      · rw [after, if_neg hgo, transfer, hcpl, if_neg]
        · exact .inr ⟨rfl, rfl⟩
        · rintro ⟨hlevel, hcode, hstack, htarget⟩
          have hthree : cs % 4 = 3 := by omega
          rw [hthree] at hcode hstack
          have hfour := (code_user cs).mp hcode
          exact hgo ⟨by omega, (stackFor_user ss).mp hstack, htarget⟩
  | loadStack selector =>
      have hgdt : (setupCpu tss isrStubTable).gdt = setupGdt tss := rfl
      by_cases hgo : selector = userDs ||| 3
      · rw [after, if_pos hgo, transfer, hcpl, hgdt, if_pos ((stackFor_user selector).mpr hgo), hgo]
        exact .inl rfl
      · rw [after, if_neg hgo, transfer, hcpl, hgdt, if_neg fun h => hgo ((stackFor_user selector).mp h)]
        exact .inr ⟨rfl, rfl⟩

theorem step_user (htss : tss < 2 ^ 64) (hhandlers : ∀ v < 256, Canonical (isrStubTable v)) (e : Event) :
    step (setupCpu tss isrStubTable) (Place.state tss isrStubTable (.user rip)) e =
      ((Place.user rip).next e).map (Place.state tss isrStubTable) := by
  have hfault : deliver (setupCpu tss isrStubTable) false 13 (Place.state tss isrStubTable (.user rip)) =
      .ok (Place.state tss isrStubTable (.kernel 13)) :=
    (deliver_user htss (by decide) (hhandlers 13 (by decide)) false).trans (if_neg fun h => Bool.false_ne_true h.1)
  rw [Place.next, Option.map_some]
  rcases @transfer_user tss isrStubTable rip htss hhandlers e with hok | ⟨herror, hafter⟩
  · exact step_of_ok hok
  · rw [hafter]
    exact step_of_fault herror hfault

/-- A return from the kernel puts the program back to where the frame says. -/
theorem step_iret {s : State} (hs : s.cpl = 0) {cs ss target : Nat} (hframe : UserFrame cs ss target) :
    step (setupCpu tss isrStubTable) s (.iret cs ss target) =
      some (Place.state tss isrStubTable (.user target)) := by
  obtain ⟨rfl, rfl, htarget⟩ := hframe
  have hlevel : s.cpl ≤ (userCs ||| 3) % 4 := by
    rw [hs]
    exact Nat.zero_le _
  apply step_of_ok
  rw [transfer, if_pos ⟨hlevel, (code_user _).mpr (by decide), (stackFor_user _).mpr rfl, htarget⟩]
  rfl

theorem userStep_eq (htss : tss < 2 ^ 64) (hhandlers : ∀ v < 256, Canonical (isrStubTable v)) (p : Place)
    (e : Event) :
    userStep (setupCpu tss isrStubTable) (p.state tss isrStubTable) e =
      (p.next e).map (Place.state tss isrStubTable) := by
  cases p with
  | kernel vector =>
      have hcpl : (Place.state tss isrStubTable (.kernel vector)).cpl = 0 := show kernelCs % 4 = 0 by decide
      have hring : ¬ (Place.state tss isrStubTable (.kernel vector)).cpl = 3 := by omega
      cases e with
      | iret cs ss target =>
          simp only [userStep, if_neg hring, Place.next]
          by_cases hframe : UserFrame cs ss target
          · rw [if_pos hframe, if_pos hframe, step_iret hcpl hframe]
            rfl
          · rw [if_neg hframe, if_neg hframe]
            rfl
      | _ => exact if_neg hring
  | user rip => exact (if_pos user_cpl).trans (step_user htss hhandlers e)

/-- Whatever a program does and whatever interrupts it, it stays in ring 3 with the segments it was given, except
where the kernel runs, from the start of a handler on and on the stack of the TSS; a return from the kernel puts it
back in ring 3. The program itself reaches the handler of vector 0x80 and, by what it may not do, that of the
protection fault. -/
theorem program_stays_in_ring (tss : Nat) (isrStubTable : Nat → Nat) (htss : tss < 2 ^ 64)
    (hhandlers : ∀ v < 256, Canonical (isrStubTable v)) (stackStart entry : Nat) (hentry : Canonical entry)
    (kernel : State) (hkernel : kernel.cpl = 0) (events : List Event) :
    (step (setupCpu tss isrStubTable) kernel (newCpuState stackStart entry).iret).bind
        (fun s => run (userStep (setupCpu tss isrStubTable)) s events) =
      (run Place.next (.user entry) events).map (Place.state tss isrStubTable) := by
  have hrun : ∀ (p : Place), run (userStep (setupCpu tss isrStubTable)) (p.state tss isrStubTable) events =
      (run Place.next p events).map (Place.state tss isrStubTable) := by
    induction events with
    | nil => exact fun p => rfl
    | cons e events ih =>
        intro p
        rw [run, run, userStep_eq htss hhandlers]
        cases p.next e with
        | none => rfl
        | some q => exact ih q
  have hiret : (newCpuState stackStart entry).iret = .iret (userCs ||| 3) (userDs ||| 3) entry := rfl
  rw [hiret, step_iret hkernel ⟨rfl, rfl, hentry⟩]
  exact hrun _

end proofs

/-- A program that loads its own stack segment, calls the kernel, is resumed and interrupted. -/
theorem program_stays_in_ring_call :
    (step (setupCpu 0xffff800000001000 fun v => 0xffffffff80000000 + 16 * v) ⟨kernelCs, 0, 0, none⟩
      (newCpuState 0x7fffff000000 0x400000).iret).bind
        (fun s => run (userStep (setupCpu 0xffff800000001000 fun v => 0xffffffff80000000 + 16 * v)) s
          [.loadStack (userDs ||| 3), .int 0x80, .iret (userCs ||| 3) (userDs ||| 3) 0x400002, .raised 0x20]) =
      some ⟨kernelCs, 0, 0xffffffff80000200, some 0xffff800000001004⟩ :=
  program_stays_in_ring 0xffff800000001000 (fun v => 0xffffffff80000000 + 16 * v) (by norm_num)
    (fun v hv => .inr ⟨by omega, by omega⟩) 0x7fffff000000 0x400000 (.inl (by norm_num))
    ⟨kernelCs, 0, 0, none⟩ rfl
    [.loadStack (userDs ||| 3), .int 0x80, .iret (userCs ||| 3) (userDs ||| 3) 0x400002, .raised 0x20]

end Lucix.Privilege
