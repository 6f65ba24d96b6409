import Lucix.WordStack
import Lucix.Syscall

/-!
# Interrupt frames, `arch/x86_64/idt_table.s`, `jmp_user.s` and `arch_sched.c`

The stubs of the interrupt table, `cpu_context_switch` and `__iret_context_switch`, instruction by
instruction and field by field. What the CPU does between two instructions of the kernel (another
interrupt, a fault) is not part of a run here.
-/
namespace Lucix.Interrupt
open WordStack

inductive Reg where
  | rax | rbx | rcx | rdx | rbp | rsi | rdi | rsp | r8 | r9 | r10 | r11 | r12 | r13 | r14 | r15
  deriving DecidableEq, Repr

/-- What an interrupt has to give back. -/
@[ext]
structure Context where
  regs : Reg → Word
  rip : Word
  cs : Word
  rflags : Word
  ss : Word

inductive Seg where
  | ds | es | fs | gs
  deriving DecidableEq, Repr

/-- The CPU with its memory; `rsp0` is the entry `rsp[0]` of its TSS. -/
structure Machine extends Context where
  segs : Seg → BitVec 16
  mem : Memory
  rsp0 : Word

def Machine.rsp (m : Machine) : Word := m.regs .rsp

def Machine.setReg (m : Machine) (r : Reg) (w : Word) : Machine := { m with regs := Function.update m.regs r w }

def Machine.push (m : Machine) (w : Word) : Machine :=
  { m.setReg .rsp (m.rsp - 8) with mem := Function.update m.mem (m.rsp - 8) w }

/-- The destination is the last operand, as in the source. -/
inductive Instr where
  | push (r : Reg)
  | pushImm (w : Word)
  | pop (r : Reg)
  | mov (src dst : Reg)
  | movAx (dst : Seg)
  | addImm (w : Word) (dst : Reg)
  | call
  | iretq
  deriving DecidableEq

/-- The C function that a stub calls: the address the call pushes, and what has become of the machine
when the function has returned. -/
structure Handler where
  ret : Word
  body : Machine → Machine

/-- One instruction. The five words of `iretq` are taken as they are: the CPU's checks of selectors,
of reserved flags and of the address are left to the CPU. -/
def step (h : Handler) (m : Machine) : Instr → Machine
  | .push r => m.push (m.regs r)
  | .pushImm w => m.push w
  | .pop r => (m.setReg .rsp (m.rsp + 8)).setReg r (m.mem m.rsp)
  | .mov src dst => m.setReg dst (m.regs src)
  | .movAx dst => { m with segs := Function.update m.segs dst ((m.regs .rax).setWidth 16) }
  | .addImm w dst => m.setReg dst (m.regs dst + w)
  | .call => h.body (m.push h.ret)
  | .iretq =>
      { m.setReg .rsp (m.mem (slot m.rsp 3)) with
        rip := m.mem (slot m.rsp 0)
        cs := m.mem (slot m.rsp 1)
        rflags := m.mem (slot m.rsp 2)
        ss := m.mem (slot m.rsp 4) }

def run (h : Handler) (program : List Instr) (m : Machine) : Machine := program.foldl (step h) m

/-! ### The stubs -/

def pushaqMacro : List Instr :=
  [.push .rax, .push .rcx, .push .rdx, .push .rbx, .push .rbp, .push .rsi, .push .rdi, .push .r15, .push .r14,
    .push .r13, .push .r12, .push .r11, .push .r10, .push .r9, .push .r8]

def popaqMacro : List Instr :=
  [.pop .r8, .pop .r9, .pop .r10, .pop .r11, .pop .r12, .pop .r13, .pop .r14, .pop .r15, .pop .rdi, .pop .rsi,
    .pop .rbp, .pop .rbx, .pop .rdx, .pop .rcx, .pop .rax]

/-- The instructions of a stub in front of its call. -/
def isrEntry (id : Word) : List Instr := pushaqMacro ++ [.pushImm id, .mov .rsp .rdi]

def isrNoErrStub (id : Word) : List Instr := isrEntry id ++ [.call, .pop .rax] ++ popaqMacro ++ [.iretq]

def isrErrStub (id : Word) : List Instr :=
  isrEntry id ++ [.call, .pop .rax] ++ popaqMacro ++ [.addImm 0x08 .rsp, .iretq]

def isrIrq (id : Word) : List Instr := isrEntry id ++ [.call, .pop .rax] ++ popaqMacro ++ [.iretq]

/-- A stub as it is entered: only those of `isr_err_stub` are entered with an error code. -/
inductive Stub where
  | irq (id : Word)
  | noErr (id : Word)
  | err (id code : Word)

def Stub.id : Stub → Word
  | .irq id => id
  | .noErr id => id
  | .err id _ => id

def Stub.program : Stub → List Instr
  | .irq id => isrIrq id
  | .noErr id => isrNoErrStub id
  | .err id _ => isrErrStub id

def kernelCs : Word := 8

/-- The stack that the CPU enters an interrupt on: that of the TSS when it leaves user mode, as the
gates name no other (`ist` is 0), and aligned to 16 bytes. -/
def Machine.entrySp (m : Machine) : Word := (if m.cs &&& 3 = 0 then m.rsp else m.rsp0) &&& ~~~15

/-- What the CPU pushes on entry. -/
def Machine.pushException (m : Machine) : Machine :=
  ((((m.setReg .rsp m.entrySp).push m.ss).push m.rsp).push m.rflags).push m.cs |>.push m.rip

def Stub.pushCode (stub : Stub) (m : Machine) : Machine :=
  match stub with
  | .err _ code => m.push code
  | _ => m

/-- The CPU enters the stub at `addr` through an interrupt gate. -/
def Stub.deliver (stub : Stub) (addr : Word) (m : Machine) : Machine :=
  { stub.pushCode m.pushException with
    rip := addr
    cs := kernelCs
    ss := if m.cs &&& 3 = 0 then m.ss else 0
    -- IF, TF, NT, RF and VM are cleared.
    rflags := m.rflags &&& ~~~0x34300 }

/-- The machine that the C function is entered with. -/
def Stub.called (stub : Stub) (addr : Word) (h : Handler) (m : Machine) : Machine :=
  (run h (isrEntry stub.id) (stub.deliver addr m)).push h.ret

/-- The whole interrupt, from the instruction it interrupts to the one after `iretq`. -/
def Stub.interrupt (stub : Stub) (addr : Word) (h : Handler) (m : Machine) : Machine :=
  run h stub.program (stub.deliver addr m)

/-! ### Records -/

/-- The members of `struct interrupt_frame` and of `struct arch_x86_cpu_state` by name. The `rsp` of a
frame is that of its exception. -/
inductive Field where
  | interruptId
  | reg (r : Reg)
  | errCode
  | rip
  | cs
  | rflags
  | ss
  deriving DecidableEq

def interruptException : List Field := [.rip, .cs, .rflags, .reg .rsp, .ss]

def interruptErrException : List Field := .errCode :: interruptException

/-- The structure `interrupt_frame` with the member of its union that the interrupt has. -/
def interruptFrame (exception : List Field) : List Field :=
  .interruptId :: .reg .r8 :: .reg .r9 :: .reg .r10 :: .reg .r11 :: .reg .r12 :: .reg .r13 :: .reg .r14 ::
    .reg .r15 :: .reg .rdi :: .reg .rsi :: .reg .rbp :: .reg .rbx :: .reg .rdx :: .reg .rcx :: .reg .rax :: exception

/-- The value of `sizeof(struct interrupt_frame)`, whose union is as large as its larger member. -/
def sizeofInterruptFrame : Nat := 8 * (interruptFrame interruptErrException).length

def cpuStateFields : List Field :=
  [.rip, .cs, .ss, .rflags, .reg .rsp, .reg .rdi, .reg .rsi, .reg .rbp, .reg .rbx, .reg .rdx, .reg .rcx, .reg .rax,
    .reg .r8, .reg .r9, .reg .r10, .reg .r11, .reg .r12, .reg .r13, .reg .r14, .reg .r15]

def Stub.exception : Stub → List Field
  | .err _ _ => interruptErrException
  | _ => interruptException

/-- What the members of a frame are named after. -/
def Stub.named (stub : Stub) (c : Context) : Field → Word
  | .interruptId => stub.id
  | .reg r => c.regs r
  | .errCode => match stub with
    | .err _ code => code
    | _ => 0
  | .rip => c.rip
  | .cs => c.cs
  | .rflags => c.rflags
  | .ss => c.ss

/-- The context that members of these names describe. -/
def Context.ofFields (g : Field → Word) : Context := ⟨fun r => g (.reg r), g .rip, g .cs, g .rflags, g .ss⟩

/-! ### The context switch -/

structure Task where
  ksp : Word
  kstack : Word
  cpuState : Word

structure Cpu where
  current : Option Task
  idle : Task

def iretContextSwitch : List Instr :=
  [.mov .rdi .rsp, .mov .rdi .rax, .movAx .ds, .movAx .es, .movAx .fs, .movAx .gs, .mov .rsi .rax, .mov .rax .rsp,
    .addImm 0x08 .rsp, .pop .r8, .pop .r9, .pop .r10, .pop .r11, .pop .r12, .pop .r13, .pop .r14, .pop .r15,
    .pop .rdi, .pop .rsi, .pop .rbp, .pop .rbx, .pop .rdx, .pop .rcx, .pop .rax, .iretq]

/-- The fields that `cpu_context_switch` assigns, each from the field of the same name. -/
def assigned : List Field :=
  [.cs, .rflags, .rip, .reg .rsp, .ss, .reg .rax, .reg .rbx, .reg .rcx, .reg .rdx, .reg .rbp, .reg .rdi, .reg .rsi,
    .reg .r8, .reg .r9, .reg .r10, .reg .r11, .reg .r12, .reg .r13, .reg .r14, .reg .r15]

def Cpu.currentTask (cpu : Cpu) : Task := cpu.current.getD cpu.idle

/-- Where `cpu_context_switch` builds its frame. -/
def Task.frame (t : Task) (newCpuState : Word) : Word :=
  if newCpuState = 0 then t.ksp - BitVec.ofNat 64 sizeofInterruptFrame + 8 else t.kstack

/-- The state that it copies. -/
def Task.state (t : Task) (newCpuState : Word) : Word := if newCpuState = 0 then t.cpuState else newCpuState

/-- Memory when the frame has been filled. -/
def Cpu.filled (cpu : Cpu) (newCpuState : Word) (mem : Memory) : Memory :=
  copyFields (interruptFrame interruptException) cpuStateFields (cpu.currentTask.frame newCpuState)
    (cpu.currentTask.state newCpuState) assigned mem

/-- The function `cpu_context_switch` up to its call of `__iret_context_switch`. The memory that `calls`
writes is that of the calls behind the assignments: `kfree` where there is a new state, and what is
pushed on the stack that is left. -/
def cpuContextSwitch (calls : Word → Memory → Memory) (cpu : Cpu) (newCpuState : Word) (m : Machine) : Machine :=
  let mem := calls newCpuState (cpu.filled newCpuState m.mem)
  -- The argument is a `uint32_t`, and a new state is read after it has been freed.
  let ss := ((field cpuStateFields mem (cpu.currentTask.state newCpuState) .ss).setWidth 32).setWidth 64
  { (m.setReg .rdi ss).setReg .rsi (cpu.currentTask.frame newCpuState) with
    mem := mem
    rsp0 := cpu.currentTask.kstack + 4096 * 2 }

/-- The machine after `iretq`; the program calls nothing. -/
def resumed (calls : Word → Memory → Memory) (cpu : Cpu) (newCpuState : Word) (m : Machine) : Machine :=
  run ⟨0, id⟩ iretContextSwitch (cpuContextSwitch calls cpu newCpuState m)

/-! ### Runs of pushes and pops -/

/-- The words from the stack pointer on. -/
def Stacked (m : Machine) (ws : List Word) : Prop := Holds m.mem m.rsp ws

@[simp] theorem setReg_self (m : Machine) (r : Reg) (w : Word) : (m.setReg r w).regs r = w :=
  Function.update_self ..

theorem setReg_of_ne (m : Machine) {r q : Reg} (w : Word) (h : q ≠ r) : (m.setReg r w).regs q = m.regs q :=
  Function.update_of_ne h ..

@[simp] theorem setReg_rsp (m : Machine) (w : Word) : (m.setReg .rsp w).rsp = w := setReg_self ..

theorem push_regs (m : Machine) (w : Word) {q : Reg} (h : q ≠ .rsp) : (m.push w).regs q = m.regs q :=
  setReg_of_ne m _ h

@[simp] theorem push_rsp (m : Machine) (w : Word) : (m.push w).rsp = m.rsp - 8 := setReg_rsp ..

theorem Stacked.push {m : Machine} {ws : List Word} (h : Stacked m ws) (w : Word)
    (hlen : ws.length + 1 < 2 ^ 61) : Stacked (m.push w) (w :: ws) := by
  unfold Stacked
  rw [push_rsp]
  exact Holds.push h hlen

theorem Stacked.setReg {m : Machine} {ws : List Word} (h : Stacked m ws) {r : Reg} (hr : r ≠ .rsp) (w : Word) :
    Stacked (m.setReg r w) ws := by
  unfold Stacked Machine.rsp
  rw [setReg_of_ne m w hr.symm]
  exact h

section runs
variable {h : Handler} {rs : List Reg} {m : Machine} {ws : List Word}

@[simp] theorem run_nil : run h [] m = m := rfl

@[simp] theorem run_cons (i : Instr) (program : List Instr) :
    run h (i :: program) m = run h program (step h m i) := rfl

theorem run_append (p q : List Instr) : run h (p ++ q) m = run h q (run h p m) := List.foldl_append ..

/-- The registers end up above the words that were there, the last one lowest. -/
theorem run_pushes (hst : Stacked m ws) (hrsp : .rsp ∉ rs) (hlen : rs.length + ws.length < 2 ^ 61) :
    Stacked (run h (rs.map .push) m) ((rs.map m.regs).reverse ++ ws) := by
  induction rs generalizing m ws with
  | nil => exact hst
  | cons r rs ih =>
      rw [List.mem_cons, not_or] at hrsp
      rw [List.length_cons] at hlen
      have hpush : Stacked (step h m (.push r)) (m.regs r :: ws) := hst.push _ (by omega)
      have hregs : rs.map (step h m (.push r)).regs = rs.map m.regs := by
        apply List.map_congr_left
        intro q hq
        exact push_regs m _ fun heq => hrsp.2 (heq ▸ hq)
      have hrun := ih hpush hrsp.2 (by rw [List.length_cons]; omega)
      rw [hregs] at hrun
      rwa [List.map_cons, run_cons, List.map_cons, List.reverse_cons, List.append_assoc, List.singleton_append]

theorem Stacked.pop {w : Word} {r : Reg} (hst : Stacked m (w :: ws)) (hr : r ≠ .rsp) :
    (step h m (.pop r)).regs r = w ∧ Stacked (step h m (.pop r)) ws := by
  constructor
  · rw [step, setReg_self]
    exact Holds.head hst
  · have hrsp : (step h m (.pop r)).rsp = m.rsp + 8 := by
      rw [step, Machine.rsp, setReg_of_ne _ _ hr.symm, setReg_self]
    unfold Stacked
    rw [hrsp]
    exact Holds.tail hst

theorem pop_regs {q r : Reg} (hq : q ≠ .rsp) (hne : q ≠ r) : (step h m (.pop r)).regs q = m.regs q := by
  rw [step, setReg_of_ne _ _ hne, setReg_of_ne _ _ hq]

theorem run_pops_regs {q : Reg} (hq : q ≠ .rsp) (hnot : q ∉ rs) : (run h (rs.map .pop) m).regs q = m.regs q := by
  induction rs generalizing m with
  | nil => rfl
  | cons r rs ih =>
      rw [List.mem_cons, not_or] at hnot
      rw [List.map_cons, run_cons, ih hnot.2, pop_regs hq hnot.1]

theorem run_pops {g : Reg → Word} (hst : Stacked m (rs.map g ++ ws)) (hrsp : .rsp ∉ rs) (hnodup : rs.Nodup) :
    (∀ r ∈ rs, (run h (rs.map .pop) m).regs r = g r) ∧ Stacked (run h (rs.map .pop) m) ws := by
  induction rs generalizing m with
  | nil => exact ⟨by simp, hst⟩
  | cons r rs ih =>
      rw [List.mem_cons, not_or] at hrsp
      rw [List.nodup_cons] at hnodup
      have hne : r ≠ .rsp := fun heq => hrsp.1 heq.symm
      obtain ⟨hr, hrest⟩ := Stacked.pop (h := h) hst hne
      obtain ⟨hregs, hstack⟩ := ih hrest hrsp.2 hnodup.2
      refine ⟨?_, hstack⟩
      intro q hq
      rcases List.mem_cons.mp hq with rfl | hmem
      · rw [List.map_cons, run_cons, run_pops_regs hne hnodup.1, hr]
      · exact hregs q hmem

end runs

/-! ### Entry and exit -/

/-- The registers of `popaq_macro`, which are those of a frame, from the lowest word on. -/
def popaqRegs : List Reg :=
  [.r8, .r9, .r10, .r11, .r12, .r13, .r14, .r15, .rdi, .rsi, .rbp, .rbx, .rdx, .rcx, .rax]

theorem popaqRegs_nodup : popaqRegs.Nodup := by decide

theorem rsp_notMem_popaqRegs : .rsp ∉ popaqRegs := by decide

theorem mem_popaqRegs {r : Reg} (h : r ≠ .rsp) : r ∈ popaqRegs := by
  cases r with
  | rsp => exact absurd rfl h
  | _ => decide

theorem popaqMacro_eq : popaqMacro = popaqRegs.map .pop := rfl

theorem pushaqMacro_eq : pushaqMacro = popaqRegs.reverse.map .push := rfl

theorem interruptFrame_map (exception : List Field) (g : Field → Word) : (interruptFrame exception).map g =
    g .interruptId :: (popaqRegs.map (fun r => g (.reg r)) ++ exception.map g) := by
  rfl

theorem exception_length_le (stub : Stub) : stub.exception.length ≤ 6 := by
  cases stub with
  | err id code => exact le_refl 6
  | _ => exact Nat.le_succ 5

section entry
variable {stub : Stub} {addr : Word} {h : Handler} {m : Machine} {r : Reg}

theorem pushException_regs (hr : r ≠ .rsp) : m.pushException.regs r = m.regs r := by
  unfold Machine.pushException
  rw [push_regs _ _ hr, push_regs _ _ hr, push_regs _ _ hr, push_regs _ _ hr, push_regs _ _ hr, setReg_of_ne _ _ hr]

theorem deliver_regs (hr : r ≠ .rsp) : (stub.deliver addr m).regs r = m.regs r := by
  cases stub with
  | err id code => exact (push_regs _ code hr).trans (pushException_regs hr)
  | _ => exact pushException_regs hr

theorem stacked_pushException : Stacked m.pushException [m.rip, m.cs, m.rflags, m.rsp, m.ss] := by
  have hempty : Stacked (m.setReg .rsp m.entrySp) [] := Holds.nil
  have hss := hempty.push m.ss (by simp)
  have hrsp := hss.push m.rsp (by simp)
  have hrflags := hrsp.push m.rflags (by simp)
  have hcs := hrflags.push m.cs (by simp)
  exact hcs.push m.rip (by simp)

theorem stacked_deliver : Stacked (stub.deliver addr m) (stub.exception.map (stub.named m.toContext)) := by
  cases stub with
  | err id code => exact stacked_pushException.push code (by simp)
  | _ => exact stacked_pushException

theorem stacked_pushaqMacro : Stacked (run h pushaqMacro (stub.deliver addr m))
    (popaqRegs.map m.regs ++ stub.exception.map (stub.named m.toContext)) := by
  have hlen : popaqRegs.reverse.length + (stub.exception.map (stub.named m.toContext)).length < 2 ^ 61 := by
    have hexception := exception_length_le stub
    rw [List.length_map, show popaqRegs.reverse.length = 15 from rfl]
    omega
  have hdeliver : Stacked (stub.deliver addr m) _ := stacked_deliver
  have hpushed := run_pushes (h := h) hdeliver (by decide) hlen
  have hregs : popaqRegs.map (stub.deliver addr m).regs = popaqRegs.map m.regs :=
    List.map_congr_left fun r hr => deliver_regs fun heq => rsp_notMem_popaqRegs (heq ▸ hr)
  rwa [← pushaqMacro_eq, List.map_reverse, List.reverse_reverse, hregs] at hpushed

theorem run_isrEntry : run h (isrEntry stub.id) m =
    ((run h pushaqMacro m).push stub.id).setReg .rdi ((run h pushaqMacro m).rsp - 8) := by
  rw [isrEntry, run_append, run_cons, run_cons, run_nil]
  rfl

theorem stacked_called :
    Stacked (stub.called addr h m) (h.ret :: (interruptFrame stub.exception).map (stub.named m.toContext)) := by
  have hlen : (popaqRegs.map m.regs ++ stub.exception.map (stub.named m.toContext)).length ≤ 21 := by
    have hexception := exception_length_le stub
    rw [List.length_append, List.length_map, List.length_map, show popaqRegs.length = 15 from rfl]
    omega
  have hregs : Stacked (run h pushaqMacro (stub.deliver addr m)) _ := stacked_pushaqMacro
  have hid := hregs.push stub.id (by omega)
  have hframe := hid.setReg (r := .rdi) (by decide) ((run h pushaqMacro (stub.deliver addr m)).rsp - 8)
  rw [interruptFrame_map, Stub.called, run_isrEntry]
  exact hframe.push h.ret (by rw [List.length_cons]; omega)

theorem called_rdi : (stub.called addr h m).regs .rdi = (stub.called addr h m).rsp + 8 := by
  have hrsp : ((run h pushaqMacro (stub.deliver addr m)).push stub.id).rsp =
      (run h pushaqMacro (stub.deliver addr m)).rsp - 8 := push_rsp ..
  rw [Stub.called, run_isrEntry, push_rsp, push_regs _ _ (by decide), setReg_self, BitVec.sub_add_cancel, ← hrsp]
  exact (setReg_of_ne _ _ (by decide)).symm

theorem holds_called : Holds (stub.called addr h m).mem ((stub.called addr h m).regs .rdi)
    ((interruptFrame stub.exception).map (stub.named m.toContext)) := by
  rw [called_rdi]
  exact Holds.tail stacked_called

/-- The end of both exit paths: `iretq` behind the pops of all registers. -/
theorem iretq_context {g : Field → Word} (hst : Stacked m (interruptException.map g))
    (hregs : ∀ r ≠ .rsp, m.regs r = g (.reg r)) : (step h m .iretq).toContext = Context.ofFields g := by
  have hrsp : m.mem (slot m.rsp 3) = g (.reg .rsp) := hst 3 _ rfl
  apply Context.ext
  · funext r
    by_cases hr : r = .rsp
    · rw [hr]
      exact (setReg_self m .rsp _).trans hrsp
    · exact (setReg_of_ne m _ hr).trans (hregs r hr)
  · exact hst 0 _ rfl
  · exact hst 1 _ rfl
  · exact hst 2 _ rfl
  · exact hst 4 _ rfl

theorem popaq_regs {g : Field → Word} {ws : List Word}
    (hst : Stacked m (popaqRegs.map (fun r => g (.reg r)) ++ ws)) :
    (∀ r ≠ .rsp, (run h popaqMacro m).regs r = g (.reg r)) ∧ Stacked (run h popaqMacro m) ws := by
  obtain ⟨hregs, hrest⟩ := run_pops (h := h) hst rsp_notMem_popaqRegs popaqRegs_nodup
  rw [popaqMacro_eq]
  exact ⟨fun r hr => hregs r (mem_popaqRegs hr), hrest⟩

theorem popaq_iretq {g : Field → Word}
    (hst : Stacked m (popaqRegs.map (fun r => g (.reg r)) ++ interruptException.map g)) :
    (run h (popaqMacro ++ [.iretq]) m).toContext = Context.ofFields g := by
  obtain ⟨hregs, hrest⟩ := popaq_regs (h := h) hst
  rw [run_append, run_cons, run_nil]
  exact iretq_context hrest hregs

theorem popaq_add_iretq {g : Field → Word}
    (hst : Stacked m (popaqRegs.map (fun r => g (.reg r)) ++ interruptErrException.map g)) :
    (run h (popaqMacro ++ [.addImm 0x08 .rsp, .iretq]) m).toContext = Context.ofFields g := by
  obtain ⟨hregs, hrest⟩ := popaq_regs (h := h) hst
  rw [run_append, run_cons, run_cons, run_nil, step]
  apply iretq_context
  · unfold Stacked
    rw [setReg_rsp]
    exact Holds.tail hrest
  · intro r hr
    rw [setReg_of_ne _ _ hr, hregs r hr]

theorem program_eq : stub.program = isrEntry stub.id ++ .call :: .pop .rax :: (popaqMacro ++ match stub with
    | .err _ _ => [.addImm 0x08 .rsp, .iretq]
    | _ => [.iretq]) := by
  cases stub <;> rfl

/-- What a stub resumes is what stands in the frame when the C function returns. -/
theorem interrupt_context {g : Field → Word}
    (hst : Stacked (h.body (stub.called addr h m)) ((interruptFrame stub.exception).map g)) :
    (stub.interrupt addr h m).toContext = Context.ofFields g := by
  rw [interruptFrame_map] at hst
  obtain ⟨-, hrest⟩ := Stacked.pop (h := h) (r := .rax) hst (by decide)
  rw [Stub.interrupt, program_eq, run_append, run_cons, run_cons]
  cases stub with
  | err id code => exact popaq_add_iretq hrest
  | _ => exact popaq_iretq hrest

end entry

/-! ### Transparency -/

/-- A member of the frame at an address. -/
def Stub.member (stub : Stub) (m : Machine) (frame : Word) (f : Field) : Word :=
  field (interruptFrame stub.exception) m.mem frame f

/-- The C function returns as the calling convention has it, and assigns no member of its frame but
the named ones. -/
structure Stub.Keeps (stub : Stub) (addr : Word) (h : Handler) (m : Machine) (names : List Field) : Prop where
  rsp : (h.body (stub.called addr h m)).rsp = (stub.called addr h m).rsp + 8
  members : ∀ f ∈ interruptFrame stub.exception, f ∉ names →
    stub.member (h.body (stub.called addr h m)) ((stub.called addr h m).regs .rdi) f =
      stub.member (stub.called addr h m) ((stub.called addr h m).regs .rdi) f

theorem ofFields_congr {g g' : Field → Word} (h : ∀ f, f ≠ .interruptId → f ≠ .errCode → g f = g' f) :
    Context.ofFields g = Context.ofFields g' := by
  apply Context.ext
  · funext r
    exact h (.reg r) (by simp) (by simp)
  · exact h .rip (by simp) (by simp)
  · exact h .cs (by simp) (by simp)
  · exact h .rflags (by simp) (by simp)
  · exact h .ss (by simp) (by simp)

/-- The context with one register changed. -/
def Context.setReg (c : Context) (r : Reg) (w : Word) : Context := { c with regs := Function.update c.regs r w }

theorem ofFields_setReg (g g' : Field → Word) (r : Reg) :
    Context.ofFields (fun f => if f = .reg r then g' f else g f) = (Context.ofFields g).setReg r (g' (.reg r)) := by
  apply Context.ext
  · funext q
    simp only [Context.ofFields, Context.setReg, Function.update_apply, Field.reg.injEq]
    split_ifs with hq
    · rw [hq]
    · rfl
  · rfl
  · rfl
  · rfl
  · rfl

theorem mem_interruptException {f : Field} (hid : f ≠ .interruptId) (hcode : f ≠ .errCode) :
    f ∈ interruptFrame interruptException := by
  cases f with
  | interruptId => exact absurd rfl hid
  | errCode => exact absurd rfl hcode
  | reg r => cases r <;> decide
  | _ => decide

section transparency
variable {stub : Stub} {addr : Word} {h : Handler} {m : Machine} {names : List Field}

theorem interruptFrame_nodup : (interruptFrame stub.exception).Nodup := by
  cases stub with
  | err id code => exact show (interruptFrame interruptErrException).Nodup by decide
  | _ => exact show (interruptFrame interruptException).Nodup by decide

theorem mem_interruptFrame {f : Field} (hid : f ≠ .interruptId) (hcode : f ≠ .errCode) :
    f ∈ interruptFrame stub.exception := by
  have hmem := mem_interruptException hid hcode
  cases stub with
  | err id code =>
      have hsub : interruptFrame interruptException ⊆ interruptFrame interruptErrException := by decide
      exact hsub hmem
  | _ => exact hmem

theorem member_called {f : Field} (hf : f ∈ interruptFrame stub.exception) :
    stub.member (stub.called addr h m) ((stub.called addr h m).regs .rdi) f = stub.named m.toContext f := by
  have hholds : Holds (stub.called addr h m).mem _ _ := holds_called
  rw [← List.append_nil (List.map _ _)] at hholds
  exact hholds.field_eq hf

theorem Stub.Keeps.context (hk : stub.Keeps addr h m names) : (stub.interrupt addr h m).toContext =
    Context.ofFields fun f => if f ∈ names then
        stub.member (h.body (stub.called addr h m)) ((stub.called addr h m).regs .rdi) f
      else stub.named m.toContext f := by
  have hst : Stacked (h.body (stub.called addr h m)) ((interruptFrame stub.exception).map
      (stub.member (h.body (stub.called addr h m)) ((stub.called addr h m).regs .rdi))) := by
    unfold Stacked
    rw [hk.rsp, ← called_rdi]
    exact holds_of_fields interruptFrame_nodup fun f hf => rfl
  rw [interrupt_context hst]
  apply ofFields_congr
  intro f hid hcode
  split_ifs with hnames
  · rfl
  · have hf : f ∈ interruptFrame stub.exception := mem_interruptFrame hid hcode
    rw [hk.members f hf hnames, member_called hf]

theorem Stub.Keeps.context_self (hk : stub.Keeps addr h m []) :
    (stub.interrupt addr h m).toContext = m.toContext := by
  rw [hk.context]
  simp only [List.not_mem_nil, if_false]
  rfl

theorem Stub.Keeps.context_rax (hk : stub.Keeps addr h m [.reg .rax]) :
    (stub.interrupt addr h m).toContext = m.toContext.setReg .rax
      (stub.member (h.body (stub.called addr h m)) ((stub.called addr h m).regs .rdi) (.reg .rax)) := by
  rw [hk.context]
  simp only [List.mem_singleton]
  exact ofFields_setReg ..

end transparency

/-! ### System calls -/

/-- The registers of a system call, from the words named so. -/
def syscallFrame (g : Field → Word) : Sys.Frame := ⟨g (.reg .rax), g (.reg .rdi), g (.reg .rsi), g (.reg .rdx)⟩

/-- A C function that assigns to `frame->rax` what it makes of the frame, as `__irq_handler_stub` does
for interrupt `0x80`. -/
def raxHandler (ret : Word) (result : Sys.Frame → Word) : Handler where
  ret := ret
  body m :=
    let frame := interruptFrame interruptException
    { m.setReg .rsp (m.rsp + 8) with
      mem := Function.update m.mem (slot (m.regs .rdi) (frame.idxOf (.reg .rax)))
        (result (syscallFrame (field frame m.mem (m.regs .rdi)))) }

section syscall
variable {id addr ret : Word} {result : Sys.Frame → Word} {m : Machine}

theorem raxHandler_rsp : ((raxHandler ret result).body m).rsp = m.rsp + 8 := setReg_rsp ..

theorem raxHandler_member {f : Field} (hf : f ∈ interruptFrame interruptException) (hne : f ≠ .reg .rax) :
    field (interruptFrame interruptException) ((raxHandler ret result).body m).mem (m.regs .rdi) f =
      field (interruptFrame interruptException) m.mem (m.regs .rdi) f :=
  field_update_of_ne (by decide) hf (by decide) hne

theorem raxHandler_rax :
    field (interruptFrame interruptException) ((raxHandler ret result).body m).mem (m.regs .rdi) (.reg .rax) =
      result (syscallFrame (field (interruptFrame interruptException) m.mem (m.regs .rdi))) := field_update_self

theorem raxHandler_keeps : (Stub.irq id).Keeps addr (raxHandler ret result) m [.reg .rax] := by
  constructor
  · exact raxHandler_rsp
  · intro f hf hne
    exact raxHandler_member hf (List.mem_singleton.not.mp hne)

theorem called_syscallFrame (addr : Word) (h : Handler) :
    syscallFrame ((Stub.irq id).member ((Stub.irq id).called addr h m) (((Stub.irq id).called addr h m).regs .rdi)) =
      syscallFrame ((Stub.irq id).named m.toContext) := by
  have hreg : ∀ r, (Stub.irq id).member ((Stub.irq id).called addr h m)
      (((Stub.irq id).called addr h m).regs .rdi) (.reg r) = m.regs r :=
    fun r => member_called (mem_interruptFrame (by simp) (by simp))
  simp only [syscallFrame, hreg]
  rfl

theorem raxHandler_context : ((Stub.irq id).interrupt addr (raxHandler ret result) m).toContext =
    m.toContext.setReg .rax (result (syscallFrame ((Stub.irq id).named m.toContext))) := by
  have hkeeps : (Stub.irq id).Keeps addr (raxHandler ret result) m [.reg .rax] := raxHandler_keeps
  rw [hkeeps.context_rax, ← called_syscallFrame addr (raxHandler ret result)]
  exact congrArg (m.toContext.setReg .rax) raxHandler_rax

/-- What `__irq_handler_stub` leaves in `frame->rax`; after a fault, nothing is said of it. -/
def syscallResult {σ : Type} (ops : Sys.FileOps σ) (user : Sys.UserSpace) (opening : Sys.Opening)
    (table : Sys.FdTable) (s : σ) (frame : Sys.Frame) : Word :=
  match Sys.irqHandlerStub ops user opening table s frame with
  | .ok (after, _, _) => after.rax
  | .error _ => frame.rax

/-- Interrupt `0x80` resumes its caller with the result of the system call in `rax` and nothing else
changed. -/
theorem syscall_resumes {σ : Type} {ops : Sys.FileOps σ} {user : Sys.UserSpace} {opening : Sys.Opening}
    {table table' : Sys.FdTable} {s s' : σ} {after : Sys.Frame}
    (h : Sys.irqHandlerStub ops user opening table s (syscallFrame ((Stub.irq 0x80).named m.toContext)) =
      .ok (after, table', s')) :
    ((Stub.irq 0x80).interrupt addr (raxHandler ret (syscallResult ops user opening table s)) m).toContext =
      m.toContext.setReg .rax after.rax := by
  rw [raxHandler_context, syscallResult, h]

end syscall

/-! ### The switch -/

/-- The frame and the state it is filled from are apart, and the calls that come after leave the frame
alone: the stack they run on and what `kfree` writes lie elsewhere. -/
structure Separate (calls : Word → Memory → Memory) (cpu : Cpu) (newCpuState : Word) (mem : Memory) : Prop where
  apart : Apart (interruptFrame interruptException) cpuStateFields (cpu.currentTask.frame newCpuState)
    (cpu.currentTask.state newCpuState)
  calls : ∀ i < (interruptFrame interruptException).length,
    calls newCpuState (cpu.filled newCpuState mem) (slot (cpu.currentTask.frame newCpuState) i) =
      cpu.filled newCpuState mem (slot (cpu.currentTask.frame newCpuState) i)

/-- The contents of the `struct arch_x86_cpu_state` at an address. -/
def cpuStateAt (mem : Memory) (cpuState : Word) : Context := Context.ofFields (field cpuStateFields mem cpuState)

theorem mem_assigned {f : Field} (hid : f ≠ .interruptId) (hcode : f ≠ .errCode) : f ∈ assigned := by
  cases f with
  | interruptId => exact absurd rfl hid
  | errCode => exact absurd rfl hcode
  | reg r => cases r <;> decide
  | _ => decide

theorem iretContextSwitch_eq : iretContextSwitch =
    .mov .rdi .rsp :: .mov .rdi .rax :: .movAx .ds :: .movAx .es :: .movAx .fs :: .movAx .gs :: .mov .rsi .rax ::
      .mov .rax .rsp :: .addImm 0x08 .rsp :: (popaqMacro ++ [.iretq]) := rfl

section switch
variable {calls : Word → Memory → Memory} {cpu : Cpu} {newCpuState : Word} {m : Machine}

theorem iretContextSwitch_context {h : Handler} {g : Field → Word}
    (hframe : Holds m.mem (m.regs .rsi) ((interruptFrame interruptException).map g)) :
    (run h iretContextSwitch m).toContext = Context.ofFields g := by
  rw [iretContextSwitch_eq]
  simp only [run_cons]
  apply popaq_iretq
  exact Holds.tail hframe

theorem cpuContextSwitch_member (hsep : Separate calls cpu newCpuState m.mem) {f : Field} (hid : f ≠ .interruptId)
    (hcode : f ≠ .errCode) :
    field (interruptFrame interruptException) (cpuContextSwitch calls cpu newCpuState m).mem
        (cpu.currentTask.frame newCpuState) f =
      field cpuStateFields m.mem (cpu.currentTask.state newCpuState) f := by
  have hcopy : field _ (copyFields _ _ _ _ assigned m.mem) _ f = _ :=
    field_copyFields (by decide) hsep.apart (by decide) (by decide) (by decide) (mem_assigned hid hcode)
  rw [← hcopy]
  exact hsep.calls _ (List.idxOf_lt_length_of_mem (mem_interruptException hid hcode))

theorem resumed_context (hsep : Separate calls cpu newCpuState m.mem) :
    (resumed calls cpu newCpuState m).toContext = cpuStateAt m.mem (cpu.currentTask.state newCpuState) := by
  have hrsi : (cpuContextSwitch calls cpu newCpuState m).regs .rsi = cpu.currentTask.frame newCpuState :=
    setReg_self ..
  have hframe : Holds (cpuContextSwitch calls cpu newCpuState m).mem (cpu.currentTask.frame newCpuState)
      ((interruptFrame interruptException).map _) := holds_of_fields (by decide) fun f hf => rfl
  rw [← hrsi] at hframe
  rw [resumed, iretContextSwitch_context hframe]
  apply ofFields_congr
  intro f hid hcode
  rw [hrsi, cpuContextSwitch_member hsep hid hcode]

end switch

/-- The frame of an interrupt holds what it is named after; a stub gives back the interrupted context
from it, but for what the C function has assigned to `rax`; and a context switch resumes the state that
it is given. -/
theorem interrupt_frames_transparent :
    (∀ (stub : Stub) (addr : Word) (h : Handler) (m : Machine),
      (∀ f ∈ interruptFrame stub.exception,
        stub.member (stub.called addr h m) ((stub.called addr h m).regs .rdi) f = stub.named m.toContext f) ∧
      (stub.Keeps addr h m [] → (stub.interrupt addr h m).toContext = m.toContext) ∧
      (stub.Keeps addr h m [.reg .rax] → (stub.interrupt addr h m).toContext = m.toContext.setReg .rax
        (stub.member (h.body (stub.called addr h m)) ((stub.called addr h m).regs .rdi) (.reg .rax)))) ∧
    ∀ (s : Context) (calls : Word → Memory → Memory) (cpu : Cpu) (newCpuState : Word) (m : Machine),
      Separate calls cpu newCpuState m.mem → cpuStateAt m.mem (cpu.currentTask.state newCpuState) = s →
        (resumed calls cpu newCpuState m).toContext = s := by
  refine ⟨?_, ?_⟩
  · intro stub addr h m
    exact ⟨fun f hf => member_called hf, Stub.Keeps.context_self, Stub.Keeps.context_rax⟩
  · intro s calls cpu newCpuState m hsep hs
    rw [resumed_context hsep, hs]

/-- A program in user mode that asks for the first system call. -/
def userMachine : Machine where
  regs r := if r = .rax then 0 else if r = .rsp then 0x7fff0000 else 0x55
  rip := 0x400000
  cs := 0x23
  rflags := 0x202
  ss := 0x1b
  segs _ := 0x1b
  mem := id
  rsp0 := 0x9000

/-- A C function that clobbers every register and leaves its frame alone. -/
def clobbering : Handler := ⟨0x1000, fun m => { m with regs := fun r => if r = .rsp then m.rsp + 8 else 0 }⟩

/-- A task whose state is at `0x5000` and whose stack ends at `0x9000`. -/
def switchedTask : Task := ⟨0x9000, 0x7000, 0x5000⟩

theorem interrupt_frames_transparent_user :
    ((Stub.err 14 2).interrupt 0x2000 clobbering userMachine).toContext = userMachine.toContext ∧
      ((Stub.irq 0x80).interrupt 0x3000 (raxHandler 0x1000 fun _ => 7) userMachine).toContext =
        userMachine.toContext.setReg .rax 7 ∧
      (resumed (fun _ mem => mem) ⟨some switchedTask, switchedTask⟩ 0 userMachine).toContext =
        cpuStateAt userMachine.mem 0x5000 := by
  have hclobbering : (Stub.err 14 2).Keeps 0x2000 clobbering userMachine [] := ⟨rfl, fun f hf hne => rfl⟩
  have hrax : (Stub.irq 0x80).Keeps 0x3000 (raxHandler 0x1000 fun _ => 7) userMachine [.reg .rax] :=
    raxHandler_keeps
  have hseparate : Separate (fun _ mem => mem) ⟨some switchedTask, switchedTask⟩ 0 userMachine.mem := by
    constructor
    · have hslots : ∀ i < 21, ∀ j < 20,
          8 ≤ (slot 0x8f58 i - slot 0x5000 j).toNat ∧ 8 ≤ (slot 0x5000 j - slot 0x8f58 i).toNat := by
        intro i hi j hj
        unfold slot
        bv_omega
      exact hslots
    · intro i hi
      rfl
  refine ⟨?_, ?_, ?_⟩
  · exact (interrupt_frames_transparent.1 (.err 14 2) 0x2000 clobbering userMachine).2.1 hclobbering
  · exact (interrupt_frames_transparent.1 (.irq 0x80) 0x3000 (raxHandler 0x1000 fun _ => 7) userMachine).2.2 hrax
  · exact interrupt_frames_transparent.2 _ _ _ _ _ hseparate rfl

end Lucix.Interrupt
