import Lucix.Consoles
import Lucix.ProcessMemory
import Lucix.WriteChunks

/-! What programs print. `sys_write` reads the buffer of the program through its page tables, with the faults that
the kernel takes on the way, and hands what it has read to the console device, which hands it to the consoles. -/
namespace Lucix.Mm
open PageTable FileIo Execution Sys

/-! ### The system call -/

section code
variable (pages : Nat → Nat) (frames : Frames)

/-- The byte that a read returns from a frame. -/
def System.byteAt (s : System) (frame addr : Nat) : Option UInt8 :=
  (s.pageAt frames frame).map fun p => (s.heap.pages p).bytes (addr % pageSize)

/-- A read of the kernel at an address of the user half, which is executed again after a fault. -/
def System.kernelRead (s : System) (k addr : Nat) : Option (UInt8 × System) :=
  match s.walk Present k addr with
  | some frame => (s.byteAt frames frame addr).map fun b => (b, s)
  | none => (kernelPageFault pages frames s k addr ⟨false, false, false, false⟩).bind fun s =>
      (s.walk Present k addr).bind fun frame => (s.byteAt frames frame addr).map fun b => (b, s)

/-- The loop of `copy_from_user` with `left` iterations to go: what it returns and what it stores. -/
def System.copyLoop (k usr : Nat) : Nat → Nat → System → Option ((Int × List UInt8) × System)
  | 0, total, s => some ((total, []), s)
  | left + 1, total, s => s.procs[k]?.bind fun mm =>
      match findVmaForAddress (wrap64 (usr + total)) mm.vmAreas with
      | none => some ((-1, []), s)
      | some _ => (s.kernelRead pages frames k (wrap64 (usr + total))).bind fun (b, s) =>
          (System.copyLoop k usr left (total + 1) s).map fun (r, s) => ((r.1, b :: r.2), s)

def System.copyFromUser (s : System) (k usr count : Nat) : Option ((Int × List UInt8) × System) :=
  System.copyLoop pages frames k usr (count + 1) 0 s

/-- The loop of `sys_write` with at most `fuel` iterations to go. -/
def System.writeLoop {σ : Type} (k : Nat) (write : σ → List UInt8 → Int × σ) (src : Nat) (count : Int) :
    Nat → Nat → Int → σ → System → Option (Except Fault (Int × σ) × System)
  | 0, _, total, d, s => some (.ok (total, d), s)
  | fuel + 1, i, total, d, s =>
      if (i : Int) < count then
        let bytesToCopy := if count - i > 256 then 256 else (count - i).toNat
        (s.copyFromUser pages frames k (wrap64 (src + i)) bytesToCopy).bind fun ((_, stored), s) =>
          if 256 < stored.length then some (.error .buffer, s)
          else
            let buff := stored ++ List.replicate (256 - stored.length) 0
            let (ret, d) := write d (buff.take bytesToCopy)
            if 2 ^ 31 ≤ i + 256 then some (.error .overflow, s)
            else System.writeLoop k write src count fuel (i + 256) (total + ret) d s
      else some (.ok (total, d), s)

/-- The function `sys_write` in the process with number `k`. -/
def System.sysWrite {σ : Type} (ops : FileOps σ) (k : Nat) (table : FdTable) (fd : Int) (src : Nat) (count : Int)
    (d : σ) (s : System) : Option (Except Fault (Int × σ) × System) :=
  if fd ≥ table.tableSize then some (.ok (-ebadf, d), s)
  else match arrayRead table.fd fd with
    | none => some (.error (.fdTable fd), s)
    | some none => some (.ok (-ebadf, d), s)
    | some (some file) =>
        match ops.write file with
        | none => some (.ok (-Ramfs.einval, d), s)
        | some write => System.writeLoop pages frames k write src count ((count.toNat + 255) / 256) 0 0 d s

end code

/-! ### What a call takes -/

section takes
variable {pages : Nat → Nat} {frames : Frames} {s s' : System} {k addr : Nat}

theorem tableOn_takes (t : Tables) (table : Nat) (path : List Nat) :
    (t.tableOn pages table path).2.next ≤ t.next + path.length := by
  induction path generalizing t table with
  | nil => exact le_rfl
  | cons i path ih =>
      have hrest := ih (t.tableAt pages table i).2 (t.tableAt pages table i).1
      have hhead := tableAt_takes pages t table i
      rw [Tables.tableOn, List.length_cons]
      omega

/-- A fault takes at most a page, and a table on each level. -/
theorem fault_takes_page {flags : FaultFlags} (h : kernelPageFault pages frames s k addr flags = some s') :
    s'.tables.next ≤ s.tables.next + 3 ∧ s'.heap.next ≤ s.heap.next + 1 := by
  obtain ⟨mm, -, h⟩ := Option.bind_eq_some_iff.mp h
  obtain ⟨vma, -, h⟩ := Option.bind_eq_some_iff.mp h
  obtain ⟨⟨newPage, s₁⟩, hhandler, h⟩ := Option.bind_eq_some_iff.mp h
  obtain ⟨htables, -⟩ := faultHandler_frame hhandler
  have hheap : s₁.heap.next ≤ s.heap.next + 1 := by
    unfold faultHandler at hhandler
    split at hhandler
    · obtain ⟨page, -, hcase⟩ := ramfsVmaFault_cases hhandler
      rcases hcase with ⟨-, -, rfl⟩ | ⟨-, -, -, -, -, rfl⟩ | ⟨-, -, -, -, -, rfl⟩ | ⟨-, -, -, rfl⟩
      all_goals first | exact Nat.le_succ _ | exact le_rfl
    · rcases anonymousPageHandler_cases hhandler with ⟨-, -, rfl⟩ | ⟨-, -, page, -, hcase⟩
      · exact le_rfl
      · rcases hcase with ⟨-, -, -, rfl⟩ | ⟨-, -, -, rfl⟩ | ⟨-, -, -, rfl⟩
        all_goals first | exact Nat.le_succ _ | exact le_rfl
    · contradiction
  cases newPage with
  | none =>
      obtain rfl := Option.some.inj h
      rw [htables]
      exact ⟨Nat.le_add_right _ _, hheap⟩
  | some p =>
      dsimp only at h
      rw [System.mapPage_eq] at h
      obtain rfl := Option.some.inj h
      refine ⟨?_, hheap⟩
      rw [← htables]
      exact tableOn_takes s₁.tables mm.pgtable (vaPath (pageFrame addr))

end takes

/-! ### The memory that is read -/

/-- The memory of a process as one address space of bytes. -/
def Space.user (s₀ : System) (m : Space) : UserSpace :=
  ⟨m.areas, fun addr => (m.written addr).getD ((findVmaForAddress addr m.areas).elim 0 fun vma => s₀.initial vma addr)⟩

section reads
variable {pages : Nat → Nat} {frames : Frames} {limit frameLimit : Nat} {s₀ s s' : System} {m : Nat → Space}
  {k addr n : Nat} {vma : VmArea} {mm : ProcMm}

/-- The tables and the pages of `n` faults are there. -/
def System.Spare (limit frameLimit n : Nat) (s : System) : Prop :=
  s.tables.next + 3 * n ≤ limit ∧ s.heap.next + n ≤ frameLimit

instance (limit frameLimit n : Nat) (s : System) : Decidable (s.Spare limit frameLimit n) :=
  inferInstanceAs (Decidable (_ ∧ _))

theorem user_bytes {x : Space} (hfind : findVmaForAddress addr x.areas = some vma) :
    (x.user s₀).bytes addr = (x.written addr).getD (s₀.initial vma addr) := by
  dsimp only [Space.user]
  rw [hfind]
  rfl

theorem Shown.byteAt (hf : FrameSupply frames frameLimit) (h : Shown pages frames limit frameLimit s₀ s m)
    (hfind : findVmaForAddress addr (m k).areas = some vma) (hpresent : Present (s.leaf k addr)) :
    s.byteAt frames (pageFrame (s.leaf k addr)) addr = some (((m k).user s₀).bytes addr) := by
  obtain ⟨-, -, p, hmaps⟩ := h.entries k addr ((h.sound k).below hfind) hpresent
  have hpage : s.pageAt frames (pageFrame (s.leaf k addr)) = some p := by
    rw [hmaps.2.2.2]
    exact pageAt_self hf h.few hmaps.2.1
  rw [System.byteAt, hpage, Option.map_some, ← h.shows k addr p vma hmaps hfind, user_bytes hfind]

theorem Shown.kernelRead (hp : Supply pages limit) (hf : FrameSupply frames frameLimit)
    (h : Shown pages frames limit frameLimit s₀ s m) (hk : s.procs[k]? = some mm)
    (hfind : findVmaForAddress addr (m k).areas = some vma) (hspare : s.Spare limit frameLimit (n + 1)) :
    ∃ s', s.kernelRead pages frames k addr = some (((m k).user s₀).bytes addr, s') ∧
      Shown pages frames limit frameLimit s₀ s' m ∧ s'.procs = s.procs ∧ s'.Spare limit frameLimit n := by
  have huser := user_of_below ((h.sound k).below hfind)
  have hlink : ∀ u, Present (entryFormat.link u) := fun u => (permits_link false u).1
  have hwalk := h.grounded.walk_eq hk huser (fun _ => id) hlink
  obtain ⟨htables, hpages⟩ := hspare
  by_cases hpresent : Present (s.leaf k addr)
  · refine ⟨s, ?_, h, rfl, by omega, by omega⟩
    rw [System.kernelRead, hwalk, if_pos hpresent]
    dsimp only
    rw [h.byteAt hf hfind hpresent]
    rfl
  · obtain ⟨s₁, htrap, hprocs, hmapped⟩ := h.trap hp hf hk hfind hpresent false
    have hnone : (s.walk Present k addr).isSome = false := by
      rw [hwalk, if_neg hpresent]
      rfl
    rw [System.trap, hnone] at htrap
    obtain ⟨htaken, hnew⟩ := fault_takes_page htrap
    obtain ⟨hshown, hpermits⟩ := hmapped (by omega) (by omega)
    have hnow := (hpermits false).1
    have hwalk₁ := hshown.grounded.walk_eq (hprocs ▸ hk) huser (fun _ => id) hlink
    refine ⟨s₁, ?_, hshown, hprocs, by omega, by omega⟩
    have hfault : kernelPageFault pages frames s k addr ⟨false, false, false, false⟩ = some s₁ := htrap
    rw [System.kernelRead, hwalk, if_neg hpresent]
    dsimp only
    rw [hfault, Option.bind_some, hwalk₁, if_pos hnow, Option.bind_some, hshown.byteAt hf hfind hnow]
    rfl

theorem Shown.copyLoop (hp : Supply pages limit) (hf : FrameSupply frames frameLimit)
    (h : Shown pages frames limit frameLimit s₀ s m) (hk : s.procs[k]? = some mm) (usr left total : Nat)
    (hspare : s.Spare limit frameLimit (n + left)) :
    ∃ s', System.copyLoop pages frames k usr left total s =
        some (Sys.copyLoop (m k).areas ((m k).user s₀).bytes usr left total, s') ∧
      Shown pages frames limit frameLimit s₀ s' m ∧ s'.procs = s.procs ∧ s'.Spare limit frameLimit n := by
  induction left generalizing s total with
  | zero => exact ⟨s, rfl, h, rfl, hspare⟩
  | succ left ih =>
      rw [System.copyLoop, Sys.copyLoop, hk, Option.bind_some, h.areas k mm hk]
      cases hfind : findVmaForAddress (wrap64 (usr + total)) (m k).areas with
      | none =>
          obtain ⟨htables, hpages⟩ := hspare
          exact ⟨s, rfl, h, rfl, by omega, by omega⟩
      | some vma =>
          obtain ⟨s₁, hread, hshown, hprocs, hspare₁⟩ := h.kernelRead hp hf hk hfind hspare
          obtain ⟨s₂, hrest, hshown₂, hprocs₂, hspare₂⟩ := ih hshown (hprocs ▸ hk) (total + 1) hspare₁
          refine ⟨s₂, ?_, hshown₂, hprocs₂.trans hprocs, hspare₂⟩
          dsimp only
          rw [hread, Option.bind_some, hrest]
          rfl

variable {σ : Type} {write : σ → List UInt8 → Int × σ}

theorem Shown.writeLoop (hp : Supply pages limit) (hf : FrameSupply frames frameLimit) {src fuel i : Nat}
    {count total : Int} {d : σ} (h : Shown pages frames limit frameLimit s₀ s m) (hk : s.procs[k]? = some mm)
    (hspare : s.Spare limit frameLimit ((count - i).toNat + fuel)) :
    ∃ s', System.writeLoop pages frames k write src count fuel i total d s =
        some (Sys.writeLoop ((m k).user s₀) write src count fuel i total d, s') ∧
      Shown pages frames limit frameLimit s₀ s' m ∧ s'.procs = s.procs := by
  induction fuel generalizing s i total d with
  | zero => exact ⟨s, rfl, h, rfl⟩
  | succ fuel ih =>
      rw [System.writeLoop, Sys.writeLoop]
      by_cases hlt : (i : Int) < count
      · rw [if_pos hlt, if_pos hlt]
        dsimp only
        generalize hn : (if count - i > 256 then 256 else (count - i).toNat) = chunk
        have hreads : (count - i).toNat + (fuel + 1) =
            (count - (i + 256 : Nat)).toNat + fuel + (chunk + 1) := by
          rw [← hn]
          split_ifs <;> omega
        rw [hreads] at hspare
        obtain ⟨s₁, hcopy, hshown, hprocs, hspare₁⟩ := h.copyLoop hp hf hk (wrap64 (src + i))
          (chunk + 1) 0 hspare
        have hflat : Sys.copyLoop (m k).areas ((m k).user s₀).bytes (wrap64 (src + i)) (chunk + 1) 0 =
            Sys.copyFromUser ((m k).user s₀).areas ((m k).user s₀).bytes (wrap64 (src + i)) chunk := rfl
        rw [System.copyFromUser, hcopy, Option.bind_some, hflat]
        generalize Sys.copyFromUser ((m k).user s₀).areas ((m k).user s₀).bytes (wrap64 (src + i)) chunk = copied
        dsimp only
        by_cases hover : 256 < copied.2.length
        · rw [if_pos hover, if_pos hover]
          exact ⟨s₁, rfl, hshown, hprocs⟩
        · rw [if_neg hover, if_neg hover]
          by_cases hint : 2 ^ 31 ≤ i + 256
          · rw [if_pos hint, if_pos hint]
            exact ⟨s₁, rfl, hshown, hprocs⟩
          · rw [if_neg hint, if_neg hint]
            obtain ⟨s₂, hrest, hshown₂, hprocs₂⟩ := ih hshown (hprocs ▸ hk) hspare₁
            exact ⟨s₂, hrest, hshown₂, hprocs₂.trans hprocs⟩
      · rw [if_neg hlt, if_neg hlt]
        exact ⟨s, rfl, h, rfl⟩

theorem Shown.sysWrite (hp : Supply pages limit) (hf : FrameSupply frames frameLimit)
    (h : Shown pages frames limit frameLimit s₀ s m) (hk : k < s.procs.length) (ops : FileOps σ) (table : FdTable)
    (fd : Int) (src : Nat) (count : Int) (d : σ)
    (hspare : s.Spare limit frameLimit (count.toNat + (count.toNat + 255) / 256)) :
    ∃ s', System.sysWrite pages frames ops k table fd src count d s =
        some (Sys.sysWrite ops ((m k).user s₀) table fd src count d, s') ∧
      Shown pages frames limit frameLimit s₀ s' m := by
  unfold System.sysWrite Sys.sysWrite
  split_ifs
  · exact ⟨s, rfl, h⟩
  · cases arrayRead table.fd fd with
    | none => exact ⟨s, rfl, h⟩
    | some entry =>
        cases entry with
        | none => exact ⟨s, rfl, h⟩
        | some file =>
            dsimp only
            cases ops.write file with
            | none => exact ⟨s, rfl, h⟩
            | some write =>
                have hstart : s.Spare limit frameLimit
                    ((count - (0 : Nat)).toNat + (count.toNat + 255) / 256) := by simpa using hspare
                obtain ⟨s', hrun, hshown, -⟩ := h.writeLoop hp hf (List.getElem?_eq_getElem hk) hstart
                exact ⟨s', hrun, hshown⟩

end reads

end Lucix.Mm

namespace Lucix.Output
open Execution Mm Sys Consoles FileIo PageTable Ring

/-! ### Programs that print -/

/-- A process with its table of open files. -/
structure Prog where
  table : FdTable
  space : Space

inductive ProgCall where
  | mem (c : MemCall)
  | write (fd src count : Nat)

inductive ProgRet where
  | mem (r : MemRet)
  | wrote (bytes : List UInt8)
  | failed (errno : Int)
  deriving DecidableEq, Repr

/-- What the program sees of it. -/
def ProgRet.seen : ProgRet → MemRet ⊕ Int
  | .mem r => .inl r
  | .wrote bytes => .inr bytes.length
  | .failed errno => .inr (-errno)

def ProgRet.printed : ProgRet → List UInt8
  | .mem _ => []
  | .wrote bytes => bytes
  | .failed _ => []

section spec
variable (s₀ : System) (console : Nat → Bool)

/-- A write to a file hands on the bytes of the buffer, as the process sees them. -/
def Prog.step (x : Prog) : ProgCall → Option (ProgRet × Prog)
  | .mem c => (x.space.step s₀ c).map fun (r, m) => (.mem r, { x with space := m })
  | .write fd src count =>
      match x.table.slot fd with
      | none => some (.failed ebadf, x)
      | some _ => some (.wrote ((x.space.user s₀).buffer src count), x)

/-- A write to an open file is one to the console device, of a mapped buffer that fits in that of `sys_write`. -/
def Prog.Allowed (x : Prog) : ProgCall → Prop
  | .mem c => x.space.Allowed s₀ c
  | .write fd src count => ∀ file ∈ x.table.slot fd, console file = true ∧
      (∀ i < count, (x.space.user s₀).Mapped (wrap64 (src + i))) ∧
        (count < 256 ∨ count = 256 ∧ ¬ (x.space.user s₀).Mapped (wrap64 (src + 256)))

instance (x : Prog) : DecidablePred (x.Allowed s₀ console)
  | .mem c => inferInstanceAs (Decidable (x.space.Allowed s₀ c))
  | .write .. => inferInstanceAs (Decidable (∀ file ∈ _, _))

end spec

section machine
variable {κ σ : Type} [DecidableEq κ] (pages : Nat → Nat) (frames : Frames)
  (putcharOf : κ → Option (UInt8 → σ → σ)) (console : Nat → Bool) (tables : Nat → FdTable)

/-- The files whose operations are those of the console device. -/
def consoleOps (fuel : Nat) : FileOps (Option (State κ σ)) where
  write file := if console file then
    some fun con bytes => (bytes.length, (con.bind (consoleWrite putcharOf fuel bytes)).map Prod.snd) else none

/-- One call of the process with number `k`. -/
def step (fuel consoleFuel : Nat) (s : System × Option (State κ σ)) :
    Nat × ProgCall → Option ((MemRet ⊕ Int) × System × Option (State κ σ))
  | (k, .mem c) => (s.1.memStep pages frames fuel (k, c)).map fun (r, t) => (.inl r, t, s.2)
  | (k, .write fd src count) =>
      (s.1.sysWrite pages frames (consoleOps putcharOf console consoleFuel) k (tables k) fd src count s.2).bind
        fun (r, t) =>
          match r with
          | .ok (ret, con) => some (.inr ret, t, con)
          | .error _ => none

def HasRoom (limit frameLimit : Nat) (s : System × Option (State κ σ)) : Nat × ProgCall → Prop
  | (k, .mem c) => s.1.HasRoom pages frames limit frameLimit (k, c)
  | (k, .write _ _ count) => k < s.1.procs.length ∧ s.1.Spare limit frameLimit (count + (count + 255) / 256)

instance (limit frameLimit : Nat) (s : System × Option (State κ σ)) :
    DecidablePred (HasRoom pages frames limit frameLimit s)
  | (k, .mem c) => inferInstanceAs (Decidable (s.1.HasRoom pages frames limit frameLimit (k, c)))
  | (_, .write ..) => inferInstanceAs (Decidable (_ ∧ _))

end machine

section proofs
variable {κ σ : Type} [DecidableEq κ] {pages : Nat → Nat} {frames : Frames} {limit frameLimit : Nat}
  {putcharOf : κ → Option (UInt8 → σ → σ)} {data₀ : κ → σ} {console : Nat → Bool} {tables : Nat → FdTable}
  {s₀ s : System} {m : Nat → Space} {l : Log κ} {con : State κ σ} {fuel consoleFuel k : Nat}

theorem sysWrite_closed {τ : Type} {ops : FileOps τ} {user : UserSpace} {table : FdTable} {fd : Nat}
    (h : table.slot fd = none) (src : Nat) (count : Int) (d : τ) :
    Sys.sysWrite ops user table fd src count d = .ok (-ebadf, d) := by
  unfold Sys.sysWrite
  split_ifs with hbound
  · rfl
  · have hlt : fd < table.fd.length := by
      rw [FdTable.tableSize] at hbound
      omega
    have hread : arrayRead table.fd (fd : Int) = some none := by
      have hjoin : table.fd[fd]?.join = none := h
      rw [List.getElem?_eq_getElem hlt] at hjoin
      show table.fd[fd]? = some none
      rw [List.getElem?_eq_getElem hlt]
      exact congrArg some hjoin
    rw [hread]

theorem consoleOps_follows (h : Follows putcharOf data₀ l con) (hfuel : l.registered.length < consoleFuel)
    {bytes : List UInt8} (hshort : bytes.length < 2 ^ 31) : ∃ con',
      (some con).bind (consoleWrite putcharOf consoleFuel bytes) = some (bytes.length, con') ∧
        Follows putcharOf data₀ (l.say bytes) con' := by
  obtain ⟨con', hrun, hfollows⟩ := foldl_follows h hfuel bytes
  refine ⟨con', ?_, hfollows⟩
  rw [Option.bind_some, consoleWrite, if_pos hshort, hrun]
  rfl

theorem sysWrite_prints (h : Follows putcharOf data₀ l con) (hfuel : l.registered.length < consoleFuel)
    {user : UserSpace} {table : FdTable} {fd file src count : Nat} (hslot : table.slot fd = some file)
    (hfile : console file = true) (hmapped : ∀ i < count, user.Mapped (wrap64 (src + i)))
    (hfits : count < 256 ∨ count = 256 ∧ ¬ user.Mapped (wrap64 (src + 256))) :
    ∃ con', Sys.sysWrite (consoleOps putcharOf console consoleFuel) user table fd src count (some con) =
        .ok ((count : Int), some con') ∧ Follows putcharOf data₀ (l.say (user.buffer src count)) con' := by
  have hops : (consoleOps putcharOf console consoleFuel).write file = some _ := if_pos hfile
  rw [sysWrite_open (Option.join_eq_some_iff.mp hslot) hops]
  rcases Nat.eq_zero_or_pos count with rfl | hpos
  · refine ⟨con, rfl, ?_⟩
    have hempty : user.buffer src 0 = [] := rfl
    rw [hempty, Log.say_nil]
    exact h
  · have honce : (count + 255) / 256 = 1 := by omega
    have hshort : (user.buffer src count).length < 2 ^ 31 := by
      rw [length_buffer]
      omega
    obtain ⟨con', hwrite, hfollows⟩ := consoleOps_follows h hfuel hshort
    refine ⟨con', ?_, hfollows⟩
    rw [honce, writeLoop_single hpos hmapped hfits, hwrite, length_buffer]
    rfl

theorem Prog.write_follows (h : Follows putcharOf data₀ l con) (hfuel : l.registered.length < consoleFuel)
    {x : Prog} {fd src count : Nat} (hallowed : x.Allowed s₀ console (.write fd src count)) :
    ∃ r ret con', x.step s₀ (.write fd src count) = some (r, x) ∧ r.seen = .inr ret ∧
      Sys.sysWrite (consoleOps putcharOf console consoleFuel) (x.space.user s₀) x.table fd src count (some con) =
        .ok (ret, some con') ∧ Follows putcharOf data₀ (l.say r.printed) con' := by
  rw [Prog.step]
  cases hslot : x.table.slot fd with
  | none => exact ⟨.failed ebadf, _, con, rfl, rfl, sysWrite_closed hslot .., l.say_nil.symm ▸ h⟩
  | some file =>
      obtain ⟨hfile, hmapped, hfits⟩ := hallowed file hslot
      obtain ⟨con', hcall, hfollows⟩ := sysWrite_prints h hfuel hslot hfile hmapped hfits
      refine ⟨.wrote ((x.space.user s₀).buffer src count), _, con', rfl, ?_, hcall, hfollows⟩
      rw [ProgRet.seen, length_buffer]

/-- The machine shows every process its memory, and the consoles have heard what was printed. -/
structure Agrees (pages : Nat → Nat) (frames : Frames) (limit frameLimit : Nat) (s₀ : System)
    (putcharOf : κ → Option (UInt8 → σ → σ)) (tables : Nat → FdTable) (data₀ : κ → σ) (l : Log κ)
    (past : List (Nat × ProgRet)) (s : System × Option (State κ σ)) (x : Nat → Prog) : Prop where
  shown : Shown pages frames limit frameLimit s₀ s.1 fun k => (x k).space
  table : ∀ k, (x k).table = tables k
  heard : ∃ con, s.2 = some con ∧ Follows putcharOf data₀ (l.say (past.flatMap fun r => r.2.printed)) con

theorem Agrees.step (hp : Supply pages limit) (hf : FrameSupply frames frameLimit)
    (hfuel : l.registered.length < consoleFuel) {past : List (Nat × ProgRet)} {s : System × Option (State κ σ)}
    {x : Nat → Prog} (h : Agrees pages frames limit frameLimit s₀ putcharOf tables data₀ l past s x) {e : ProgCall}
    (hallowed : (x k).Allowed s₀ console e) (hroom : HasRoom pages frames limit frameLimit s (k, e)) :
    ∃ r y s', (x k).step s₀ e = some (r, y) ∧
      step pages frames putcharOf console tables (fuel + 1) consoleFuel s (k, e) = some (r.seen, s') ∧
      Agrees pages frames limit frameLimit s₀ putcharOf tables data₀ l (past ++ [(k, r)]) s'
        (Function.update x k y) := by
  obtain ⟨sys, _⟩ := s
  obtain ⟨hshown, htable, con, rfl, hheard⟩ := h
  have hsay : ∀ r : ProgRet, (past ++ [(k, r)]).flatMap (fun r => r.2.printed) =
      past.flatMap (fun r => r.2.printed) ++ r.printed := by
    simp
  have hspace : ∀ (y : Prog), (fun j => (Function.update x k y j).space) =
      Function.update (fun j => (x j).space) k y.space := fun y =>
    funext fun j => Function.apply_update (fun _ => Prog.space) x k y j
  cases e with
  | mem c =>
      obtain ⟨r, m, sys', hm, hsys, hshown'⟩ := hshown.memStep hp hf hallowed fuel hroom
      refine ⟨.mem r, { x k with space := m }, (sys', some con), ?_, ?_, ⟨?_, fun j => ?_, con, rfl, ?_⟩⟩
      · rw [Prog.step, hm]
        rfl
      · rw [Output.step, hsys]
        rfl
      · rw [hspace]
        exact hshown'
      · rw [Function.apply_update (fun _ => Prog.table) x k, ← htable j]
        exact congrFun (Function.update_eq_self k fun j => (x j).table) j
      · rw [hsay]
        exact (List.append_nil _).symm ▸ hheard
  | write fd src count =>
      obtain ⟨hk, hspare⟩ := hroom
      obtain ⟨r, ret, con', hr, hseen, hflat, hfollows⟩ := Prog.write_follows hheard hfuel hallowed
      obtain ⟨sys', hcall, hshown'⟩ := hshown.sysWrite hp hf hk (consoleOps putcharOf console consoleFuel)
        (x k).table fd src count (some con) hspare
      refine ⟨r, x k, (sys', some con'), hr, ?_, ⟨?_, fun j => ?_, con', rfl, ?_⟩⟩
      · rw [Output.step, ← htable k, hcall, hflat, hseen]
        rfl
      · rw [Function.update_eq_self]
        exact hshown'
      · rw [Function.update_eq_self]
        exact htable j
      · rw [hsay, ← Log.say_say]
        exact hfollows

end proofs

/-! ### Two programs and two consoles -/

def twoConsoles : State Bool (List UInt8) :=
  registerConsole true (registerConsole false ⟨emptyList, fun _ => []⟩)

/-- The first process prints what it has written to its memory, the second one its file. -/
def printCalls : List (Nat × ProgCall) :=
  [(0, .mem (.mmap (pageCall 0x400000 privateCall.addr_lt))),
    (1, .mem (.mmap privateCall)), (0, .mem (.access (.write 0x400000 104))),
    (0, .mem (.access (.write 0x400001 105))), (1, .write 1 0x400fff 1), (0, .write 1 0x400000 2), (1, .write 2 0 1)]

def printTable : FdTable := ⟨[none, some 7]⟩

def isDevice (file : Nat) : Bool := file == 7

end Lucix.Output
