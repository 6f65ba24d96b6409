import Lucix.Vma
import Lucix.Slab
import Lucix.Ramfs

/-!
# System calls, `arch/x86_64/interrupt.c`, `fs/sys_*.c` and `fs/fd_table.c`

The dispatcher of interrupt `0x80`, the three system calls of the table, and the
descriptor table of a task. What `vfs_open` returns, whether `mem_cache_alloc_obj`
has an object left, the old contents of the array `pathk` and what the `write`
operation of a file does are inputs. A fault names the access that leaves the object
the source means.
-/
namespace Lucix.Sys
open Mm

/-- The macro `EBADF`. -/
def ebadf : Int := 9

/-- The macro `SYSCALLS_NR`. -/
def syscallsNr : Nat := 4

/-- An access outside an array, a call through a null pointer, or a signed overflow. -/
inductive Fault where
  | syscallTable (index : Int)
  | nullEntry (index : Int)
  | fdTable (index : Int)
  | newTable
  | userMemory (addr : Nat)
  | buffer
  | overflow
  deriving DecidableEq, Repr

/-- The read of an array at a signed index. -/
def arrayRead {α : Type} (entries : List α) : Int → Option α
  | .ofNat i => entries[i]?
  | .negSucc _ => none

/-! ### Strings of the user -/

/-- The address space of the current task. -/
structure UserSpace where
  areas : List VmArea
  bytes : Nat → UInt8

/-- The address is in some area. -/
def UserSpace.Mapped (user : UserSpace) (addr : Nat) : Prop :=
  (findVmaForAddress addr user.areas).isSome = true

instance (user : UserSpace) : DecidablePred user.Mapped := fun _ => inferInstanceAs (Decidable (_ = true))

/-- What a copy did: the value it returned, or `none` where `total` leaves its type, the addresses
it looked up and those it read, and the bytes it stored from `dst` on. -/
structure CopyRun where
  ret : Option Int
  looked : List Nat
  read : List Nat
  stored : List UInt8
  deriving DecidableEq, Repr

/-- A run that takes no further step. -/
def CopyRun.done (ret : Option Int) : CopyRun := ⟨ret, [], [], []⟩

/-- The loop with `left` iterations to go. -/
def copyRun (user : UserSpace) (lookup : Nat → Nat) (stops : UInt8 → Bool) (usr : Nat) :
    Nat → Nat → CopyRun
  | 0, total => .done (some total)
  | left + 1, total =>
      match findVmaForAddress (lookup total) user.areas with
      | none => { CopyRun.done (some (-1)) with looked := [lookup total] }
      | some _ =>
          let byte := user.bytes (wrap64 (usr + total))
          let rest :=
            if total + 1 = 2 ^ 63 then .done none
            else if stops byte then .done (some (total + 1))
            else copyRun user lookup stops usr left (total + 1)
          { ret := rest.ret
            looked := lookup total :: rest.looked
            read := wrap64 (usr + total) :: rest.read
            stored := byte :: rest.stored }

/-- The argument `usr + total` of the lookup in `strncpy_from_user`, where the pointer `usr` has
moved by `total` already. -/
def strncpyLookup (usr total : Nat) : Nat := wrap64 (wrap64 (usr + total) + total)

/-- The function `strncpy_from_user`. -/
def strncpyFromUser (user : UserSpace) (usr n : Nat) : CopyRun :=
  copyRun user (strncpyLookup usr) (fun byte => decide (byte = 0)) usr (n + 1) 0

/-- The copy of the path into `pathk`, with 256 bytes of its own. `vfs_open` then reads the array up
to the first null character. -/
def copyPath (user : UserSpace) (path : Nat) (pathk : Nat → UInt8) : Except Fault Unit :=
  let run := strncpyFromUser user path 256
  match run.read.find? fun addr => !decide (user.Mapped addr) with
  | some addr => .error (.userMemory addr)
  | none =>
      if 256 < run.stored.length then .error .buffer
      else if run.stored.contains 0 || (List.range' run.stored.length (256 - run.stored.length)).any
          fun i => decide (pathk i = 0) then .ok ()
      else .error .buffer

/-! ### Descriptors -/

/-- The struct `fd_table`: its slots, as many as `table_size`. A file is named by its address. -/
structure FdTable where
  fd : List (Option Nat)
  deriving DecidableEq, Repr

def FdTable.tableSize (table : FdTable) : Nat := table.fd.length

/-- What is in a slot: null too where the table ends. -/
def FdTable.slot (table : FdTable) (n : Nat) : Option Nat := table.fd[n]?.join

/-- The table that `create_task` makes. -/
def createFdTable : FdTable := ⟨List.replicate 32 none⟩

/-- The bytes of the object that `kmalloc` returns: the size of the first class that is large
enough. -/
def kmallocBytes (size : Nat) : Option Nat :=
  (ObjCache.mallocSizes.find? fun entry => decide (size ≤ entry.1)).map Prod.fst

theorem kmallocBytes_isSome_iff (size : Nat) : (kmallocBytes size).isSome = true ↔ size ≤ 32768 := by
  rw [kmallocBytes, Option.isSome_map, List.find?_isSome]
  simp only [decide_eq_true_eq]
  constructor
  · rintro ⟨e, he, hle⟩
    have hlast : ∀ e ∈ ObjCache.mallocSizes, e.1 ≤ 32768 := by decide
    exact hle.trans (hlast e he)
  · intro hle
    obtain ⟨e, he, hlast⟩ : ∃ e ∈ ObjCache.mallocSizes, e.1 = 32768 := by decide
    exact ⟨e, he, hlast ▸ hle⟩

/-- The part of `task_fd_table_get_free_fd_slot` behind its loop. -/
def growFdTable (table : FdTable) (memory : Bool) : Except Fault (Nat × FdTable) :=
  match if memory then kmallocBytes (8 * table.tableSize + 32) else none with
  -- `memset` runs through a null pointer
  | none => .error .newTable
  | some bytes =>
      if 8 * (table.tableSize + 32) ≤ bytes then
        .ok (table.tableSize, ⟨table.fd ++ List.replicate 32 none⟩)
      else .error .newTable

def taskFdTableGetFreeFdSlot (table : FdTable) (memory : Bool) : Except Fault (Nat × FdTable) :=
  match table.fd.findIdx? Option.isNone with
  | some i => .ok (i, table)
  | none => growFdTable table memory

/-- What a call of `sys_open` finds: the old contents of `pathk`, what `vfs_open` returns, and
whether there is an object for a larger table. -/
structure Opening where
  pathk : Nat → UInt8
  opened : Option Nat
  memory : Bool

def sysOpen (user : UserSpace) (table : FdTable) (path : Nat) (opening : Opening) :
    Except Fault (Int × FdTable) := do
  copyPath user path opening.pathk
  match opening.opened with
  | none => .ok (-1, table)
  | some fp => do
      let (fd, table) ← taskFdTableGetFreeFdSlot table opening.memory
      -- the value returned is `ret`, which is never assigned
      .ok (0, ⟨table.fd.set fd (some fp)⟩)

/-! ### Reading and writing -/

def sysRead : Int := 0

/-- The loop of `copy_from_user` with `left` bytes to go: what it returns and what it has stored
at `dst`. -/
def copyLoop (areas : List VmArea) (bytes : Nat → UInt8) (usr : Nat) : Nat → Nat → Int × List UInt8
  | 0, total => (total, [])
  | left + 1, total =>
      match findVmaForAddress (wrap64 (usr + total)) areas with
      | none => (-1, [])
      | some _ =>
          let (ret, stored) := copyLoop areas bytes usr left (total + 1)
          (ret, bytes (wrap64 (usr + total)) :: stored)

/-- The function `copy_from_user`: its loop runs while `total <= count`. -/
def copyFromUser (areas : List VmArea) (bytes : Nat → UInt8) (usr count : Nat) : Int × List UInt8 :=
  copyLoop areas bytes usr (count + 1) 0

/-- The operation `write` of a file, if it has one: what it returns and leaves for the bytes it is
given. -/
structure FileOps (σ : Type) where
  write : Nat → Option (σ → List UInt8 → Int × σ)

/-- The loop of `sys_write` with at most `fuel` iterations to go. -/
def writeLoop {σ : Type} (user : UserSpace) (write : σ → List UInt8 → Int × σ) (src : Nat) (count : Int) :
    Nat → Nat → Int → σ → Except Fault (Int × σ)
  | 0, _, total, s => .ok (total, s)
  | fuel + 1, i, total, s =>
      if (i : Int) < count then
        let bytesToCopy := if count - i > 256 then 256 else (count - i).toNat
        let (_, stored) := copyFromUser user.areas user.bytes (wrap64 (src + i)) bytesToCopy
        if 256 < stored.length then .error .buffer
        else
          let buff := stored ++ List.replicate (256 - stored.length) 0
          let (ret, s) := write s (buff.take bytesToCopy)
          if 2 ^ 31 ≤ i + 256 then .error .overflow
          else writeLoop user write src count fuel (i + 256) (total + ret) s
      else .ok (total, s)

/-- The function `sys_write`. -/
def sysWrite {σ : Type} (ops : FileOps σ) (user : UserSpace) (table : FdTable) (fd : Int) (src : Nat)
    (count : Int) (s : σ) : Except Fault (Int × σ) :=
  if fd ≥ table.tableSize then .ok (-ebadf, s)
  else match arrayRead table.fd fd with
    | none => .error (.fdTable fd)
    | some none => .ok (-ebadf, s)
    | some (some file) =>
        match ops.write file with
        | none => .ok (-Ramfs.einval, s)
        | some write => writeLoop user write src count ((count.toNat + 255) / 256) 0 0 s

/-! ### The dispatcher -/

inductive Syscall where
  | read
  | write
  | open
  deriving DecidableEq, Repr

/-- The array `syscall_table`; its last slot is not filled. -/
def syscallTable : List (Option Syscall) := [some .read, some .write, some .open, none]

/-- The registers of an interrupt frame that a system call uses. -/
structure Frame where
  rax : BitVec 64
  rdi : BitVec 64
  rsi : BitVec 64
  rdx : BitVec 64
  deriving DecidableEq, Repr

/-- The entry of `syscall_table` that is called, if any. -/
def dispatch (rax : BitVec 64) : Except Fault (Option Syscall) :=
  if rax.toInt ≥ syscallsNr then .ok none
  else match arrayRead syscallTable rax.toInt with
    | none => .error (.syscallTable rax.toInt)
    | some none => .error (.nullEntry rax.toInt)
    | some (some entry) => .ok (some entry)

/-- The branch of `__irq_handler_stub` for interrupt `0x80`. -/
def irqHandlerStub {σ : Type} (ops : FileOps σ) (user : UserSpace) (opening : Opening)
    (table : FdTable) (s : σ) (frame : Frame) : Except Fault (Frame × FdTable × σ) := do
  match ← dispatch frame.rax with
  | none => .ok (frame, table, s)
  | some .read => .ok ({ frame with rax := BitVec.ofInt 64 sysRead }, table, s)
  | some .write =>
      let (ret, s) ← sysWrite ops user table frame.rdi.toInt frame.rsi.toNat frame.rdx.toInt s
      .ok ({ frame with rax := BitVec.ofInt 64 ret }, table, s)
  | some .open =>
      let (ret, table) ← sysOpen user table frame.rdi.toNat opening
      .ok ({ frame with rax := BitVec.ofInt 64 ret }, table, s)

/-! ### Indices -/

section indices
variable {σ : Type} {ops : FileOps σ} {user : UserSpace} {table : FdTable} {s : σ}

/-- The dispatcher returns without a call, or it calls an entry of the table that is filled. -/
def DispatchInside (rax : BitVec 64) : Prop :=
  dispatch rax = .ok none ∨ ∃ i entry, i < syscallsNr ∧ rax.toInt = (i : Nat) ∧
    syscallTable[i]? = some (some entry) ∧ dispatch rax = .ok (some entry)

theorem dispatch_cases (rax : BitVec 64) :
    (rax.toInt < 0 ∧ dispatch rax = .error (.syscallTable rax.toInt)) ∨
    (rax.toInt = 3 ∧ dispatch rax = .error (.nullEntry rax.toInt)) ∨
    (syscallsNr ≤ rax.toInt ∧ dispatch rax = .ok none) ∨
    ∃ i entry, i < 3 ∧ rax.toInt = (i : Nat) ∧ syscallTable[i]? = some (some entry) ∧
      dispatch rax = .ok (some entry) := by
  unfold dispatch
  generalize rax.toInt = n
  cases n with
  | negSucc k =>
      have hlt : ¬ Int.negSucc k ≥ syscallsNr := fun h =>
        absurd (Int.le_trans (Int.natCast_nonneg _) h) (Int.not_le.mpr (Int.negSucc_lt_zero k))
      rw [if_neg hlt]
      exact .inl ⟨Int.negSucc_lt_zero k, rfl⟩
  | ofNat k =>
      match k with
      | 0 => exact .inr (.inr (.inr ⟨0, .read, by decide, rfl, rfl, rfl⟩))
      | 1 => exact .inr (.inr (.inr ⟨1, .write, by decide, rfl, rfl, rfl⟩))
      | 2 => exact .inr (.inr (.inr ⟨2, .open, by decide, rfl, rfl, rfl⟩))
      | 3 => exact .inr (.inl ⟨rfl, rfl⟩)
      | k + 4 =>
          have hge : Int.ofNat (k + 4) ≥ syscallsNr := Int.ofNat_le.mpr (Nat.le_add_left 4 k)
          exact .inr (.inr (.inl ⟨hge, if_pos hge⟩))

theorem dispatchInside_iff (rax : BitVec 64) : DispatchInside rax ↔ 0 ≤ rax.toInt ∧ rax.toInt ≠ 3 := by
  unfold DispatchInside
  rcases dispatch_cases rax with ⟨hn, hd⟩ | ⟨hn, hd⟩ | ⟨hn, hd⟩ | ⟨i, entry, hi, hn, hentry, hd⟩
  · simp only [hd, reduceCtorEq, and_false, exists_false, or_self, false_iff]
    omega
  · simp only [hd, reduceCtorEq, and_false, exists_false, or_self, false_iff]
    omega
  · have hnr : (4 : Int) ≤ rax.toInt := hn
    refine ⟨fun _ => ⟨by omega, by omega⟩, fun _ => .inl hd⟩
  · refine ⟨fun _ => ⟨by omega, by omega⟩, fun _ => .inr ⟨i, entry, ?_, hn, hentry, hd⟩⟩
    exact Nat.lt_succ_of_lt hi

theorem dispatch_write {rax : BitVec 64} (h : rax.toInt = 1) : dispatch rax = .ok (some .write) := by
  unfold dispatch
  rw [h]
  rfl

theorem toInt_of_dispatch_write {rax : BitVec 64} (h : dispatch rax = .ok (some .write)) :
    rax.toInt = 1 := by
  rcases dispatch_cases rax with ⟨-, hd⟩ | ⟨-, hd⟩ | ⟨-, hd⟩ | ⟨i, entry, hi, hn, hentry, hd⟩
  · cases h.symm.trans hd
  · cases h.symm.trans hd
  · cases h.symm.trans hd
  · obtain rfl : Syscall.write = entry := Option.some.inj (Except.ok.inj (h.symm.trans hd))
    match i with
    | 0 => cases hentry
    | 1 => exact hn
    | 2 => cases hentry

theorem writeLoop_no_fdTable {write : σ → List UInt8 → Int × σ} {src : Nat} {count index : Int}
    {fuel i : Nat} {total : Int} :
    writeLoop user write src count fuel i total s ≠ .error (.fdTable index) := by
  induction fuel generalizing i total s with
  | zero => exact nofun
  | succ fuel ih =>
      rw [writeLoop]
      split
      · dsimp only
        generalize copyFromUser user.areas user.bytes _ _ = copied
        split
        · exact nofun
        · split
          · exact nofun
          · exact ih
      · exact nofun

theorem sysWrite_cases (ops : FileOps σ) (user : UserSpace) (table : FdTable) (fd : Int) (src : Nat)
    (count : Int) (s : σ) :
    (fd < 0 ∧ sysWrite ops user table fd src count s = .error (.fdTable fd)) ∨
    (table.tableSize ≤ fd ∧ sysWrite ops user table fd src count s = .ok (-ebadf, s)) ∨
    (0 ≤ fd ∧ fd < table.tableSize ∧
      ∀ index, sysWrite ops user table fd src count s ≠ .error (.fdTable index)) := by
  unfold sysWrite
  by_cases hge : fd ≥ table.tableSize
  · rw [if_pos hge]
    exact .inr (.inl ⟨hge, rfl⟩)
  · rw [if_neg hge]
    cases fd with
    | negSucc k => exact .inl ⟨Int.negSucc_lt_zero k, rfl⟩
    | ofNat k =>
        have hk : k < table.fd.length := Int.ofNat_lt.mp (Int.not_le.mp hge)
        refine .inr (.inr ⟨Int.natCast_nonneg k, Int.not_le.mp hge, ?_⟩)
        intro index
        simp only [arrayRead, List.getElem?_eq_getElem hk]
        cases table.fd[k] with
        | none => exact nofun
        | some file =>
            dsimp only
            cases ops.write file with
            | none => exact nofun
            | some write => exact writeLoop_no_fdTable

/-- `sys_write` reads the table inside or returns `-EBADF`. -/
def WriteInside (table : FdTable) (s : σ) (frame : Frame)
    (handled : Except Fault (Frame × FdTable × σ)) : Prop :=
  (0 ≤ frame.rdi.toInt ∧ frame.rdi.toInt < table.tableSize ∧ ∀ index, handled ≠ .error (.fdTable index)) ∨
  handled = .ok ({ frame with rax := BitVec.ofInt 64 (-ebadf) }, table, s)

theorem irqHandlerStub_write {opening : Opening} {frame : Frame}
    (h : dispatch frame.rax = .ok (some .write)) :
    irqHandlerStub ops user opening table s frame =
      (sysWrite ops user table frame.rdi.toInt frame.rsi.toNat frame.rdx.toInt s).map
        fun r => ({ frame with rax := BitVec.ofInt 64 r.1 }, table, r.2) := by
  unfold irqHandlerStub
  rw [h]
  cases sysWrite ops user table frame.rdi.toInt frame.rsi.toNat frame.rdx.toInt s <;> rfl

theorem writeInside_iff {opening : Opening} {frame : Frame}
    (h : dispatch frame.rax = .ok (some .write)) :
    WriteInside table s frame (irqHandlerStub ops user opening table s frame) ↔
      0 ≤ frame.rdi.toInt := by
  unfold WriteInside
  rw [irqHandlerStub_write h]
  rcases sysWrite_cases ops user table frame.rdi.toInt frame.rsi.toNat frame.rdx.toInt s with
    ⟨hneg, hw⟩ | ⟨hge, hw⟩ | ⟨hpos, hlt, hw⟩
  · rw [hw]
    constructor
    · rintro (⟨hpos, -, -⟩ | hok)
      · exact hpos
      · cases hok
    · intro hpos
      omega
  · rw [hw]
    exact ⟨fun _ => Int.le_trans (Int.natCast_nonneg _) hge, fun _ => .inr rfl⟩
  · refine ⟨fun _ => hpos, fun _ => .inl ⟨hpos, hlt, ?_⟩⟩
    intro index herror
    cases hresult : sysWrite ops user table frame.rdi.toInt frame.rsi.toNat frame.rdx.toInt s with
    | ok r =>
        rw [hresult] at herror
        cases herror
    | error fault =>
        rw [hresult] at herror
        exact hw index (hresult.trans (congrArg _ (Except.error.inj herror)))

/-- The boundary holds for an interrupt exactly when the number is not negative and not that of
the unfilled slot, and `sys_write` is not given a negative descriptor. -/
theorem syscall_inside_iff (ops : FileOps σ) (user : UserSpace) (opening : Opening)
    (table : FdTable) (s : σ) (frame : Frame) :
    (DispatchInside frame.rax ∧ (dispatch frame.rax = .ok (some .write) →
      WriteInside table s frame (irqHandlerStub ops user opening table s frame))) ↔
    0 ≤ frame.rax.toInt ∧ frame.rax.toInt ≠ 3 ∧ (frame.rax.toInt = 1 → 0 ≤ frame.rdi.toInt) := by
  rw [dispatchInside_iff, and_assoc]
  refine and_congr_right fun _ => and_congr_right fun _ => ?_
  constructor
  · intro h hone
    exact (writeInside_iff (dispatch_write hone)).mp (h (dispatch_write hone))
  · intro h hwrite
    exact (writeInside_iff hwrite).mpr (h (toInt_of_dispatch_write hwrite))

/-- A negative number, the number of the unfilled slot, and a negative descriptor. -/
theorem syscall_outside :
    ¬ DispatchInside (BitVec.ofInt 64 (-1)) ∧ ¬ DispatchInside 3 ∧
    ¬ WriteInside createFdTable () ⟨1, BitVec.ofInt 64 (-1), 0, 0⟩
      (irqHandlerStub ⟨fun _ => none⟩ ⟨[], fun _ => 0⟩ ⟨fun _ => 0, none, true⟩ createFdTable ()
        ⟨1, BitVec.ofInt 64 (-1), 0, 0⟩) := by
  refine ⟨?_, ?_, ?_⟩
  · rw [dispatchInside_iff]
    decide
  · rw [dispatchInside_iff]
    decide
  · rw [writeInside_iff rfl]
    decide

end indices

end Lucix.Sys
