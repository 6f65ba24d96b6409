import Lucix.FaultAccess

/-! User accesses to memory. The hardware walks the four tables and performs an access
that every entry permits; any other access traps into the kernel. -/
namespace Lucix.Mm
open PageTable FileIo RadixTable

/-! ### The walk of the hardware -/

/-- An entry that lets a user access through. -/
def Permits (write : Bool) (entry : Nat) : Prop :=
  Present entry ∧ UserBit entry ∧ (write = true → Writable entry)

instance (write : Bool) : DecidablePred (Permits write) := fun _ => inferInstanceAs (Decidable (_ ∧ _))

/-- The frame at the end of a walk whose entries all pass; pages of 2 MiB are not mapped in the
user half. -/
def walk (ok : Nat → Prop) [DecidablePred ok] (s : Tables) : Nat → List Nat → Option Nat
  | _, [] => none
  | table, [i] => if ok (s.mem table i) then some (pageFrame (s.mem table i)) else none
  | table, i :: path =>
      if ok (s.mem table i) then walk ok s (pa2va (pageFrame (s.mem table i))) path else none

def System.walk (s : System) (ok : Nat → Prop) [DecidablePred ok] (k vaddr : Nat) : Option Nat :=
  s.procs[k]?.bind fun mm => Mm.walk ok s.tables mm.pgtable (vaPath vaddr ++ [pteFromVa vaddr])

section walk
variable {S : Shape Pos Nat} {ok : Nat → Prop} [DecidablePred ok] {s : Tables} {pos : Nat → Option Pos}
  {p : Pos}

/-- Links pass every check, so the leaf entry decides. -/
theorem walk_eq (hpresent : ∀ entry, ok entry → Present entry) (hlink : ∀ u, ok (entryFormat.link u))
    (h : Labelled entryFormat S s.mem pos) {t : Nat} (ht : pos t = some p) {path : List Nat}
    (hinner : S.Inner p path) (j : Nat) :
    walk ok s t (path ++ [j]) = if ok (leaf entryFormat s.mem t path j)
      then some (pageFrame (leaf entryFormat s.mem t path j)) else none := by
  induction path generalizing t p with
  | nil => rfl
  | cons i path ih =>
      have hstep : walk ok s t (i :: path ++ [j]) = if ok (s.mem t i)
          then walk ok s (pa2va (pageFrame (s.mem t i))) (path ++ [j]) else none := by
        cases path <;> rfl
      rw [hstep]
      cases htarget : entryFormat.target (s.mem t i) with
      | none =>
          have habsent : ¬ ok (s.mem t i) := fun hok =>
            hpresent _ hok ((target_none_iff _).mp htarget)
          have hempty : ¬ ok (leaf entryFormat s.mem t (i :: path) j) := by
            rw [leaf_cons_none htarget]
            intro hok
            exact hpresent _ hok (Nat.zero_and _)
          rw [if_neg habsent, if_neg hempty]
      | some u =>
          obtain ⟨hentry, hpos⟩ := h.target ht hinner.1 htarget
          rw [if_pos (hentry ▸ hlink u), (target_some htarget).2, leaf_cons_some htarget]
          exact ih hpos hinner.2

theorem permits_link (write : Bool) (u : Nat) : Permits write (entryFormat.link u) := by
  have hbit : ∀ bit, pageFrame bit = 0 → linkFlags &&& bit ≠ 0 → entryFormat.link u &&& bit ≠ 0 := by
    intro bit hframe hflag
    show (pageFrame (va2pa u) ||| linkFlags) &&& bit ≠ 0
    rw [frame_or_and _ _ hframe]
    exact hflag
  exact ⟨hbit _ (by decide) (by decide), hbit _ (by decide) (by decide),
    fun _ => hbit _ (by decide) (by decide)⟩

end walk

section system
variable {pages : Nat → Nat} {limit : Nat} {s : System} {k vaddr : Nat} {mm : ProcMm}

theorem System.Grounded.walk_eq (h : s.Grounded pages limit) (hk : s.procs[k]? = some mm)
    (huser : pml4FromVa vaddr < 256) {ok : Nat → Prop} [DecidablePred ok]
    (hpresent : ∀ entry, ok entry → Present entry) (hlink : ∀ u, ok (entryFormat.link u)) :
    s.walk ok k vaddr = if ok (s.leaf k vaddr) then some (pageFrame (s.leaf k vaddr)) else none := by
  obtain ⟨pos, htables⟩ := h.tables
  have hroot := htables.roots mm.pgtable (List.mem_map_of_mem (List.mem_of_getElem? hk))
  rw [System.walk, hk, Option.bind_some, System.leaf_eq hk]
  exact Mm.walk_eq hpresent hlink htables.owned.labelled hroot (userShape_full _ huser).1 _

theorem System.Grounded.walk_permits (h : s.Grounded pages limit) (hk : s.procs[k]? = some mm)
    (huser : pml4FromVa vaddr < 256) (write : Bool) :
    s.walk (Permits write) k vaddr =
      if Permits write (s.leaf k vaddr) then some (pageFrame (s.leaf k vaddr)) else none :=
  h.walk_eq hk huser (fun _ hpermits => hpermits.1) (permits_link write)

theorem System.Grounded.walk_present (h : s.Grounded pages limit) (hk : s.procs[k]? = some mm)
    (huser : pml4FromVa vaddr < 256) :
    (s.walk Present k vaddr).isSome = true ↔ Present (s.leaf k vaddr) := by
  rw [h.walk_eq hk huser (fun _ => id) fun u => (permits_link false u).1]
  split_ifs with hpresent <;> simp [hpresent]

end system

/-! ### Accesses -/

inductive Access where
  | read (addr : Nat)
  | write (addr : Nat) (byte : UInt8)
  deriving DecidableEq, Repr

def Access.addr : Access → Nat
  | .read addr => addr
  | .write addr _ => addr

def Access.isWrite : Access → Bool
  | .read _ => false
  | .write .. => true

/-- A system, and the writes that the process has performed so far, the last one first. -/
structure UserRun where
  sys : System
  written : List (Nat × UInt8)

/-- The store of one byte into a page. -/
def System.storeByte (s : System) (p off : Nat) (byte : UInt8) : System :=
  { s with heap := s.heap.setPage p { s.heap.pages p with
      bytes := Function.update (s.heap.pages p).bytes off byte } }

section access
variable (pages : Nat → Nat) (frames : Frames)

/-- The page that was last handed out at a physical address. -/
def System.pageAt (s : System) (frame : Nat) : Option Nat :=
  (List.range s.heap.next).reverse.find? fun p => decide (frames p = frame)

/-- The byte that a user read returns, if the hardware performs it. -/
def System.load (s : System) (k addr : Nat) : Option UInt8 :=
  (s.walk (Permits false) k addr).bind fun frame =>
    (s.pageAt frames frame).map fun p => (s.heap.pages p).bytes (addr % pageSize)

/-- The fault that a user access raises, with the flags that `__int_page_fault` takes from the
error code. -/
def System.trap (s : System) (k addr : Nat) (write : Bool) : Option System :=
  kernelPageFault pages frames s k addr ⟨(s.walk Present k addr).isSome, write, true, false⟩

/-- One access: it is performed if the hardware permits it, else it traps. -/
def UserRun.step (k : Nat) (u : UserRun) (a : Access) : Option UserRun :=
  match u.sys.walk (Permits a.isWrite) k a.addr with
  | none => (u.sys.trap pages frames k a.addr a.isWrite).map fun s => { u with sys := s }
  | some frame =>
      match a with
      | .read _ => some u
      | .write addr byte => (u.sys.pageAt frames frame).map fun p =>
          ⟨u.sys.storeByte p (addr % pageSize) byte, (addr, byte) :: u.written⟩

variable {frames}

theorem pageAt_frame {s : System} {frame page : Nat} (h : s.pageAt frames frame = some page) :
    frames page = frame ∧ page < s.heap.next := by
  have hfound := List.find?_some h
  have hmem := List.mem_of_find?_eq_some h
  exact ⟨by simpa using hfound, by simpa using hmem⟩

end access

end Lucix.Mm
