import Lucix.Vfs
import Lucix.Execution
import Lucix.RamfsTree
import Lucix.Word

/-!
# The root mount, `vfs_root` in `fs/vfs.c` and `fs/file_system.c`

The registry of file systems is a list, and the operations of a file system are
functions on the rest of the kernel's state, whose type is arbitrary. The object that
`kmalloc` returns for the mount holds what it held before; a store through a null
pointer and a read of a null superblock fault. The argument `flags` is never read.
-/
namespace Lucix.MountRoot
open Execution
open Ramfs (CString einval cstring)

/-! ### The registry -/

def strcmp : CString → CString → Int
  | [], [] => 0
  | [], _ :: _ => -1
  | _ :: _, [] => 1
  | a :: s1, b :: s2 =>
      if charValue a > charValue b then 1
      else if charValue a < charValue b then -1
      else strcmp s1 s2

theorem strcmp_eq_zero_iff (s1 s2 : CString) : strcmp s1 s2 = 0 ↔ s1 = s2 := by
  induction s1 generalizing s2 with
  | nil => cases s2 <;> simp [strcmp]
  | cons a s1 ih =>
      cases s2 with
      | nil => simp [strcmp]
      | cons b s2 =>
          unfold strcmp
          split_ifs with hgt hlt
          · simp only [one_ne_zero, List.cons.injEq, false_iff, not_and]
            intro heq
            rw [heq] at hgt
            omega
          · simp only [List.cons.injEq, false_iff, not_and]
            intro heq
            rw [heq] at hlt
            omega
          · have heq : a = b := Subtype.ext (charValue_injective (by omega))
            rw [ih, heq]
            simp

/-- The struct `file_system` with the operation `get_root_inode` that its superblocks have. A
null pointer is `none`. -/
structure FileSystem (σ : Type) where
  name : CString
  allocSb : σ → Option Nat × σ
  readSb : σ → Nat → Nat → σ
  getRootInode : σ → Nat → Option Nat × σ

section registry
variable {σ : Type}

def fileSystemRegister (systems : List (FileSystem σ)) (fs : FileSystem σ) : List (FileSystem σ) :=
  systems ++ [fs]

def fileSystemUnregister (systems : List (FileSystem σ)) (name : CString) : List (FileSystem σ) :=
  systems.eraseP fun fs => decide (strcmp fs.name name = 0)

def fileSystemLookup (systems : List (FileSystem σ)) (name : CString) : Option (FileSystem σ) :=
  systems.find? fun fs => decide (strcmp fs.name name = 0)

end registry

/-! ### The mount -/

/-- The struct `vfs_mount`. -/
structure VfsMount where
  next : Nat
  prev : Nat
  superBlock : Nat
  mntIno : Nat
  rootIno : Nat
  deriving DecidableEq, Repr

/-- The registry, the global `mnt_root`, what lies in memory where mounts may be, the reference
counts of inodes, and the rest of the kernel. -/
structure MountState (σ : Type) where
  fileSystems : List (FileSystem σ)
  mntRoot : Option Nat
  mount : Nat → VfsMount
  refs : Nat → Nat
  world : σ

section mount
variable {σ : Type}

def inoRef (s : MountState σ) (ino : Nat) : MountState σ :=
  { s with refs := Function.update s.refs ino ((s.refs ino + 1) % 2 ^ 32) }

/-- The function `vfs_root`; `object` is what `kmalloc` returns. -/
def vfsRoot (s : MountState σ) (fsType : CString) (device : Nat) (object : Option Nat) :
    Option (Int × MountState σ) :=
  match s.mntRoot with
  | some _ => some (-einval, s)
  | none =>
      let s := { s with mntRoot := object }
      match fileSystemLookup s.fileSystems fsType with
      | none => some (-einval, s)
      | some fs =>
          match fs.allocSb s.world with
          -- `sb->ops` is read through the null pointer
          | (none, _) => none
          | (some sb, world) =>
              match fs.getRootInode (fs.readSb world sb device) sb with
              | (none, world) => some (-einval, { s with world := world })
              | (some rootIno, world) =>
                  s.mntRoot.map fun mnt =>
                    (0, inoRef { s with
                      world := world
                      mount := Function.update s.mount mnt ⟨mnt, mnt, sb, rootIno, rootIno⟩ } rootIno)

/-! ### Calls that leave no root behind -/

/-- The superblock that a call mounts and its root, if the superblock is allocated. -/
def superRoot (fs : FileSystem σ) (world : σ) (device : Nat) : Option (Nat × Option Nat) :=
  match fs.allocSb world with
  | (none, _) => none
  | (some sb, world) => some (sb, (fs.getRootInode (fs.readSb world sb device) sb).1)

/-- Every field of the mount is set, for a superblock and its root. -/
def Initialised (s : MountState σ) (mnt sb ino : Nat) : Prop := s.mount mnt = ⟨mnt, mnt, sb, ino, ino⟩

/-- A call mounts the root of the file system it names, or it fails and there is no root; where
there is a root already it fails and changes nothing. -/
def RootMeets (s : MountState σ) (fsType : CString) (device : Nat) (object : Option Nat) : Prop :=
  (s.mntRoot ≠ none → vfsRoot s fsType device object = some (-einval, s)) ∧
  (s.mntRoot = none → ∃ ret t, vfsRoot s fsType device object = some (ret, t) ∧
    ((ret = 0 ∧ ∃ mnt fs sb ino, t.mntRoot = some mnt ∧ fileSystemLookup s.fileSystems fsType = some fs ∧
        superRoot fs s.world device = some (sb, some ino) ∧ Initialised t mnt sb ino ∧
        t.refs ino = (s.refs ino + 1) % 2 ^ 32) ∨
      (ret < 0 ∧ t.mntRoot = none)))

/-- The allocation fails exactly when the call fails for another reason, and the superblock is
allocated. -/
def RootFits (s : MountState σ) (fsType : CString) (device : Nat) (object : Option Nat) : Prop :=
  s.mntRoot = none →
    match fileSystemLookup s.fileSystems fsType with
    | none => object = none
    | some fs =>
        match superRoot fs s.world device with
        | none => False
        | some (_, none) => object = none
        | some (_, some _) => object ≠ none

/-- A mount that lookups start from is one that `vfs_root` has set up. -/
def RootSound (s : MountState σ) : Prop := ∀ mnt, s.mntRoot = some mnt → ∃ sb ino, Initialised s mnt sb ino

/-! ### What a call does -/

section call
variable {s : MountState σ} {fsType : CString} {device : Nat} {object : Option Nat} {fs : FileSystem σ}

theorem vfsRoot_unregistered (hnull : s.mntRoot = none)
    (hfs : fileSystemLookup s.fileSystems fsType = none) :
    vfsRoot s fsType device object = some (-einval, { s with mntRoot := object }) := by
  simp only [vfsRoot, hnull, hfs]

theorem vfsRoot_no_super (hnull : s.mntRoot = none) (hfs : fileSystemLookup s.fileSystems fsType = some fs)
    (hsuper : superRoot fs s.world device = none) : vfsRoot s fsType device object = none := by
  unfold superRoot at hsuper
  rcases halloc : fs.allocSb s.world with ⟨_ | sb, world⟩
  · simp only [vfsRoot, hnull, hfs, halloc]
  · rw [halloc] at hsuper
    cases hsuper

theorem superRoot_some {world : σ} {sb : Nat} {root : Option Nat} (h : superRoot fs world device = some (sb, root)) :
    ∃ world₁ world₂, fs.allocSb world = (some sb, world₁) ∧
      fs.getRootInode (fs.readSb world₁ sb device) sb = (root, world₂) := by
  unfold superRoot at h
  rcases halloc : fs.allocSb world with ⟨_ | sb', world₁⟩
  · rw [halloc] at h
    cases h
  · rw [halloc] at h
    obtain ⟨rfl, rfl⟩ := Prod.mk.inj (Option.some.inj h)
    exact ⟨world₁, _, rfl, rfl⟩

theorem vfsRoot_no_root {sb : Nat} (hnull : s.mntRoot = none)
    (hfs : fileSystemLookup s.fileSystems fsType = some fs)
    (hsuper : superRoot fs s.world device = some (sb, none)) :
    ∃ world, vfsRoot s fsType device object = some (-einval, { s with mntRoot := object, world := world }) := by
  obtain ⟨world₁, world₂, halloc, hget⟩ := superRoot_some hsuper
  exact ⟨world₂, by simp only [vfsRoot, hnull, hfs, halloc, hget]⟩

theorem vfsRoot_mounts (object : Option Nat) {sb ino : Nat} (hnull : s.mntRoot = none)
    (hfs : fileSystemLookup s.fileSystems fsType = some fs)
    (hsuper : superRoot fs s.world device = some (sb, some ino)) :
    ∃ world, vfsRoot s fsType device object = object.map fun mnt => (0, inoRef { s with
      mntRoot := object, world := world,
      mount := Function.update s.mount mnt ⟨mnt, mnt, sb, ino, ino⟩ } ino) := by
  obtain ⟨world₁, world₂, halloc, hget⟩ := superRoot_some hsuper
  exact ⟨world₂, by simp only [vfsRoot, hnull, hfs, halloc, hget]⟩

/-- A call that fails behind the allocation leaves what was allocated as the root. -/
theorem rootMeets_failed_iff {t : MountState σ} (hnull : s.mntRoot = none)
    (hcall : vfsRoot s fsType device object = some (-einval, t)) (ht : t.mntRoot = object) :
    RootMeets s fsType device object ↔ object = none := by
  constructor
  · rintro ⟨-, hmeets⟩
    obtain ⟨ret, t', hcall', hret⟩ := hmeets hnull
    obtain ⟨rfl, rfl⟩ := Prod.mk.inj (Option.some.inj (hcall.symm.trans hcall'))
    rcases hret with ⟨hzero, -⟩ | ⟨-, hnone⟩
    · exact absurd hzero (by decide)
    · rw [← ht, hnone]
  · intro hobject
    refine ⟨fun hroot => absurd hnull hroot, fun _ => ⟨-einval, t, hcall, .inr ⟨by decide, ?_⟩⟩⟩
    rw [ht, hobject]

theorem not_rootMeets_of_fault (hnull : s.mntRoot = none) (hcall : vfsRoot s fsType device object = none) :
    ¬ RootMeets s fsType device object := by
  rintro ⟨-, hmeets⟩
  obtain ⟨ret, t, hcall', -⟩ := hmeets hnull
  rw [hcall] at hcall'
  cases hcall'

theorem rootMeets_iff : RootMeets s fsType device object ↔ RootFits s fsType device object := by
  rcases hroot : s.mntRoot with _ | mnt
  · unfold RootFits
    rw [hroot, forall_prop_of_true rfl]
    cases hfs : fileSystemLookup s.fileSystems fsType with
    | none => exact rootMeets_failed_iff hroot (vfsRoot_unregistered hroot hfs) rfl
    | some fs =>
        dsimp only
        rcases hsuper : superRoot fs s.world device with _ | ⟨sb, _ | ino⟩
        · exact iff_of_false (not_rootMeets_of_fault hroot (vfsRoot_no_super hroot hfs hsuper)) id
        · obtain ⟨world, hcall⟩ := vfsRoot_no_root hroot hfs hsuper
          exact rootMeets_failed_iff hroot hcall rfl
        · obtain ⟨world, hcall⟩ := vfsRoot_mounts object hroot hfs hsuper
          cases object with
          | none => exact iff_of_false (not_rootMeets_of_fault hroot hcall) (by simp)
          | some mnt =>
              refine iff_of_true ⟨fun h => absurd hroot h, fun _ => ⟨0, _, hcall, .inl ⟨rfl, ?_⟩⟩⟩ (by simp)
              exact ⟨mnt, fs, sb, ino, rfl, hfs, hsuper, Function.update_self _ _ _, Function.update_self _ _ _⟩
  · refine iff_of_true ⟨fun _ => ?_, fun hnull => ?_⟩ fun hnull => ?_
    · simp only [vfsRoot, hroot]
    · rw [hroot] at hnull
      cases hnull
    · rw [hroot] at hnull
      cases hnull

theorem RootMeets.sound {ret : Int} {t : MountState σ} (h : RootMeets s fsType device object)
    (hs : RootSound s) (hcall : vfsRoot s fsType device object = some (ret, t)) : RootSound t := by
  by_cases hroot : s.mntRoot = none
  · obtain ⟨ret', t', hcall', hret⟩ := h.2 hroot
    obtain ⟨rfl, rfl⟩ := Prod.mk.inj (Option.some.inj (hcall.symm.trans hcall'))
    intro mnt hmnt
    rcases hret with ⟨-, mnt', fs, sb, ino, hmnt', -, -, hinit, -⟩ | ⟨-, hnone⟩
    · obtain rfl := Option.some.inj (hmnt'.symm.trans hmnt)
      exact ⟨sb, ino, hinit⟩
    · rw [hnone] at hmnt
      cases hmnt
  · obtain ⟨-, rfl⟩ := Prod.mk.inj (Option.some.inj ((h.1 hroot).symm.trans hcall))
    exact hs

end call

/-! ### Runs -/

/-- What may happen around the root: calls of `vfs_root`, lookups of absolute paths, changes of the
registry, and anything that changes the rest of the kernel only. -/
inductive MountCall (σ : Type) where
  | root (fsType : CString) (device : Nat) (object : Option Nat)
  | lookup
  | register (fs : FileSystem σ)
  | unregister (name : CString)
  | work (world : σ)

def mountStep (s : MountState σ) : MountCall σ → Option (MountState σ)
  | .root fsType device object => (vfsRoot s fsType device object).map Prod.snd
  | .lookup => some s
  | .register fs => some { s with fileSystems := fileSystemRegister s.fileSystems fs }
  | .unregister name => some { s with fileSystems := fileSystemUnregister s.fileSystems name }
  | .work world => some { s with world := world }

/-- What is asked of a call: `vfs_root` leaves no root when it fails, and a lookup starts from no
mount that has not been set up. -/
def CallMeets (s : MountState σ) : MountCall σ → Prop
  | .root fsType device object => RootMeets s fsType device object
  | .lookup => RootSound s
  | _ => True

def CallFits (s : MountState σ) : MountCall σ → Prop
  | .root fsType device object => RootFits s fsType device object
  | _ => True

/-- The state before the first call, with any registry. -/
def booted (fileSystems : List (FileSystem σ)) (mount : Nat → VfsMount) (refs : Nat → Nat) (world : σ) :
    MountState σ := ⟨fileSystems, none, mount, refs, world⟩

theorem booted_sound (fileSystems : List (FileSystem σ)) (mount : Nat → VfsMount) (refs : Nat → Nat) (world : σ) :
    RootSound (booted fileSystems mount refs world) := by
  intro mnt hmnt
  cases hmnt

theorem mountStep_meets_iff {s : MountState σ} (hs : RootSound s) (call : MountCall σ) :
    ((∃ t, mountStep s call = some t ∧ CallMeets s call) ↔ CallFits s call) ∧
      ∀ t, CallFits s call → mountStep s call = some t → RootSound t := by
  cases call with
  | root fsType device object =>
      have hiff : RootMeets s fsType device object ↔ RootFits s fsType device object := rootMeets_iff
      refine ⟨⟨fun h => hiff.mp h.choose_spec.2, fun hfits => ?_⟩, ?_⟩
      · have hmeets := hiff.mpr hfits
        by_cases hroot : s.mntRoot = none
        · obtain ⟨ret, t, hcall, -⟩ := hmeets.2 hroot
          exact ⟨t, by rw [mountStep, hcall, Option.map_some], hmeets⟩
        · exact ⟨s, by rw [mountStep, hmeets.1 hroot, Option.map_some], hmeets⟩
      · intro t hfits ht
        obtain ⟨result, hcall, rfl⟩ := Option.map_eq_some_iff.mp ht
        exact (hiff.mpr hfits).sound hs hcall
  | lookup =>
      refine ⟨iff_of_true ⟨s, rfl, hs⟩ trivial, fun t _ ht => ?_⟩
      exact Option.some.inj ht ▸ hs
  | register fs =>
      refine ⟨iff_of_true ⟨_, rfl, trivial⟩ trivial, fun t _ ht => ?_⟩
      obtain rfl := Option.some.inj ht
      exact hs
  | unregister name =>
      refine ⟨iff_of_true ⟨_, rfl, trivial⟩ trivial, fun t _ ht => ?_⟩
      obtain rfl := Option.some.inj ht
      exact hs
  | work world =>
      refine ⟨iff_of_true ⟨_, rfl, trivial⟩ trivial, fun t _ ht => ?_⟩
      obtain rfl := Option.some.inj ht
      exact hs

/-- Along every run no call of `vfs_root` leaves a root behind and no lookup starts from a mount
that was not set up, exactly when no call fails with a mount allocated. -/
theorem vfsRoot_atomic_iff (fileSystems : List (FileSystem σ)) (mount : Nat → VfsMount) (refs : Nat → Nat)
    (world : σ) (calls : List (MountCall σ)) :
    Along mountStep (fun s call _ => CallMeets s call) (booted fileSystems mount refs world) calls ↔
      Guarded mountStep CallFits (booted fileSystems mount refs world) calls := by
  have hfair : Guarded mountStep (fun _ _ => True) (booted fileSystems mount refs world) calls :=
    guarded_of_forall (fun _ _ _ => trivial) _
  exact along_iff_guarded RootSound (fun s call hs _ => mountStep_meets_iff hs call)
    (booted_sound fileSystems mount refs world) hfair

end mount

/-! ### The file system in memory -/

/-- The only file system that the repository registers, over its own state; its superblock is
allocated. -/
def ramfsFileSystem (m : Vfs.Machine) (sb : Nat) : FileSystem (Option Ramfs.Fs) where
  name := cstring Vfs.ramfsName
  allocSb fs := (some sb, fs)
  readSb _ _ _ := some (Ramfs.ramfsReadSb m.memory)
  getRootInode fs _ := (fs.map Ramfs.Fs.root, fs)

theorem ramfsLookup (m : Vfs.Machine) (sb : Nat) (fsType : CString) :
    fileSystemLookup [ramfsFileSystem m sb] fsType =
      if fsType.map Subtype.val = Vfs.ramfsName then some (ramfsFileSystem m sb) else none := by
  have hname : (cstring Vfs.ramfsName).map Subtype.val = Vfs.ramfsName := by decide
  have hiff : strcmp (ramfsFileSystem m sb).name fsType = 0 ↔ fsType.map Subtype.val = Vfs.ramfsName := by
    rw [strcmp_eq_zero_iff]
    constructor
    · intro heq
      rw [← heq]
      exact hname
    · intro heq
      exact List.map_injective_iff.mpr Subtype.val_injective (hname.trans heq.symm)
  simp only [fileSystemLookup, hiff, List.find?_cons, List.find?_nil]
  split_ifs with hfs
  · rw [decide_eq_true hfs]
  · rw [decide_eq_false hfs]

/-- With that file system alone a call returns what the model of `fs/vfs.c` returns, and leaves a
root where that one does. -/
theorem vfsRoot_ramfs (m : Vfs.Machine) (sb mnt device : Nat) {g : MountState (Option Ramfs.Fs)} {s : Vfs.State}
    (hsystems : g.fileSystems = [ramfsFileSystem m sb]) (hroot : g.mntRoot = none ↔ s.mntRoot = none)
    (fsType : CString) :
    ∃ t, vfsRoot g fsType device (some mnt) = some ((Vfs.vfsRoot m s fsType).1, t) ∧
      (t.mntRoot = none ↔ (Vfs.vfsRoot m s fsType).2.mntRoot = none) ∧
      (g.mntRoot = none → (Vfs.vfsRoot m s fsType).1 = 0 →
        Initialised t mnt sb (Ramfs.ramfsReadSb m.memory).root) := by
  rcases hs : s.mntRoot with _ | root
  · have hnull := hroot.mpr hs
    have hlookup := ramfsLookup m sb fsType
    rw [← hsystems] at hlookup
    by_cases hfs : fsType.map Subtype.val = Vfs.ramfsName
    · rw [if_pos hfs] at hlookup
      have hsuper : superRoot (ramfsFileSystem m sb) g.world device =
          some (sb, some (Ramfs.ramfsReadSb m.memory).root) := rfl
      obtain ⟨world, hcall⟩ := vfsRoot_mounts (some mnt) hnull hlookup hsuper
      have hvfs : Vfs.vfsRoot m s fsType = (0, s.setFs ((Ramfs.ramfsReadSb m.memory).inoRef
          (Ramfs.ramfsReadSb m.memory).root)) := by
        simp only [Vfs.vfsRoot, hs, if_pos hfs]
      rw [hvfs]
      exact ⟨_, hcall, by simp [inoRef, Vfs.State.setFs], fun _ _ => Function.update_self _ _ _⟩
    · rw [if_neg hfs] at hlookup
      have hvfs : Vfs.vfsRoot m s fsType = (-einval, { s with mntRoot := some none }) := by
        simp only [Vfs.vfsRoot, hs, if_neg hfs]
      rw [hvfs]
      refine ⟨_, vfsRoot_unregistered hnull hlookup, by simp, fun _ hzero => ?_⟩
      exact absurd (show -einval = 0 from hzero) (by decide)
  · have hsome : g.mntRoot ≠ none := by
      rw [Ne, hroot, hs]
      simp
    obtain ⟨mnt', hmnt⟩ := Option.ne_none_iff_exists'.mp hsome
    have hvfs : Vfs.vfsRoot m s fsType = (-einval, s) := by simp only [Vfs.vfsRoot, hs]
    rw [hvfs]
    exact ⟨g, by simp only [vfsRoot, hmnt], hroot, fun hnull => absurd hnull hsome⟩

/-- A file system whose one superblock has one inode. -/
def plainFs : FileSystem Unit where
  name := cstring Vfs.ramfsName
  allocSb _ := (some 1, ())
  readSb _ _ _ := ()
  getRootInode _ _ := (some 2, ())

def plainBoot : MountState Unit := booted [plainFs] (fun _ => ⟨0, 0, 0, 0, 0⟩) (fun _ => 0) ()

/-- A type that is not registered leaves a mount behind that was never set up, and the type that is
registered can no longer be mounted. -/
theorem vfsRoot_unknown_type :
    (∃ t, vfsRoot plainBoot (cstring [120]) 0 (some 0x1000) = some (-einval, t) ∧ t.mntRoot = some 0x1000 ∧
      t.mount 0x1000 = ⟨0, 0, 0, 0, 0⟩ ∧ vfsRoot t (cstring Vfs.ramfsName) 0 (some 0x2000) = some (-einval, t)) ∧
    ¬ Along mountStep (fun s call _ => CallMeets s call) plainBoot [.root (cstring [120]) 0 (some 0x1000)] := by
  have hfs : fileSystemLookup plainBoot.fileSystems (cstring [120]) = none := by decide
  have hcall : vfsRoot plainBoot (cstring [120]) 0 (some 0x1000) =
      some (-einval, { plainBoot with mntRoot := some 0x1000 }) := vfsRoot_unregistered rfl hfs
  refine ⟨⟨_, hcall, rfl, rfl, rfl⟩, ?_⟩
  intro halong
  obtain ⟨t, -, hmeets, -⟩ := halong
  have hnone := (rootMeets_failed_iff rfl hcall rfl).mp hmeets
  cases hnone

end Lucix.MountRoot
