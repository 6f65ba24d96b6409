import Lucix.Ramfs

/-!
# Mounting, opening and closing, `fs/vfs.c`

The root mount, the directory and device calls, and the open files. A function
returns `none` where the source would follow a null or uninitialised pointer. No
file operations in the repository have an `open` or `release` of their own, and the
root inode has no default file operations: `ramfs_read_sb` never sets them.
-/
namespace Lucix.Vfs
open Ramfs
open FileIo (Inode)

def oRdonly : Nat := 0x0
def oCreat : Nat := 0x100

/-- The string `ramfs`, the only file system that registers itself. -/
def ramfsName : List UInt8 := [114, 97, 109, 102, 115]

/-- The struct `file`; `id` names the object. -/
structure File where
  id : Nat
  inode : Nat
  flags : Nat
  offset : Nat
  refcnt : Nat
  deriving DecidableEq

/-- What the code finds around it: the inode objects and the counters of file objects as
`mem_cache_alloc_obj` hands them out, and for which devices `get_driver` finds a driver. -/
structure Machine where
  memory : Nat → Inode
  fileMemory : Nat → Nat
  hasDriver : Nat → Bool

/-- The global `mnt_root`, null or a mount whose root may never have been filled in, and the
open files. -/
structure State where
  mntRoot : Option (Option Fs)
  files : List File
  nextFile : Nat

def State.init : State := ⟨none, [], 0⟩

def State.rootFs (s : State) : Option Fs := s.mntRoot.join

def State.setFs (s : State) (fs : Fs) : State := { s with mntRoot := some (some fs) }

/-- The string behind the last slash, for `strrchr(path, '/') + 1`. -/
def lastName (path : CString) : CString :=
  (path.reverse.takeWhile fun b => decide (b ≠ slash)).reverse

def vfsRoot (m : Machine) (s : State) (fsType : CString) : Int × State :=
  match s.mntRoot with
  | some _ => (-einval, s)
  | none =>
      if fsType.map Subtype.val = ramfsName then
        let fs := ramfsReadSb m.memory
        (0, s.setFs (fs.inoRef fs.root))
      -- the mount has been allocated and stays behind
      else (-einval, { s with mntRoot := some none })

def vfsMkdir (s : State) (path : CString) (mode : Nat) : Option (Int × State) := do
  let fs ← s.rootFs
  let r ← vfsLookup fs path lookupParent
  if r.code ≠ 0 then some (r.code, s.setFs r.fs)
  else do
    let parent ← r.res
    let (ret, fs) ← ramfsInoMkdir r.fs parent (lastName path) mode
    some (ret, s.setFs (fs.inoDeref parent))

def vfsMknod (s : State) (path : CString) (mode device : Nat) : Option (Int × State) := do
  let fs ← s.rootFs
  let r ← vfsLookup fs path lookupParent
  if r.code ≠ 0 then some (r.code, s.setFs r.fs)
  else do
    let parent ← r.res
    let (ret, fs) ← ramfsInoMknod r.fs parent (lastName path) mode device
    some (ret, s.setFs (fs.inoDeref parent))

/-- The first part of `vfs_open`: the inode that is found or created, or none. -/
def openInode (fs : Fs) (path : CString) (oflags mode : Nat) : Option (Option Nat × Fs) := do
  let r ← vfsLookup fs path 0
  if r.code ≠ 0 ∧ r.res = none then
    if oflags &&& oCreat ≠ 0 ∧ oflags &&& oRdonly = 0 then do
      let r ← vfsLookup r.fs path lookupParent
      let parent ← r.res
      let (_, ino, fs) ← ramfsInoCreate r.fs parent (lastName path) mode
      some (ino, fs)
    else some (none, r.fs)
  else some (r.res, r.fs)

/-- The end of `vfs_open`, with file operations for the inode. -/
def openFile (m : Machine) (s : State) (fs : Fs) (ino oflags : Nat) : State where
  mntRoot := some (some (fs.inoRef ino))
  files := ⟨s.nextFile, ino, oflags, 0, (m.fileMemory s.nextFile + 1) % 2 ^ 32⟩ :: s.files
  nextFile := s.nextFile + 1

def vfsOpen (m : Machine) (s : State) (path : CString) (oflags mode : Nat) :
    Option (Option Nat × State) := do
  let fs ← s.rootFs
  match ← openInode fs path oflags mode with
  | (none, fs) => some (none, s.setFs fs)
  | (some ino, fs) =>
      let type := inoType (fs.inodes ino)
      if type = sIfchr then
        if m.hasDriver (fs.inodes ino).dev then some (some s.nextFile, openFile m s fs ino oflags)
        else some (none, s.setFs fs)
      else if type = sIfblk then some (none, s.setFs fs)
      else if (type = sIfreg ∨ type = sIfdir) ∧ ino ≠ fs.root then
        some (some s.nextFile, openFile m s fs ino oflags)
      else none

def vfsClose (s : State) (id : Nat) : Option State := do
  let fs ← s.rootFs
  let file ← s.files.find? fun f => decide (f.id = id)
  let refcnt := (file.refcnt + 2 ^ 32 - 1) % 2 ^ 32
  if refcnt = 0 then
    some { s.setFs (fs.inoDeref file.inode) with files := s.files.filter fun f => decide (f.id ≠ id) }
  else some { s with
    files := s.files.map fun f => if f.id = id then { f with refcnt := refcnt } else f }

inductive VfsCall where
  | root (fsType : CString)
  | mkdir (path : CString) (mode : Nat)
  | mknod (path : CString) (mode device : Nat)
  | open (path : CString) (oflags mode : Nat)
  | close (id : Nat)

def State.step (m : Machine) (s : State) : VfsCall → Option State
  | .root fsType => some (vfsRoot m s fsType).2
  | .mkdir path mode => (vfsMkdir s path mode).map Prod.snd
  | .mknod path mode device => (vfsMknod s path mode device).map Prod.snd
  | .open path oflags mode => (vfsOpen m s path oflags mode).map Prod.snd
  | .close id => vfsClose s id

end Lucix.Vfs
