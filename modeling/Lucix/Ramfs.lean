import Lucix.FileIo

/-!
# The ramfs tree and path lookup

`fs/ramfs/ramfs.c`, `fs/namecache.c` and `fs/lookup.c`. Inodes are named in the
order in which their objects are allocated. A directory has a list of entries,
newest first; any other inode has a null pointer where the list would be, and
following it is a fault, as is every other access through a null pointer.
-/
namespace Lucix.Ramfs
open FileIo (Inode)

/-- The bytes of a string before its terminator. -/
abbrev CString := List { b : UInt8 // b ≠ 0 }

/-- The character `/`. -/
def slash : { b : UInt8 // b ≠ 0 } := ⟨47, by decide⟩

/-- The character `.`. -/
def dot : { b : UInt8 // b ≠ 0 } := ⟨46, by decide⟩

def enoent : Int := 2
def eexist : Int := 17
def einval : Int := 22

def sIfchr : Nat := 0x2000
def sIfdir : Nat := 0x4000
def sIfblk : Nat := 0x6000
def sIfreg : Nat := 0x8000

/-- The macro `INO_TYPE`. -/
def inoType (ino : Inode) : Nat := ino.mode &&& 0xf000

/-- The macro `RAMFS_MAX_FILENAME`. -/
def ramfsMaxFilename : Nat := 256

structure DirEntry where
  name : CString
  i : Nat
  deriving DecidableEq

structure NameEntry where
  parent : Nat
  name : CString
  ino : Nat
  deriving DecidableEq

/-- `dirEntries` is the list of a directory and `none` for a null pointer. The objects from
`next` on are not inodes yet and hold what their memory held before. -/
structure Fs where
  inodes : Nat → Inode
  dirEntries : Nat → Option (List DirEntry)
  next : Nat
  inoCounter : Nat
  root : Nat
  nameCacheList : List NameEntry

def Fs.setInode (fs : Fs) (i : Nat) (ino : Inode) : Fs :=
  { fs with inodes := Function.update fs.inodes i ino }

def Fs.setEntries (fs : Fs) (i : Nat) (entries : Option (List DirEntry)) : Fs :=
  { fs with dirEntries := Function.update fs.dirEntries i entries }

def Fs.inoRef (fs : Fs) (i : Nat) : Fs :=
  fs.setInode i { fs.inodes i with refcnt := ((fs.inodes i).refcnt + 1) % 2 ^ 32 }

def Fs.inoDeref (fs : Fs) (i : Nat) : Fs :=
  fs.setInode i { fs.inodes i with refcnt := ((fs.inodes i).refcnt + 2 ^ 32 - 1) % 2 ^ 32 }

/-- `if (ino) ino_deref(ino)`. -/
def Fs.inoDeref? (fs : Fs) : Option Nat → Fs
  | some i => fs.inoDeref i
  | none => fs

/-- The tree that `ramfs_read_sb` makes: a root that is its own parent. -/
def ramfsReadSb (memory : Nat → Inode) : Fs :=
  let fs : Fs :=
    { inodes := Function.update memory 0 { memory 0 with id := 2, mode := sIfdir ||| 0o666 }
      dirEntries := Function.update (fun _ => none) 0 (some [⟨[dot], 0⟩, ⟨[dot, dot], 0⟩])
      next := 1
      inoCounter := 3
      root := 0
      nameCacheList := [] }
  fs.inoRef 0

/-- The function `memcmp` on a stored name and `namelen` bytes of a path: the bytes of the
path are not zero, so the comparison ends inside the stored name. -/
def sameBytes (stored name : CString) : Bool := name.isPrefixOf stored

/-- The function `ramfs_ino_lookup`: the inode, or `-ENOENT` as `some none`. -/
def ramfsInoLookup (fs : Fs) (dir : Nat) (name : CString) : Option (Option Nat) :=
  (fs.dirEntries dir).map fun entries =>
    (entries.find? fun e => sameBytes e.name name).map DirEntry.i

def ramfsInoCreateGeneric (fs : Fs) (dir : Nat) (name : CString) (mode : Nat) :
    Option (Int × Option Nat × Fs) := do
  let entries ← fs.dirEntries dir
  if entries.any fun e => decide (e.name = name) then some (-eexist, none, fs)
  else if ramfsMaxFilename ≤ name.length then none
  else
    let ino := fs.next
    let fs := fs.setInode ino { fs.inodes ino with
      mode := mode
      id := fs.inoCounter
      blocks := 0
      blockSize := pageSize
      fMap := ⟨[none, none], 2⟩ }
    let fs := { fs with next := fs.next + 1, inoCounter := (fs.inoCounter + 1) % 2 ^ 32 }
    let fs := (fs.setEntries dir (some (⟨name, ino⟩ :: entries))).setEntries ino none
    some (0, some ino, fs.inoRef ino)

def ramfsInoCreate (fs : Fs) (dir : Nat) (name : CString) (mode : Nat) :
    Option (Int × Option Nat × Fs) := do
  match ← ramfsInoCreateGeneric fs dir name (mode &&& 0xfff ||| sIfreg) with
  | (ret, some ino, fs) => some (ret, some ino, fs.inoRef ino)
  | (_, none, _) => none

def ramfsInoMkdir (fs : Fs) (dir : Nat) (name : CString) (mode : Nat) : Option (Int × Fs) := do
  match ← ramfsInoCreateGeneric fs dir name (mode &&& 0xfff ||| sIfdir) with
  | (ret, some ino, fs) => some (ret, fs.setEntries ino (some [⟨[dot], ino⟩, ⟨[dot, dot], dir⟩]))
  | (ret, none, fs) => some (ret, fs)

def ramfsInoMknod (fs : Fs) (dir : Nat) (name : CString) (mode device : Nat) : Option (Int × Fs) :=
  if mode &&& 0xf000 = sIfblk ∨ mode &&& 0xf000 = sIfchr then do
    match ← ramfsInoCreateGeneric fs dir name mode with
    | (ret, some ino, fs) => some (ret, fs.setInode ino { fs.inodes ino with dev := device })
    | (_, none, _) => none
  else some (einval, fs)

def fsNameCacheFastLookup (fs : Fs) (parent : Nat) (name : CString) : Option Nat :=
  (fs.nameCacheList.find? fun e => decide (e.parent = parent) && sameBytes e.name name).map
    NameEntry.ino

def fsNameCacheAddInode (fs : Fs) (parent : Nat) (name : CString) (ino : Nat) : Fs :=
  let fs := (fs.inoRef ino).inoRef parent
  { fs with nameCacheList := ⟨parent, name, ino⟩ :: fs.nameCacheList }

/-- The flag `LOOKUP_PARENT`. -/
def lookupParent : Nat := 1

/-- The struct `namei` together with `last_code`. -/
structure Namei where
  remainingPath : CString
  parent : Option Nat
  current : Option Nat
  lastCode : Int

/-- What `vfs_lookup` returns and stores through `res`, which the callers set to null. -/
structure LookupResult where
  code : Int
  res : Option Nat
  fs : Fs

def getNextComponent (path : CString) : CString := path.takeWhile fun b => decide (b ≠ slash)

/-- One component: the name cache first, then the directory. The inode is referenced. -/
def lookupComponent (fs : Fs) (current : Nat) (str : CString) : Option (Option Nat × Fs) :=
  match fsNameCacheFastLookup fs current str with
  | some ino => some (some ino, fs.inoRef ino)
  | none => (ramfsInoLookup fs current str).map fun found =>
      match found with
      | some ino => (some ino, fsNameCacheAddInode (fs.inoRef ino) current str ino)
      | none => (none, fs)

/-- The loop of `vfs_lookup`; every iteration but the last consumes a component. -/
def vfsLookupLoop (flags : Nat) : Nat → Fs → Namei → Option LookupResult
  | 0, _, _ => none
  | fuel + 1, fs, nd =>
      let path := nd.remainingPath.dropWhile fun b => decide (b = slash)
      let str := getNextComponent path
      if str = [] then
        if flags &&& lookupParent ≠ 0 then some ⟨0, nd.parent, fs.inoDeref? nd.current⟩
        else some ⟨nd.lastCode, nd.current, fs.inoDeref? nd.parent⟩
      else if nd.lastCode ≠ 0 then
        some ⟨nd.lastCode, none, (fs.inoDeref? nd.parent).inoDeref? nd.current⟩
      else do
        let current ← nd.current
        let parent ← nd.parent
        let (found, fs) ← lookupComponent fs current str
        vfsLookupLoop flags fuel (fs.inoDeref parent)
          { remainingPath := path.drop str.length
            parent := some current
            current := found
            lastCode := if found = none then -enoent else 0 }

def vfsLookup (fs : Fs) (path : CString) (flags : Nat) : Option LookupResult :=
  if path.head? = some slash then
    vfsLookupLoop flags (path.length + 1) ((fs.inoRef fs.root).inoRef fs.root)
      ⟨path.drop 1, some fs.root, some fs.root, 0⟩
  else none

end Lucix.Ramfs
