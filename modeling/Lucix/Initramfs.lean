import Lucix.Vfs

/-!
# Unpacking the initramfs

`init/initramfs.c` with the strings of `kernel/str.c` and the numerals of
`kernel/strtol.c`. Positions count from the start of the ramdisk, which is an object
of its own: a function returns `none` where the source would touch memory outside
it. The name of a header is cleaned up in place, so the ramdisk is part of the
state.
-/
namespace Lucix.Initramfs
open Ramfs Vfs
open FileIo (PageHeap)

def oWronly : Nat := 0x1

/-! ### Numerals -/

def hexdigit (d : UInt8) : Bool :=
  decide (48 ≤ d ∧ d ≤ 57) || decide (97 ≤ d ∧ d ≤ 122) || decide (65 ≤ d ∧ d ≤ 90)

def digitval (d : UInt8) : Nat :=
  if 48 ≤ d ∧ d ≤ 57 then d.toNat - 48
  else if 97 ≤ d ∧ d ≤ 122 then d.toNat - 97 + 10
  else d.toNat - 65 + 10

/-- The loop of `strtol` on the bytes from `str` on; `n` is how far `str` has moved. -/
def strtolLoop (base : Nat) : List UInt8 → Nat → Nat → Option (Nat × Nat)
  | [], _, _ => none
  | d :: str, ret, n =>
      if hexdigit d then
        if base ≤ digitval d then some (ret, n)
        else strtolLoop base str (wrap64 (ret * base + digitval d)) (n + 1)
      else some (ret, n)

/-- The function `strtol`: the bits of the result and how far `endp` is from `str`. -/
def strtol (str : List UInt8) (base : Nat) : Option (Nat × Nat) :=
  if base ≠ 0 then strtolLoop base str 0 0
  else match str with
    | 48 :: 120 :: str => strtolLoop 16 str 0 2
    | 48 :: str => strtolLoop 8 str 0 1
    | str => strtolLoop 10 str 0 0

/-! ### The ramdisk -/

structure Ramdisk where
  bytes : Nat → UInt8
  size : Nat

def Ramdisk.read (disk : Ramdisk) (i : Nat) : Option UInt8 :=
  if i < disk.size then some (disk.bytes i) else none

def Ramdisk.write (disk : Ramdisk) (i : Nat) (b : UInt8) : Option Ramdisk :=
  if i < disk.size then some { disk with bytes := Function.update disk.bytes i b } else none

/-- The `n` bytes from `i` on. -/
def Ramdisk.slice (disk : Ramdisk) : Nat → Nat → List UInt8
  | _, 0 => []
  | i, n + 1 => disk.bytes i :: disk.slice (i + 1) n

/-- The bytes from `i` to the end. -/
def Ramdisk.tail (disk : Ramdisk) (i : Nat) : List UInt8 := disk.slice i (disk.size - i)

/-- The bytes before the terminator. -/
def toCString : List UInt8 → Option CString
  | [] => none
  | b :: str => if h : b ≠ 0 then (toCString str).map fun s => ⟨b, h⟩ :: s else some []

/-- The string that a pointer to position `i` stands for. -/
def Ramdisk.string (disk : Ramdisk) (i : Nat) : Option CString := toCString (disk.tail i)

def Ramdisk.strlen (disk : Ramdisk) (i : Nat) : Option Nat := (disk.string i).map List.length

/-- Whether `memcmp` finds these bytes at position `i`; it stops at the first other one. -/
def Ramdisk.holds (disk : Ramdisk) : Nat → List UInt8 → Option Bool
  | _, [] => some true
  | i, b :: bs => do
      let a ← disk.read i
      if a = b then disk.holds (i + 1) bs else some false

/-! ### Headers -/

/-- The string `TMAGIC`. -/
def tmagic : List UInt8 := [117, 115, 116, 97, 114]

def dirtype : UInt8 := 53
def regtype : UInt8 := 48

/-- The function `tar_valid_header`, true for its result 0: it leaves out the last byte of the
magic. -/
def tarValidHeader (disk : Ramdisk) (pos : Nat) : Option Bool :=
  disk.holds (pos + 257) (tmagic.take (tmagic.length - 1))

/-- The first loop of `sanitize_name`. -/
def skipDots (disk : Ramdisk) : Nat → Nat → Option Nat
  | 0, _ => none
  | fuel + 1, name => do
      let b ← disk.read name
      if b = dot.1 then skipDots disk fuel (name + 1) else some name

/-- The second loop of `sanitize_name`; for an empty name it looks at the byte before it. -/
def stripSlashes : Nat → Ramdisk → Nat → Option Ramdisk
  | 0, _, _ => none
  | fuel + 1, disk, name => do
      let len ← disk.strlen name
      if name + len = 0 then none
      else do
        let b ← disk.read (name + len - 1)
        if b = slash.1 then do
          let disk ← disk.write (name + len - 1) 0
          stripSlashes fuel disk name
        else some disk

/-- The function `sanitize_name`: where the name starts now, and the ramdisk. -/
def sanitizeName (disk : Ramdisk) (name : Nat) : Option (Nat × Ramdisk) := do
  let name ← skipDots disk (disk.size + 1) name
  let disk ← stripSlashes (disk.size + 2) disk name
  some (name, disk)

/-! ### Unpacking -/

structure State where
  disk : Ramdisk
  vfs : Vfs.State
  heap : PageHeap

def processDirectory (s : State) (header : Nat) : Option (Int × State) := do
  let name ← s.disk.string header
  if name = [dot, slash] ∨ name = [slash] then some (0, s)
  else do
    let (name, disk) ← sanitizeName s.disk header
    let path ← disk.string name
    let (ret, vfs) ← vfsMkdir s.vfs path 0
    some (ret, { s with disk := disk, vfs := vfs })

/-- The call `file->ops->write` with the position of the file, for an inode of the ramfs. -/
def writeFile (vfs : Vfs.State) (heap : PageHeap) (id : Nat) (src : Nat → UInt8) (size : Nat) :
    Option (Vfs.State × PageHeap) := do
  let fs ← vfs.rootFs
  let file ← vfs.files.find? fun f => decide (f.id = id)
  if inoType (fs.inodes file.inode) = sIfchr then none
  else match FileIo.genericFileWrite size heap (fs.inodes file.inode) src size file.offset with
    | .done w => some ({ vfs.setFs (fs.setInode file.inode w.ino) with
        files := vfs.files.map fun f => if f.id = id then { f with offset := w.pos } else f }, w.heap)
    | _ => none

def processFile (m : Machine) (s : State) (header : Nat) : Option (Int × State) := do
  let (size, _) ← strtol (s.disk.tail (header + 124)) 8
  let (name, disk) ← sanitizeName s.disk header
  let path ← disk.string name
  let (file, vfs) ← vfsOpen m s.vfs path (oCreat ||| oWronly) 0o777
  let id ← file
  if size ≠ 0 ∧ disk.size < header + 512 + size then none
  else do
    let (vfs, heap) ← writeFile vfs s.heap id (fun i => disk.bytes (header + 512 + i)) size
    let vfs ← vfsClose vfs id
    some (0, ⟨disk, vfs, heap⟩)

/-- The body of the loop of `unpack_initramfs`. -/
def unpackBlock (m : Machine) (s : State) (pos : Nat) : Option (Int × State) := do
  let valid ← tarValidHeader s.disk pos
  if valid then do
    let typeflag ← s.disk.read (pos + 156)
    if typeflag = dirtype then processDirectory s pos
    else if typeflag = regtype then processFile m s pos
    else some (0, s)
  else some (0, s)

def unpackLoop (m : Machine) : Nat → Nat → State → Option (Int × State)
  | 0, _, _ => none
  | fuel + 1, pos, s =>
      if pos < s.disk.size then do
        let (ret, s) ← unpackBlock m s pos
        if ret ≠ 0 then some (ret, s) else unpackLoop m fuel (pos + 512) s
      else some (0, s)

def unpackInitramfs (m : Machine) (s : State) : Option (Int × State) :=
  unpackLoop m (s.disk.size + 1) 0 s

/-- The blocks that the loop takes for headers. -/
def headersFrom (m : Machine) : Nat → Nat → State → List Nat
  | 0, _, _ => []
  | fuel + 1, pos, s =>
      if pos < s.disk.size then
        let rest := match unpackBlock m s pos with
          | some (0, s) => headersFrom m fuel (pos + 512) s
          | _ => []
        if tarValidHeader s.disk pos = some true then pos :: rest else rest
      else []

def headersTaken (m : Machine) (s : State) : List Nat := headersFrom m (s.disk.size + 1) 0 s

end Lucix.Initramfs
