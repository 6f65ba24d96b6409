import Lucix.Ramfs
import Lucix.Execution

/-! The trees that `create`, `mkdir` and `mknod` build. In each of them exactly the
directories have a list of entries, and every entry names an inode. Where a directory
has the name already, only `mkdir` looks at the result of `ramfs_ino_create_generic`
before it follows the null pointer. -/
namespace Lucix.Ramfs
open Execution
open FileIo (Inode)

inductive TreeCall where
  | create (dir : Nat) (name : CString) (mode : Nat)
  | mkdir (dir : Nat) (name : CString) (mode : Nat)
  | mknod (dir : Nat) (name : CString) (mode device : Nat)

def Fs.treeStep (fs : Fs) : TreeCall → Option Fs
  | .create dir name mode => (ramfsInoCreate fs dir name mode).map fun r => r.2.2
  | .mkdir dir name mode => (ramfsInoMkdir fs dir name mode).map Prod.snd
  | .mknod dir name mode device => (ramfsInoMknod fs dir name mode device).map Prod.snd

def Fs.isDir (fs : Fs) (i : Nat) : Bool := decide (inoType (fs.inodes i) = sIfdir)

def Fs.dropCache (fs : Fs) : Fs := { fs with nameCacheList := [] }

/-- Directories have a list of entries, other inodes have none, and entries name inodes. -/
structure Fs.Sound (fs : Fs) : Prop where
  root_lt : fs.root < fs.next
  dirs : ∀ i < fs.next, fs.isDir i = true ↔ (fs.dirEntries i).isSome
  targets : ∀ i entries, fs.dirEntries i = some entries → ∀ e ∈ entries, e.i < fs.next
  unused : ∀ i, fs.next ≤ i → fs.dirEntries i = none
  cache_nil : fs.nameCacheList = []

section steps
variable {fs fs' : Fs} {dir i : Nat} {name : CString} {mode : Nat}

theorem Fs.Sound.setInode (h : fs.Sound) {ino : Inode} (hmode : ino.mode = (fs.inodes i).mode) :
    (fs.setInode i ino).Sound := by
  refine { h with dirs := fun k hk => ?_ }
  have hdir : (fs.setInode i ino).isDir k = fs.isDir k := by
    by_cases hki : k = i
    · subst hki
      have htype : inoType ino = inoType (fs.inodes k) := by simp only [inoType, hmode]
      simp only [Fs.isDir, Fs.setInode, Function.update_self, htype]
    · simp [Fs.isDir, Fs.setInode, hki]
  rw [hdir]
  exact h.dirs k hk

theorem Fs.Sound.inoRef (h : fs.Sound) (i : Nat) : (fs.inoRef i).Sound := h.setInode rfl

/-- The inode that `ramfs_ino_create_generic` fills in, before it is referenced. -/
def Fs.freshInode (fs : Fs) (mode : Nat) : Inode :=
  { fs.inodes fs.next with
    mode := mode
    id := fs.inoCounter
    blocks := 0
    blockSize := pageSize
    fMap := ⟨[none, none], 2⟩ }

/-- The tree with one more inode, named by a new first entry of a directory. -/
def Fs.grow (fs : Fs) (dir : Nat) (entries : List DirEntry) (name : CString) (ino : Inode)
    (list : Option (List DirEntry)) : Fs where
  inodes := Function.update fs.inodes fs.next ino
  dirEntries := Function.update
    (Function.update fs.dirEntries dir (some (⟨name, fs.next⟩ :: entries))) fs.next list
  next := fs.next + 1
  inoCounter := (fs.inoCounter + 1) % 2 ^ 32
  root := fs.root
  nameCacheList := fs.nameCacheList

/-- The name is not in the directory yet and fits. -/
structure Fs.CanName (fs : Fs) (dir : Nat) (name : CString) (entries : List DirEntry) : Prop where
  list : fs.dirEntries dir = some entries
  unused : ∀ e ∈ entries, e.name ≠ name
  short : name.length < ramfsMaxFilename

theorem createGeneric_grow {ret : Int} {ino : Nat}
    (hcall : ramfsInoCreateGeneric fs dir name mode = some (ret, some ino, fs')) :
    ret = 0 ∧ ino = fs.next ∧ ∃ entries, fs.CanName dir name entries ∧
      fs' = fs.grow dir entries name { fs.freshInode mode with
        refcnt := ((fs.inodes fs.next).refcnt + 1) % 2 ^ 32 } none := by
  cases hl : fs.dirEntries dir with
  | none => simp [ramfsInoCreateGeneric, hl] at hcall
  | some entries =>
      simp only [ramfsInoCreateGeneric, hl, Option.bind_eq_bind, Option.bind_some] at hcall
      split_ifs at hcall with hexists hlong
      · simp at hcall
      · simp only [Option.some.injEq, Prod.mk.injEq] at hcall
        obtain ⟨rfl, rfl, rfl⟩ := hcall
        refine ⟨rfl, rfl, entries, ⟨hl, ?_, Nat.lt_of_not_le hlong⟩, ?_⟩
        · simpa using hexists
        · simp only [Fs.inoRef, Fs.setInode, Fs.setEntries, Fs.grow, Fs.freshInode,
            Function.update_self, Function.update_idem]

theorem createGeneric_none {ret : Int}
    (hcall : ramfsInoCreateGeneric fs dir name mode = some (ret, none, fs')) : fs' = fs := by
  cases hl : fs.dirEntries dir with
  | none => simp [ramfsInoCreateGeneric, hl] at hcall
  | some entries =>
      simp only [ramfsInoCreateGeneric, hl, Option.bind_eq_bind, Option.bind_some] at hcall
      split_ifs at hcall
      · simp only [Option.some.injEq, Prod.mk.injEq, true_and] at hcall
        exact hcall.2.symm
      · simp at hcall

/-- A created file has the reference of `ramfs_ino_create_generic` and one for the caller. -/
theorem create_grow {ret : Int} {found : Option Nat}
    (hcall : ramfsInoCreate fs dir name mode = some (ret, found, fs')) :
    ret = 0 ∧ found = some fs.next ∧ ∃ entries, fs.CanName dir name entries ∧
      fs' = fs.grow dir entries name { fs.freshInode (mode &&& 0xfff ||| sIfreg) with
        refcnt := (((fs.inodes fs.next).refcnt + 1) % 2 ^ 32 + 1) % 2 ^ 32 } none := by
  obtain ⟨⟨ret', hit, fs₁⟩, hgen, hcall⟩ := Option.bind_eq_some_iff.mp hcall
  cases hit with
  | none => simp at hcall
  | some ino =>
      obtain ⟨hret, rfl, entries, hname, rfl⟩ := createGeneric_grow hgen
      simp only [Option.some.injEq, Prod.mk.injEq] at hcall
      obtain ⟨rfl, rfl, rfl⟩ := hcall
      refine ⟨hret, rfl, entries, hname, ?_⟩
      simp only [Fs.inoRef, Fs.setInode, Fs.grow, Function.update_self, Function.update_idem]

theorem mkdir_grow {ret : Int} (hcall : ramfsInoMkdir fs dir name mode = some (ret, fs')) :
    fs' = fs ∨ ret = 0 ∧ ∃ entries, fs.CanName dir name entries ∧
      fs' = fs.grow dir entries name { fs.freshInode (mode &&& 0xfff ||| sIfdir) with
        refcnt := ((fs.inodes fs.next).refcnt + 1) % 2 ^ 32 }
          (some [⟨[dot], fs.next⟩, ⟨[dot, dot], dir⟩]) := by
  obtain ⟨⟨ret', hit, fs₁⟩, hgen, hcall⟩ := Option.bind_eq_some_iff.mp hcall
  cases hit with
  | none =>
      simp only [Option.some.injEq, Prod.mk.injEq] at hcall
      obtain ⟨rfl, rfl⟩ := hcall
      exact .inl (createGeneric_none hgen)
  | some ino =>
      obtain ⟨hret, rfl, entries, hname, rfl⟩ := createGeneric_grow hgen
      simp only [Option.some.injEq, Prod.mk.injEq] at hcall
      obtain ⟨rfl, rfl⟩ := hcall
      refine .inr ⟨hret, entries, hname, ?_⟩
      simp only [Fs.setEntries, Fs.grow, Function.update_idem]

theorem mknod_grow {ret : Int} {device : Nat}
    (hcall : ramfsInoMknod fs dir name mode device = some (ret, fs')) :
    fs' = fs ∨ ret = 0 ∧ mode &&& 0xf000 ≠ sIfdir ∧ ∃ entries, fs.CanName dir name entries ∧
      fs' = fs.grow dir entries name { fs.freshInode mode with
        refcnt := ((fs.inodes fs.next).refcnt + 1) % 2 ^ 32
        dev := device } none := by
  unfold ramfsInoMknod at hcall
  split_ifs at hcall with hmode
  · obtain ⟨⟨ret', hit, fs₁⟩, hgen, hcall⟩ := Option.bind_eq_some_iff.mp hcall
    cases hit with
    | none => simp at hcall
    | some ino =>
        obtain ⟨hret, rfl, entries, hname, rfl⟩ := createGeneric_grow hgen
        simp only [Option.some.injEq, Prod.mk.injEq] at hcall
        obtain ⟨rfl, rfl⟩ := hcall
        refine .inr ⟨hret, ?_, entries, hname, ?_⟩
        · rcases hmode with hmode | hmode <;> rw [hmode] <;> decide
        · simp only [Fs.setInode, Fs.grow, Function.update_self, Function.update_idem]
  · simp only [Option.some.injEq, Prod.mk.injEq] at hcall
    exact .inl hcall.2.symm

theorem typed_mode (mode type : Nat) (htype : type &&& 0xf000 = type) :
    (mode &&& 0xfff ||| type) &&& 0xf000 = type := by
  have hlow : (mode &&& 0xfff) &&& 0xf000 = 0 := by
    rw [Nat.and_assoc]
    exact Nat.and_zero mode
  rw [Nat.and_or_distrib_right, hlow, htype, Nat.zero_or]

/-- The list that an inode of this mode is given. -/
def DirList (mode ino dir : Nat) (list : Option (List DirEntry)) : Prop :=
  (mode &&& 0xf000 = sIfdir ∧ list = some [⟨[dot], ino⟩, ⟨[dot, dot], dir⟩]) ∨
    (mode &&& 0xf000 ≠ sIfdir ∧ list = none)

theorem treeStep_grow {call : TreeCall} (hcall : fs.treeStep call = some fs') :
    fs' = fs ∨ ∃ dir name entries ino list, fs.CanName dir name entries ∧
      ino.id = fs.inoCounter ∧ DirList ino.mode fs.next dir list ∧
      fs' = fs.grow dir entries name ino list := by
  cases call with
  | create dir name mode =>
      obtain ⟨⟨ret, found, fs₁⟩, hr, rfl⟩ := Option.map_eq_some_iff.mp hcall
      obtain ⟨-, -, entries, hname, rfl⟩ := create_grow hr
      refine .inr ⟨dir, name, entries, _, none, hname, rfl, .inr ⟨?_, rfl⟩, rfl⟩
      have htype := typed_mode mode sIfreg (by decide)
      simp only [Fs.freshInode, htype]
      decide
  | mkdir dir name mode =>
      obtain ⟨⟨ret, fs₁⟩, hr, rfl⟩ := Option.map_eq_some_iff.mp hcall
      rcases mkdir_grow hr with rfl | ⟨-, entries, hname, rfl⟩
      · exact .inl rfl
      · exact .inr ⟨dir, name, entries, _, _, hname, rfl,
          .inl ⟨typed_mode mode sIfdir (by decide), rfl⟩, rfl⟩
  | mknod dir name mode device =>
      obtain ⟨⟨ret, fs₁⟩, hr, rfl⟩ := Option.map_eq_some_iff.mp hcall
      rcases mknod_grow hr with rfl | ⟨-, hmode, entries, hname, rfl⟩
      · exact .inl rfl
      · exact .inr ⟨dir, name, entries, _, none, hname, rfl, .inr ⟨hmode, rfl⟩, rfl⟩

/-- An inode that has not been taken has no list. -/
def Fs.Unused (fs : Fs) : Prop := ∀ i, fs.next ≤ i → fs.dirEntries i = none

theorem Fs.Unused.dir_lt (h : fs.Unused) {entries : List DirEntry}
    (hl : fs.dirEntries dir = some entries) : dir < fs.next := by
  by_contra hge
  simp [h dir (Nat.le_of_not_lt hge)] at hl

theorem Fs.Sound.dir_lt (h : fs.Sound) {entries : List DirEntry}
    (hl : fs.dirEntries dir = some entries) : dir < fs.next := Fs.Unused.dir_lt h.unused hl

section grow
variable {entries : List DirEntry} {ino : Inode} {list : Option (List DirEntry)}

theorem grow_list_self : (fs.grow dir entries name ino list).dirEntries fs.next = list := by
  simp [Fs.grow]

theorem grow_list_of_ne (hi : i ≠ fs.next) : (fs.grow dir entries name ino list).dirEntries i =
    if i = dir then some (⟨name, fs.next⟩ :: entries) else fs.dirEntries i := by
  simp only [Fs.grow, Function.update_of_ne hi]
  split_ifs with hd
  · rw [hd, Function.update_self]
  · rw [Function.update_of_ne hd]

theorem Fs.Unused.grow (h : fs.Unused) (hname : fs.CanName dir name entries) :
    (fs.grow dir entries name ino list).Unused := by
  intro k hk
  have hk' : fs.next < k := hk
  rw [grow_list_of_ne (Nat.ne_of_gt hk'), if_neg (Nat.ne_of_gt (lt_trans (h.dir_lt hname.list) hk'))]
  exact h k (Nat.le_of_lt hk')

theorem Fs.Sound.grow (h : fs.Sound) (hname : fs.CanName dir name entries)
    (hlist : DirList ino.mode fs.next dir list) : (fs.grow dir entries name ino list).Sound := by
  have hdir := h.dir_lt hname.list
  refine ⟨Nat.lt_succ_of_lt h.root_lt, fun k hk => ?_, fun k xs hxs e he => ?_,
    Fs.Unused.grow h.unused hname, h.cache_nil⟩
  · by_cases hkn : k = fs.next
    · subst hkn
      rw [grow_list_self]
      rcases hlist with ⟨hmode, rfl⟩ | ⟨hmode, rfl⟩
      · simp [Fs.isDir, Fs.grow, inoType, hmode]
      · simp [Fs.isDir, Fs.grow, inoType, hmode]
    · have hk' : k < fs.next := lt_of_le_of_ne (Nat.le_of_lt_succ hk) hkn
      have hisdir : (fs.grow dir entries name ino list).isDir k = fs.isDir k := by
        simp [Fs.isDir, Fs.grow, hkn]
      rw [hisdir, h.dirs k hk', grow_list_of_ne hkn]
      split_ifs with hkd
      · simp [hkd, hname.list]
      · rfl
  · by_cases hkn : k = fs.next
    · subst hkn
      rw [grow_list_self] at hxs
      rcases hlist with ⟨-, rfl⟩ | ⟨-, rfl⟩
      · obtain rfl := Option.some.inj hxs
        simp only [List.mem_cons, List.not_mem_nil, or_false] at he
        rcases he with rfl | rfl
        · exact Nat.lt_succ_self fs.next
        · exact Nat.lt_succ_of_lt hdir
      · contradiction
    · rw [grow_list_of_ne hkn] at hxs
      split_ifs at hxs with hkd
      · obtain rfl := Option.some.inj hxs
        rcases List.mem_cons.mp he with rfl | he
        · exact Nat.lt_succ_self fs.next
        · exact Nat.lt_succ_of_lt (h.targets dir entries hname.list e he)
      · exact Nat.lt_succ_of_lt (h.targets k xs hxs e he)

end grow

theorem treeStep_sound {call : TreeCall} (h : fs.Sound) (hcall : fs.treeStep call = some fs') :
    fs'.Sound := by
  rcases treeStep_grow hcall with rfl | ⟨dir, name, entries, ino, list, hname, -, hlist, rfl⟩
  · exact h
  · exact h.grow hname hlist

end steps

theorem readSb_sound (memory : Nat → Inode) : (ramfsReadSb memory).Sound := by
  refine Fs.Sound.inoRef ⟨Nat.zero_lt_one, fun i hi => ?_, fun i entries hl e he => ?_, fun i hi => ?_, rfl⟩ 0
  · obtain rfl : i = 0 := by simpa using hi
    simp [Fs.isDir, inoType, sIfdir]
  · by_cases hi : i = 0
    · subst hi
      simp only [Function.update_self, Option.some.injEq] at hl
      subst hl
      simp only [List.mem_cons, List.not_mem_nil, or_false] at he
      rcases he with rfl | rfl <;> exact Nat.zero_lt_one
    · simp [hi] at hl
  · have hne : i ≠ 0 := by
      simp only at hi
      omega
    simp [hne]

theorem run_sound {memory : Nat → Inode} {calls : List TreeCall} {fs : Fs}
    (hrun : run Fs.treeStep (ramfsReadSb memory) calls = some fs) : fs.Sound :=
  run_preserves Fs.Sound (fun _ _ _ => treeStep_sound) (readSb_sound memory) hrun

/-! ### A small tree -/

/-- The string with these bytes. -/
def cstring (bytes : List UInt8) : CString :=
  bytes.filterMap fun b => if h : b ≠ 0 then some ⟨b, h⟩ else none

/-- An object that has not been used before. -/
def blankInode : Inode := ⟨0, 0, 0, 0, 0, 0, 0, ⟨[], 0⟩⟩

/-- A directory `ab` with a file `c`. -/
def nestedTree : List TreeCall := [.mkdir 0 (cstring [97, 98]) 0, .create 1 (cstring [99]) 0]

/-! ### A name that is there already -/

def TreeCall.dir : TreeCall → Nat
  | .create dir _ _ => dir
  | .mkdir dir _ _ => dir
  | .mknod dir _ _ _ => dir

def TreeCall.name : TreeCall → CString
  | .create _ name _ => name
  | .mkdir _ name _ => name
  | .mknod _ name _ _ => name

/-- The mode of `mknod` is that of a device. -/
def TreeCall.ValidMode : TreeCall → Prop
  | .mknod _ _ mode _ => mode &&& 0xf000 = sIfblk ∨ mode &&& 0xf000 = sIfchr
  | _ => True

/-- The code that the call returns and the state it leaves. -/
def Fs.treeCall (fs : Fs) : TreeCall → Option (Int × Fs)
  | .create dir name mode => (ramfsInoCreate fs dir name mode).map fun r => (r.1, r.2.2)
  | .mkdir dir name mode => ramfsInoMkdir fs dir name mode
  | .mknod dir name mode device => ramfsInoMknod fs dir name mode device

def TreeCall.isMkdir : TreeCall → Bool
  | .mkdir _ _ _ => true
  | _ => false

section existing
variable {fs : Fs} {dir mode : Nat} {name : CString} {entries : List DirEntry}

theorem createGeneric_existing (hlist : fs.dirEntries dir = some entries)
    (hname : ∃ e ∈ entries, e.name = name) :
    ramfsInoCreateGeneric fs dir name mode = some (-eexist, none, fs) := by
  have hany : (entries.any fun e => decide (e.name = name)) = true := by
    simpa using hname
  simp only [ramfsInoCreateGeneric, hlist, Option.bind_eq_bind, Option.bind_some, if_pos hany]

/-- In every tree and for every name that a directory has, at any position of its list: the
call returns `-EEXIST` and changes nothing exactly when it is `ramfs_ino_mkdir`. -/
theorem existing_name_refused_iff {call : TreeCall} (hlist : fs.dirEntries call.dir = some entries)
    (hname : ∃ e ∈ entries, e.name = call.name) (hmode : call.ValidMode) :
    fs.treeCall call = some (-eexist, fs) ↔ call.isMkdir = true := by
  have hgen : ∀ mode, ramfsInoCreateGeneric fs call.dir call.name mode = some (-eexist, none, fs) :=
    fun _ => createGeneric_existing hlist hname
  cases call with
  | create dir name mode =>
      dsimp only [TreeCall.dir, TreeCall.name] at hgen
      have hfault : ramfsInoCreate fs dir name mode = none := by
        rw [ramfsInoCreate, hgen]
        rfl
      simp [Fs.treeCall, hfault, TreeCall.isMkdir]
  | mkdir dir name mode =>
      dsimp only [TreeCall.dir, TreeCall.name] at hgen
      have hrefused : ramfsInoMkdir fs dir name mode = some (-eexist, fs) := by
        rw [ramfsInoMkdir, hgen]
        rfl
      simp [Fs.treeCall, hrefused, TreeCall.isMkdir]
  | mknod dir name mode device =>
      dsimp only [TreeCall.dir, TreeCall.name] at hgen
      have hfault : ramfsInoMknod fs dir name mode device = none := by
        rw [ramfsInoMknod, if_pos (show _ ∨ _ from hmode), hgen]
        rfl
      simp [Fs.treeCall, hfault, TreeCall.isMkdir]

/-- A second root is refused. -/
theorem existing_root_refused :
    (ramfsReadSb fun _ => blankInode).treeCall (.mkdir 0 [dot, dot] 0) =
      some (-eexist, ramfsReadSb fun _ => blankInode) := by
  have hlist : (ramfsReadSb fun _ => blankInode).dirEntries (TreeCall.mkdir 0 [dot, dot] 0).dir =
      some [⟨[dot], 0⟩, ⟨[dot, dot], 0⟩] := rfl
  have hname : ∃ e ∈ [(⟨[dot], 0⟩ : DirEntry), ⟨[dot, dot], 0⟩],
      e.name = (TreeCall.mkdir 0 [dot, dot] 0).name := ⟨⟨[dot, dot], 0⟩, by simp, rfl⟩
  exact (existing_name_refused_iff hlist hname trivial).mpr rfl

/-- Creating `.` in a new tree follows the null pointer. -/
theorem existing_name_faults :
    ¬ ∀ (memory : Nat → Inode) (calls : List TreeCall) (fs : Fs) (entries : List DirEntry)
      (call : TreeCall), run Fs.treeStep (ramfsReadSb memory) calls = some fs →
        fs.dirEntries call.dir = some entries → (∃ e ∈ entries, e.name = call.name) →
        call.ValidMode → fs.treeCall call = some (-eexist, fs) := by
  intro hall
  have hcall := hall (fun _ => blankInode) [] _ [⟨[dot], 0⟩, ⟨[dot, dot], 0⟩] (.create 0 [dot] 0) rfl rfl
    ⟨⟨[dot], 0⟩, by simp, rfl⟩ trivial
  have hfault : (ramfsReadSb fun _ => blankInode).treeCall (.create 0 [dot] 0) = none := rfl
  rw [hfault] at hcall
  contradiction

end existing

end Lucix.Ramfs
