import Lucix.VfsTree
import Lucix.VfsRefs

/-! Runs of the calls of `fs/vfs.c` with the reads, writes and seeks on open files, against a tree of directories
and of files that are sequences of bytes. -/
namespace Lucix.FileIo
open Execution

variable {ι κ φ : Type*} [DecidableEq ι] [DecidableEq κ] [DecidableEq φ]

def FileCall.target : FileCall φ → φ
  | .read file _ => file
  | .write file _ => file
  | .lseek file _ _ => file

theorem read_mode {fuel count pos : Nat} {heap : PageHeap} {ino : Inode} {s : ReadLoop}
    (hdone : genericFileRead fuel heap ino count pos = .done s) : s.ino.mode = ino.mode := by
  unfold genericFileRead at hdone
  split_ifs at hdone
  · obtain rfl := Outcome.done.inj hdone
    rfl
  · refine whileFuel_preserves (fun s => s.ino.mode = ino.mode) ?_ rfl hdone
    intro s t hmode _ hbody
    unfold ReadLoop.body at hbody
    obtain ⟨⟨p, heap₁, map₁⟩, -, hbody⟩ := Option.bind_eq_some_iff.mp hbody
    obtain ⟨bytes, -, hbody⟩ := Option.bind_eq_some_iff.mp hbody
    obtain rfl := Option.some.inj hbody
    exact hmode

section tables
variable {capacity : ι → Nat} {a : Files ι φ} {t t' : FileTable ι φ} {u : FileTable κ φ} {inodeOf : φ → ι}
  {inodeOf' : φ → κ} {ret : FileRet}

omit [DecidableEq ι] [DecidableEq φ] in
theorem FileTable.Shows.congr {inodes : ι → Inode} (h : t.Shows capacity a)
    (hmap : ∀ i, (inodes i).fMap = (t.inodes i).fMap) (hsize : ∀ i, (inodes i).size = (t.inodes i).size) :
    FileTable.Shows capacity a { t with inodes := inodes } where
  sound i := (hmap i).symm ▸ h.sound i
  apart i j p hij hi hj := h.apart i j p hij (hmap i ▸ hi) (hmap j ▸ hj)
  slots i := (congrArg PageMapping.nrPages (hmap i)).trans (h.slots i)
  size i := (hsize i).trans (h.size i)
  content i := by
    show (inodes i).fMap.content t.heap = _
    rw [hmap i]
    exact h.content i
  inside := h.inside
  offsets := h.offsets
  offset_lt := h.offset_lt

/-- What a call does to the inode of its file, whatever the inodes are named by. -/
theorem FileTable.call_at (call : FileCall φ) (hheap : u.heap = t.heap)
    (hinode : u.inodes (inodeOf' call.target) = t.inodes (inodeOf call.target))
    (hoffset : u.offsets call.target = t.offsets call.target) (hcall : t.call inodeOf call = some (ret, t')) :
    ∃ ino pos, ino.mode = (t.inodes (inodeOf call.target)).mode ∧
      t' = ⟨t'.heap, Function.update t.inodes (inodeOf call.target) ino, Function.update t.offsets call.target pos⟩ ∧
      u.call inodeOf' call = some (ret, ⟨t'.heap, Function.update u.inodes (inodeOf' call.target) ino,
        Function.update u.offsets call.target pos⟩) := by
  cases call with
  | read file count =>
      simp only [FileCall.target] at *
      unfold FileTable.call at hcall ⊢
      dsimp only at hcall ⊢
      rw [hheap, hinode, hoffset]
      split at hcall
      · rename_i s hdone
        simp only [Option.some.injEq, Prod.mk.injEq] at hcall
        obtain ⟨rfl, rfl⟩ := hcall
        exact ⟨s.ino, s.pos, read_mode hdone, rfl, rfl⟩
      · contradiction
  | write file src =>
      simp only [FileCall.target] at *
      unfold FileTable.call at hcall ⊢
      dsimp only at hcall ⊢
      rw [hheap, hinode, hoffset]
      split at hcall
      · rename_i s hdone
        simp only [Option.some.injEq, Prod.mk.injEq] at hcall
        obtain ⟨rfl, rfl⟩ := hcall
        exact ⟨s.ino, s.pos, write_mode hdone, rfl, rfl⟩
      · contradiction
  | lseek file offset whence =>
      simp only [FileCall.target] at *
      unfold FileTable.call at hcall ⊢
      simp only [Option.some.injEq, Prod.mk.injEq] at hcall
      obtain ⟨rfl, rfl⟩ := hcall
      refine ⟨t.inodes (inodeOf file), _, rfl, by rw [Function.update_eq_self], ?_⟩
      dsimp only
      rw [hinode, hoffset, ← hinode, Function.update_eq_self, ← hheap]

end tables
end Lucix.FileIo

namespace Lucix.Vfs
open Ramfs Execution FileIo

/-! ### The calls -/

/-- The mounted tree and the open files, over the pages of the files. -/
structure Disk where
  vfs : State
  heap : PageHeap

inductive Call where
  | mkdir (dir : Path) (name : CString) (mode : Nat)
  | open (dir : Path) (name : CString) (oflags mode : Nat)
  | close (id : Nat)
  | file (call : FileCall Nat)
  deriving DecidableEq

inductive Ret where
  | code (ret : Int)
  | opened (file : Option Nat)
  | closed
  | file (ret : FileRet)
  deriving DecidableEq

def State.file (s : State) (id : Nat) : Option File := s.files.find? fun f => decide (f.id = id)

/-- A read, write or seek on an open regular file. -/
def Disk.fileCall (d : Disk) (call : FileCall Nat) : Option (FileRet × Disk) := do
  let fs ← d.vfs.rootFs
  let file ← d.vfs.file call.target
  if inoType (fs.inodes file.inode) ≠ sIfreg then none
  else do
    let (ret, t) ← FileTable.call (fun _ => file.inode) ⟨d.heap, fs.inodes, fun _ => file.offset⟩ call
    some (ret, ⟨{ d.vfs.setFs { fs with inodes := t.inodes } with
      files := d.vfs.files.map fun f =>
        if f.id = call.target then { f with offset := t.offsets call.target } else f }, t.heap⟩)

def Disk.call (mach : Machine) (d : Disk) : Call → Option (Ret × Disk)
  | .mkdir dir name mode =>
      (vfsMkdir d.vfs (joinPath (dir ++ [name])) mode).map fun (ret, vfs) => (.code ret, { d with vfs := vfs })
  | .open dir name oflags mode =>
      (vfsOpen mach d.vfs (joinPath (dir ++ [name])) oflags mode).map fun (file, vfs) =>
        (.opened file, { d with vfs := vfs })
  | .close id => (vfsClose d.vfs id).map fun vfs => (.closed, { d with vfs := vfs })
  | .file call => (d.fileCall call).map fun (ret, d) => (.file ret, d)

/-! ### A tree of directories and byte sequences -/

/-- What there is at each path, what the files hold, and the path and offset of each open file. -/
structure Tree where
  kind : Path → Option Bool
  files : Files Path Nat
  paths : Nat → Option Path
  next : Nat

/-- A root directory. -/
def Tree.empty : Tree := ⟨fun p => if p = [] then some true else none, ⟨fun _ => [], fun _ => 0⟩, fun _ => none, 0⟩

def Tree.path (a : Tree) (id : Nat) : Path := (a.paths id).getD []

def Tree.opening (a : Tree) (p : Path) : Tree where
  kind := a.kind
  files := { a.files with offsets := Function.update a.files.offsets a.next 0 }
  paths := Function.update a.paths a.next (some p)
  next := a.next + 1

def Tree.call (a : Tree) : Call → Ret × Tree
  | .mkdir dir name _ => (.code (mkdirAt a.kind dir name).1, { a with kind := (mkdirAt a.kind dir name).2 })
  | .open dir name oflags _ =>
      let after := { a with kind := (openAt a.kind dir name oflags).2 }
      if (openAt a.kind dir name oflags).1 then (.opened (some a.next), after.opening (dir ++ [name]))
      else (.opened none, after)
  | .close id => (.closed, { a with paths := Function.update a.paths id none })
  | .file call => (.file (a.files.call a.path call).1, { a with files := (a.files.call a.path call).2 })

def Tree.step (a : Tree) (call : Call) : Option (Ret × Tree) := some (a.call call)

/-- Names that paths may use: they are no beginnings of one another. -/
structure Spelling (V : CString → Prop) : Prop where
  plain : ∀ c, V c → Plain c
  short : ∀ c, V c → c.length < ramfsMaxFilename
  free : PrefixFree V

/-- No path goes through a file, a file is made in a directory that is there, and reads and writes fit. -/
def Tree.Allowed (V : CString → Prop) (a : Tree) : Call → Prop
  | .mkdir dir name _ => (∀ e ∈ dir ++ [name], V e) ∧ ∀ q ∈ dir.inits, a.kind q ≠ some false
  | .open dir name oflags _ => (∀ e ∈ dir ++ [name], V e) ∧ (∀ q ∈ dir.inits, a.kind q ≠ some false) ∧
      (a.kind (dir ++ [name]) = none → oflags &&& oCreat ≠ 0 → a.kind dir = some true)
  | .close id => (a.paths id).isSome
  | .file call => (a.paths call.target).isSome ∧ a.kind (a.path call.target) = some false ∧
      Files.Fits (fun _ => 2) a.path (a.files, []) call

/-! ### The kernel shows the tree -/

/-- The inode of a file, and that of a new file where there is none. -/
def fileAt (N : Names) (fs : Fs) (q : Path) : Inode :=
  if N.kind q = some false then fs.inodes (N.inode q) else newFile

structure Disk.ShowsBy (V : CString → Prop) (N : Names) (fs : Fs) (a : Tree) (d : Disk) : Prop where
  root_eq : d.vfs.rootFs = some fs
  sound : N.Sound
  shows : N.Shows fs
  names : ∀ x ∈ N.nodes, V x.name
  kind_eq : N.kind = a.kind
  blank : ∀ i, (∀ q, N.kind q = some false → N.inode q ≠ i) → (fs.inodes i).size = 0
  files : FileTable.Shows (fun _ => 2) a.files ⟨d.heap, fileAt N fs, a.files.offsets⟩
  opened : ∀ id q, a.paths id = some q → id < a.next ∧ q ∈ N.paths ∧
    ∃ file, d.vfs.file id = some file ∧ file.inode = N.inode q ∧ file.offset = a.files.offsets id
  next_eq : d.vfs.nextFile = a.next

section steps
variable {V : CString → Prop} {N N' : Names} {fs fs' : Fs} {a : Tree} {d : Disk} {q : Path}

theorem mem_paths_of_kind {k : Bool} (h : N.kind q = some k) : q ∈ N.paths := by
  by_contra hq
  rw [Names.kind_none.mpr hq] at h
  contradiction

/-- A call that only adds a path leaves the files as they are. -/
theorem fileAt_grown (hshows : N.Shows fs) (hgrown : N.Grown V fs N' fs')
    (hold : ∀ q ∈ N.paths, N'.kind q = N.kind q)
    (hnew : ∀ q, q ∉ N.paths → N'.kind q = some false →
      N'.inode q = fs.next ∧ (fs'.inodes fs.next).fMap = ⟨[none, none], 2⟩)
    (hblank : ∀ i, (∀ q, N.kind q = some false → N.inode q ≠ i) → (fs.inodes i).size = 0) (q : Path) :
    (fileAt N' fs' q).fMap = (fileAt N fs q).fMap ∧ (fileAt N' fs' q).size = (fileAt N fs q).size := by
  unfold fileAt
  by_cases hq : q ∈ N.paths
  · rw [hold q hq]
    split_ifs
    · have hlt : N.inode q ≠ fs.next := by
        rw [hshows.next_eq]
        exact Nat.ne_of_lt (Names.inode_lt hq)
      rw [hgrown.inode q hq]
      exact ⟨hgrown.fMap _ hlt, hgrown.size _⟩
    · exact ⟨rfl, rfl⟩
  · have hfree : N.kind q ≠ some false := fun h => hq (mem_paths_of_kind h)
    rw [if_neg hfree]
    split_ifs with hfile
    · obtain ⟨hinode, hmap⟩ := hnew q hq hfile
      rw [hinode]
      refine ⟨hmap, ?_⟩
      rw [hgrown.size]
      refine hblank _ fun p hp => ?_
      rw [hshows.next_eq]
      exact Nat.ne_of_lt (Names.inode_lt (mem_paths_of_kind hp))
    · exact ⟨rfl, rfl⟩

theorem Disk.ShowsBy.grown (h : d.ShowsBy V N fs a) (hgrown : N.Grown V fs N' fs')
    (hold : ∀ q ∈ N.paths, N'.kind q = N.kind q)
    (hnew : ∀ q, q ∉ N.paths → N'.kind q = some false →
      N'.inode q = fs.next ∧ (fs'.inodes fs.next).fMap = ⟨[none, none], 2⟩) :
    Disk.ShowsBy V N' fs' { a with kind := N'.kind } { d with vfs := d.vfs.setFs fs' } where
  root_eq := rfl
  sound := hgrown.sound
  shows := hgrown.shows
  names := hgrown.names
  kind_eq := rfl
  blank i hi := by
    rw [hgrown.size]
    refine h.blank i fun q hq => ?_
    have hmem := mem_paths_of_kind hq
    rw [← hgrown.inode q hmem]
    exact hi q ((hold q hmem).trans hq)
  files := h.files.congr (fun q => (fileAt_grown h.shows hgrown hold hnew h.blank q).1)
    fun q => (fileAt_grown h.shows hgrown hold hnew h.blank q).2
  opened id q hid := by
    obtain ⟨hlt, hq, file, hfile, hinode, hoffset⟩ := h.opened id q hid
    have hmem : q ∈ N'.paths := by
      by_contra hnot
      have hnone := hold q hq
      rw [Names.kind_none.mpr hnot] at hnone
      exact Names.kind_none.mp hnone.symm hq
    exact ⟨hlt, hmem, file, hfile, hinode.trans (hgrown.inode q hq).symm, hoffset⟩
  next_eq := h.next_eq

theorem Disk.ShowsBy.opening (h : d.ShowsBy V N fs a) (hq : q ∈ N.paths) (oflags count : Nat) :
    Disk.ShowsBy V N fs (a.opening q)
      { d with vfs := { d.vfs with
          files := ⟨d.vfs.nextFile, N.inode q, oflags, 0, count⟩ :: d.vfs.files
          nextFile := d.vfs.nextFile + 1 } } where
  root_eq := h.root_eq
  sound := h.sound
  shows := h.shows
  names := h.names
  kind_eq := h.kind_eq
  blank := h.blank
  files := {
    sound := h.files.sound
    apart := h.files.apart
    slots := h.files.slots
    size := h.files.size
    content := h.files.content
    inside := h.files.inside
    offsets := rfl
    offset_lt := fun id => by
      show Function.update a.files.offsets a.next 0 id < 2 ^ 64
      rw [Function.update_apply]
      split_ifs
      · norm_num
      · exact h.files.offset_lt id }
  opened id p hid := by
    by_cases hnew : id = a.next
    · subst hnew
      obtain rfl : q = p := by simpa [Tree.opening] using hid
      refine ⟨Nat.lt_succ_self _, hq, ⟨d.vfs.nextFile, N.inode q, oflags, 0, count⟩, ?_, rfl, ?_⟩
      · simp [State.file, h.next_eq]
      · simp [Tree.opening]
    · have hold : a.paths id = some p := by simpa [Tree.opening, hnew] using hid
      obtain ⟨hlt, hp, file, hfile, hinode, hoffset⟩ := h.opened id p hold
      refine ⟨Nat.lt_succ_of_lt hlt, hp, file, ?_, hinode, ?_⟩
      · have hne : ¬ d.vfs.nextFile = id := by
          rw [h.next_eq]
          exact Ne.symm hnew
        simpa [State.file, hne] using hfile
      · simpa [Tree.opening, hnew] using hoffset
  next_eq := congrArg (· + 1) h.next_eq

theorem Disk.ShowsBy.closing (h : d.ShowsBy V N fs a) (id : Nat) {files : List File}
    (hfiles : ∀ id', id' ≠ id → State.file { d.vfs with files := files } id' = d.vfs.file id') :
    Disk.ShowsBy V N fs { a with paths := Function.update a.paths id none }
      { d with vfs := { d.vfs with files := files } } where
  root_eq := h.root_eq
  sound := h.sound
  shows := h.shows
  names := h.names
  kind_eq := h.kind_eq
  blank := h.blank
  files := h.files
  opened id' p hid := by
    by_cases hsame : id' = id
    · subst hsame
      simp at hid
    · have hold : a.paths id' = some p := by simpa [hsame] using hid
      obtain ⟨hlt, hp, file, hfile, hrest⟩ := h.opened id' p hold
      exact ⟨hlt, hp, file, (hfiles id' hsame).trans hfile, hrest⟩
  next_eq := h.next_eq

theorem find_map {f : File → File} (hid : ∀ g, (f g).id = g.id) (files : List File) (id : Nat) :
    (files.map f).find? (fun g => decide (g.id = id)) = (files.find? fun g => decide (g.id = id)).map f := by
  have hsame : ((fun g : File => decide (g.id = id)) ∘ f) = fun g => decide (g.id = id) := by
    funext g
    simp [hid]
  rw [List.find?_map, hsame]

theorem State.file_id {s : State} {id : Nat} {file : File} (h : s.file id = some file) : file.id = id := by
  simpa using List.find?_some h

/-- The function `vfs_close` gives up a reference to the inode or keeps it, and leaves the other open files. -/
theorem vfsClose_files {s : State} {id : Nat} {file : File} (hroot : s.rootFs = some fs)
    (hfile : s.file id = some file) :
    ∃ fs' files, (fs' = fs.inoDeref file.inode ∨ fs' = fs) ∧
      vfsClose s id = some { s.setFs fs' with files := files } ∧
      ∀ id', id' ≠ id → State.file { s with files := files } id' = s.file id' := by
  unfold State.file at hfile
  unfold vfsClose
  rw [hroot, Option.bind_eq_bind, Option.bind_some, hfile, Option.bind_eq_bind, Option.bind_some]
  generalize (file.refcnt + 2 ^ 32 - 1) % 2 ^ 32 = refcnt
  by_cases hlast : refcnt = 0
  · refine ⟨fs.inoDeref file.inode, _, .inl rfl, if_pos hlast, fun id' hne => ?_⟩
    unfold State.file
    rw [List.find?_filter]
    congr 1
    funext f
    by_cases hf : f.id = id'
    · simp [hf, hne]
    · simp [hf]
  · have hmnt : s.mntRoot = some (some fs) := Option.join_eq_some_iff.mp hroot
    refine ⟨fs, s.files.map fun f => if f.id = id then { f with refcnt := refcnt } else f, .inr rfl, ?_,
      fun id' hne => ?_⟩
    · simp only [if_neg hlast, State.setFs, hmnt]
    · have hmap : State.file { s with files := s.files.map fun f =>
          if f.id = id then { f with refcnt := refcnt } else f } id' =
          (s.file id').map fun f => if f.id = id then { f with refcnt := refcnt } else f :=
        find_map (fun g => by split_ifs <;> rfl) s.files id'
      rw [hmap]
      cases hfind : s.file id' with
      | none => rfl
      | some g => rw [Option.map_some, if_neg (State.file_id hfind ▸ hne)]

theorem Disk.ShowsBy.close (h : d.ShowsBy V N fs a) {id : Nat} (hid : (a.paths id).isSome) :
    ∃ vfs fs', vfsClose d.vfs id = some vfs ∧
      Disk.ShowsBy V N fs' { a with paths := Function.update a.paths id none } { d with vfs := vfs } := by
  obtain ⟨p, hp⟩ := Option.isSome_iff_exists.mp hid
  obtain ⟨-, -, file, hfile, -, -⟩ := h.opened id p hp
  obtain ⟨fs', files, hfs, hclose, hothers⟩ := vfsClose_files h.root_eq hfile
  have hgrown : N.Grown V fs N fs' := by
    rcases hfs with rfl | rfl
    · exact (Names.Grown.same h.sound (h.shows.inoDeref _) h.names rfl (.inoDeref fs _)).1
    · exact (Names.Grown.same h.sound h.shows h.names rfl (.refl _)).1
  have hshown := h.grown hgrown (fun q _ => rfl) fun q hq hfile => absurd (mem_paths_of_kind hfile) hq
  rw [h.kind_eq] at hshown
  exact ⟨_, fs', hclose, hshown.closing id hothers⟩

/-- A file with a new inode, through an open file that has moved. -/
theorem Disk.ShowsBy.stored (h : d.ShowsBy V N fs a) {id pos : Nat} {ino : Inode} {heap : PageHeap}
    {files : Files Path Nat} (hkind : N.kind q = some false) (hmode : ino.mode = (fs.inodes (N.inode q)).mode)
    (hshown : FileTable.Shows (fun _ => 2) files
      ⟨heap, Function.update (fileAt N fs) q ino, Function.update a.files.offsets id pos⟩) :
    Disk.ShowsBy V N (fs.setInode (N.inode q) ino) { a with files := files }
      ⟨{ d.vfs.setFs (fs.setInode (N.inode q) ino) with
        files := d.vfs.files.map fun f => if f.id = id then { f with offset := pos } else f }, heap⟩ where
  root_eq := rfl
  sound := h.sound
  shows :=
    have hstored : Initramfs.Stored fs (N.inode q) ino (fs.setInode (N.inode q) ino) := ⟨rfl, rfl, rfl, rfl, .refl _⟩
    hstored.shows' h.shows hmode
  names := h.names
  kind_eq := h.kind_eq
  blank i hi := by
    have hne : i ≠ N.inode q := fun heq => hi q hkind heq.symm
    simpa [Fs.setInode, hne] using h.blank i hi
  files := by
    have hfiles : fileAt N (fs.setInode (N.inode q) ino) = Function.update (fileAt N fs) q ino := by
      funext p
      unfold fileAt
      by_cases hp : p = q
      · subst hp
        simp [hkind, Fs.setInode]
      · rw [Function.update_of_ne hp]
        split_ifs with hfile
        · have hne : N.inode p ≠ N.inode q := mt (Names.inode_inj (mem_paths_of_kind hfile)).mp hp
          simp [Fs.setInode, hne]
        · rfl
    rw [hfiles, ← hshown.offsets]
    exact hshown
  opened id' p hid := by
    obtain ⟨hlt, hp, file, hfile, hinode, hoffset⟩ := h.opened id' p hid
    refine ⟨hlt, hp, _, (find_map (fun g => by split_ifs <;> rfl) d.vfs.files id').trans
      (congrArg (Option.map _) hfile), ?_, ?_⟩
    · dsimp only
      split_ifs <;> exact hinode
    · rw [← hshown.offsets]
      by_cases hsame : id' = id
      · simp [State.file_id hfile, hsame]
      · simp [State.file_id hfile, hsame, hoffset]
  next_eq := h.next_eq

theorem Disk.ShowsBy.fileCall (h : d.ShowsBy V N fs a) {call : FileCall Nat}
    (hallowed : a.Allowed V (.file call)) :
    ∃ d' fs', d.fileCall call = some ((a.files.call a.path call).1, d') ∧
      d'.ShowsBy V N fs' { a with files := (a.files.call a.path call).2 } := by
  obtain ⟨hopen, hkind, hfits⟩ := hallowed
  obtain ⟨q, hq⟩ := Option.isSome_iff_exists.mp hopen
  have hpath : a.path call.target = q := by rw [Tree.path, hq, Option.getD_some]
  rw [hpath, ← h.kind_eq] at hkind
  obtain ⟨-, hmem, file, hfile, hinode, hoffset⟩ := h.opened _ q hq
  have hcalled : ∃ t', FileTable.call a.path ⟨d.heap, fileAt N fs, a.files.offsets⟩ call =
      some ((a.files.call a.path call).1, t') ∧
      FileTable.Shows (fun _ => 2) (a.files.call a.path call).2 t' := by
    cases call with
    | read f count => exact shows_read h.files f hfits
    | write f src => exact shows_write h.files f hfits
    | lseek f offset whence => exact shows_lseek h.files f whence hfits
  obtain ⟨t', hcall, hshown⟩ := hcalled
  have hat : fileAt N fs q = fs.inodes (N.inode q) := if_pos hkind
  obtain ⟨ino, pos, hmode, ht', hcall'⟩ := @FileTable.call_at Path Nat Nat _ _ _ _ t'
    ⟨d.heap, fs.inodes, fun _ => file.offset⟩ a.path (fun _ => N.inode q) _ call rfl
    (by rw [hpath]; exact hat.symm) hoffset hcall
  rw [hpath] at hmode ht'
  rw [ht'] at hshown
  have hreg : inoType (fs.inodes (N.inode q)) = sIfreg := by
    rw [h.shows.types q hmem, if_neg (by simp [(Names.kind_false.mp hkind).2])]
  refine ⟨_, _, ?_, h.stored hkind (hmode.trans (congrArg Inode.mode hat)) hshown⟩
  unfold Disk.fileCall
  simp only [h.root_eq, hfile, hinode, hcall', Option.bind_eq_bind, Option.bind_some, hreg, ne_eq,
    not_true_eq_false, if_false, Function.update_self]
  rfl

theorem Disk.ShowsBy.mkdir (hV : Spelling V) (mach : Machine) (h : d.ShowsBy V N fs a) {dir : Path} {name : CString}
    {mode : Nat} (hallowed : a.Allowed V (.mkdir dir name mode)) :
    ∃ d' N' fs', d.call mach (.mkdir dir name mode) = some ((a.call (.mkdir dir name mode)).1, d') ∧
      d'.ShowsBy V N' fs' (a.call (.mkdir dir name mode)).2 := by
  obtain ⟨hnames, hways⟩ := hallowed
  obtain ⟨N', fs', hcall, hgrown, hkind⟩ := vfsMkdir_kind h.root_eq hV.free hV.plain h.sound h.shows h.names
    hnames (hV.short name (hnames name (by simp)))
    (fun q hq => h.kind_eq ▸ hways q ((List.mem_inits q dir).mpr hq)) mode
  have hold : ∀ q ∈ N.paths, N'.kind q = N.kind q := by
    intro q hq
    rw [hkind, mkdirAt_old (mt Names.kind_none.mp (not_not.mpr hq))]
  have hshown := h.grown hgrown hold fun q hq hfile =>
    absurd (hkind ▸ hfile) (mkdirAt_new (Names.kind_none.mpr hq))
  rw [hkind, h.kind_eq] at hshown
  rw [h.kind_eq] at hcall
  exact ⟨_, N', fs', by rw [Disk.call, hcall]; rfl, hshown⟩

theorem Disk.ShowsBy.open (hV : Spelling V) (mach : Machine) (h : d.ShowsBy V N fs a) {dir : Path} {name : CString}
    {oflags mode : Nat} (hallowed : a.Allowed V (.open dir name oflags mode)) :
    ∃ d' N' fs', d.call mach (.open dir name oflags mode) = some ((a.call (.open dir name oflags mode)).1, d') ∧
      d'.ShowsBy V N' fs' (a.call (.open dir name oflags mode)).2 := by
  obtain ⟨hnames, hways, hmake⟩ := hallowed
  obtain ⟨N', fs', hcall, hgrown, hkind, hnew⟩ := vfsOpen_kind h.root_eq hV.free hV.plain h.sound h.shows h.names
    hnames (hV.short name (hnames name (by simp)))
    (fun q hq => h.kind_eq ▸ hways q ((List.mem_inits q dir).mpr hq)) mach (h.kind_eq ▸ hmake) mode
  have hold : ∀ q ∈ N.paths, N'.kind q = N.kind q := by
    intro q hq
    rw [hkind, openAt_old (mt Names.kind_none.mp (not_not.mpr hq))]
  have hmade : ∀ q, q ∉ N.paths → N'.kind q = some false →
      N'.inode q = fs.next ∧ (fs'.inodes fs.next).fMap = ⟨[none, none], 2⟩ := by
    intro q hq hfile
    have hnone := Names.kind_none.mpr hq
    obtain ⟨rfl, hcreat⟩ := openAt_new hnone (hkind ▸ hfile)
    exact hnew hnone hcreat
  cases hthere : (openAt a.kind dir name oflags).1 with
  | false =>
      have hshown := h.grown hgrown hold hmade
      rw [hkind, h.kind_eq] at hshown
      rw [h.kind_eq, if_neg (by simp [hthere])] at hcall
      have htree : a.call (.open dir name oflags mode) =
          (.opened none, { a with kind := (openAt a.kind dir name oflags).2 }) := by
        simp only [Tree.call, hthere, Bool.false_eq_true, if_false]
      rw [htree]
      exact ⟨_, N', fs', by rw [Disk.call, hcall]; rfl, hshown⟩
  | true =>
      -- the new file refers to the inode
      have hsame : fs'.SameFiles (fs'.inoRef (N'.inode (dir ++ [name]))) := .inoRef _ _
      have hgrown' := hgrown.counts (hgrown.shows.inoRef _) hsame
      have hmem : dir ++ [name] ∈ N'.paths := by
        by_contra hnot
        have hnone := Names.kind_none.mpr hnot
        rw [hkind, h.kind_eq] at hnone
        exact openAt_there hthere hnone
      have hshown := (h.grown hgrown' hold fun q hq hfile =>
        ⟨(hmade q hq hfile).1, (hsame.fMap _).trans (hmade q hq hfile).2⟩).opening hmem oflags
          ((mach.fileMemory d.vfs.nextFile + 1) % 2 ^ 32)
      rw [hkind, h.kind_eq] at hshown
      rw [h.kind_eq, if_pos hthere, h.next_eq] at hcall
      have htree : a.call (.open dir name oflags mode) = (.opened (some a.next),
          { a with kind := (openAt a.kind dir name oflags).2 }.opening (dir ++ [name])) := by
        simp only [Tree.call, hthere, if_true]
      rw [htree]
      exact ⟨_, N', _, by rw [Disk.call, hcall]; rfl, hshown⟩

theorem Disk.ShowsBy.call (hV : Spelling V) (mach : Machine) (h : d.ShowsBy V N fs a) {call : Call}
    (hallowed : a.Allowed V call) :
    ∃ d' N' fs', d.call mach call = some ((a.call call).1, d') ∧ d'.ShowsBy V N' fs' (a.call call).2 := by
  cases call with
  | mkdir dir name mode => exact h.mkdir hV mach hallowed
  | «open» dir name oflags mode => exact h.open hV mach hallowed
  | close id =>
      obtain ⟨vfs, fs', hclose, hshown⟩ := h.close hallowed
      exact ⟨_, N, fs', by rw [Disk.call, hclose]; rfl, hshown⟩
  | file call =>
      obtain ⟨d', fs', hcall, hshown⟩ := h.fileCall hallowed
      exact ⟨d', N, fs', by rw [Disk.call, hcall]; rfl, hshown⟩

end steps

/-! ### Runs -/

/-- Some table of names stands between the disk and the tree. -/
def Disk.Shows (V : CString → Prop) (a : Tree) (d : Disk) : Prop := ∃ N fs, d.ShowsBy V N fs a

theorem Disk.Shows.run {V : CString → Prop} {a : Tree} {d : Disk} (hV : Spelling V) (mach : Machine)
    (h : d.Shows V a) {calls : List Call} (hallowed : Guarded (silent Tree.step) (Tree.Allowed V) a calls) :
    ∃ rets a' d', answers Tree.step a calls = some (rets, a') ∧ answers (Disk.call mach) d calls = some (rets, d') ∧
      d'.Shows V a' := by
  have hstep : ∀ (a : Tree) (d : Disk) (call : Call), d.Shows V a → a.Allowed V call →
      ∃ ret d' a', d.call mach call = some (ret, d') ∧ Tree.step a call = some (ret, a') ∧ d'.Shows V a' := by
    rintro a d call ⟨N, fs, h⟩ hcall
    obtain ⟨d', N', fs', hd', h'⟩ := h.call hV mach hcall
    exact ⟨_, d', _, hd', rfl, N', fs', h'⟩
  obtain ⟨rets, a', d', htree, hdisk, hshows⟩ := answers_agree (R := fun (a : Tree) (d : Disk) => d.Shows V a)
    hstep h hallowed
  exact ⟨rets, a', d', htree, hdisk, hshows⟩

theorem empty_kind : Names.empty.kind = Tree.empty.kind := by
  funext p
  by_cases hp : p = []
  · simp [Names.kind, Names.paths, Names.empty, Names.isDirectory, Tree.empty, hp]
  · simp [Names.kind, Names.paths, Names.empty, Tree.empty, hp]

theorem empty_no_file (p : Path) : Names.empty.kind p ≠ some false := by
  rw [empty_kind]
  by_cases hp : p = []
  · simp [Tree.empty, hp]
  · simp [Tree.empty, hp]

/-- The disk when the tree has just been mounted. -/
def Disk.mounted (mach : Machine) (heap : PageHeap) : Disk :=
  ⟨(vfsRoot mach State.init (cstring ramfsName)).2, heap⟩

theorem Disk.mounted_shows (V : CString → Prop) {mach : Machine} (hblank : ∀ i, (mach.memory i).size = 0)
    (heap : PageHeap) : (Disk.mounted mach heap).Shows V Tree.empty := by
  refine ⟨Names.empty, (ramfsReadSb mach.memory).inoRef 0, ?_⟩
  exact {
    root_eq := rfl
    sound := Names.empty_sound
    shows := (readSb_shows mach.memory).inoRef 0
    names := by simp [Names.empty]
    kind_eq := empty_kind
    blank := fun i _ => by
      by_cases hi : i = 0
      · simp [Fs.inoRef, Fs.setInode, ramfsReadSb, hi, hblank]
      · simp [Fs.inoRef, Fs.setInode, ramfsReadSb, hi, hblank]
    files := by
      have hnew : fileAt Names.empty ((ramfsReadSb mach.memory).inoRef 0) = fun _ => newFile :=
        funext fun q => if_neg (empty_no_file q)
      rw [hnew]
      exact newFiles_shows heap
    opened := by simp [Tree.empty]
    next_eq := rfl }

/-- From a new mount on, directories that are made, files that are opened, read, written, moved in and closed, in
whatever order, answer as the tree of directories and byte sequences answers. A new inode keeps the size that its
object has, so the objects must come with size 0. -/
theorem run_file_tree {V : CString → Prop} (hV : Spelling V) {mach : Machine} (hblank : ∀ i, (mach.memory i).size = 0)
    (heap : PageHeap) {calls : List Call}
    (hallowed : Guarded (silent Tree.step) (Tree.Allowed V) Tree.empty calls) :
    ∃ rets a d, answers Tree.step Tree.empty calls = some (rets, a) ∧
      answers (Disk.call mach) (Disk.mounted mach heap) calls = some (rets, d) ∧ d.Shows V a :=
  (Disk.mounted_shows V hblank heap).run hV mach hallowed

/-! ### A file that two descriptors share -/

instance (pos count : Nat) : Decidable (PageWise pos count) := inferInstanceAs (Decidable (_ ∨ _))

instance (capacity : Path → Nat) (path : Nat → Path) (a : Files Path Nat × List FileRet) :
    DecidablePred (Files.Fits capacity path a)
  | .read .. => inferInstanceAs (Decidable (_ ∨ _))
  | .write .. => inferInstanceAs (Decidable (_ ∨ _))
  | .lseek .. => inferInstanceAs (Decidable (_ < _))

instance (V : CString → Prop) [DecidablePred V] (a : Tree) : DecidablePred (a.Allowed V)
  | .mkdir .. => inferInstanceAs (Decidable ((∀ e ∈ _, V e) ∧ ∀ q ∈ _, a.kind q ≠ some false))
  | .open .. => inferInstanceAs (Decidable ((∀ e ∈ _, V e) ∧ (∀ q ∈ _, a.kind q ≠ some false) ∧ (_ → _ → _)))
  | .close _ => inferInstanceAs (Decidable (_ = _))
  | .file _ => inferInstanceAs (Decidable (_ ∧ _ ∧ _))

/-- The names `d` and `f`. -/
def shortNames : List CString := [cstring [100], cstring [102]]

theorem shortNames_spelling : Spelling (· ∈ shortNames) where
  plain := by
    intro c hc
    fin_cases hc <;> exact ⟨by decide, by decide, by decide⟩
  short := by decide
  free := by
    intro a b ha hb
    fin_cases ha <;> fin_cases hb <;> decide

/-- The file `/d/f` is made, and written through two descriptors. -/
def sharedCalls : List Call :=
  [.mkdir [] (cstring [100]) 0, .open [cstring [100]] (cstring [102]) oCreat 0, .file (.write 0 [1, 2]),
    .open [cstring [100]] (cstring [102]) oRdonly 0, .file (.lseek 1 1 0), .file (.write 1 [3]), .close 1,
    .open [] (cstring [102]) oRdonly 0, .mkdir [cstring [102]] (cstring [100]) 0, .file (.lseek 0 0 0),
    .file (.read 0 2)]

theorem run_file_tree_shared :
    (answers (Disk.call blankMachine) (Disk.mounted blankMachine emptyHeap) sharedCalls).map Prod.fst =
      some [.code 0, .opened (some 0), .file (.wrote 2), .opened (some 1), .file (.code 0), .file (.wrote 1), .closed,
        .opened none, .code (-enoent), .file (.code 0), .file (.read 2 [1, 3])] := by
  obtain ⟨rets, a, d, htree, hdisk, -⟩ := @run_file_tree _ shortNames_spelling blankMachine (fun _ => rfl) emptyHeap
    sharedCalls (by decide +kernel)
  have hsame : (answers (Disk.call blankMachine) (Disk.mounted blankMachine emptyHeap) sharedCalls).map Prod.fst =
      (answers Tree.step Tree.empty sharedCalls).map Prod.fst := by
    rw [htree, hdisk]
    rfl
  rw [hsame]
  decide +kernel

end Lucix.Vfs
