import Lucix.PathNames
import Lucix.Vfs

/-! Making directories and files in a tree that shows a table of paths. The new path
is that of the directory where the walk looked for the last component; nothing says
that it is the path that was asked for. -/
namespace Lucix.Ramfs
open FileIo (Inode)

/-! ### A larger table -/

namespace Names
section add
variable {N : Names} {p : Path} {x y : Node}

theorem add_paths (N : Names) (x : Node) : (N.add x).paths = N.paths ++ [x.path] := by
  simp [paths, add]

theorem add_inode_old (hp : p ∈ N.paths) : (N.add x).inode p = N.inode p := by
  rw [inode, add_paths, List.idxOf_append_of_mem hp]
  rfl

theorem add_inode_new (hx : x.path ∉ N.paths) : (N.add x).inode x.path = N.paths.length := by
  rw [inode, add_paths, List.idxOf_append_of_notMem hx, List.idxOf_cons_self, Nat.add_zero]

theorem add_isDirectory_old (hx : x.path ∉ N.paths) (hp : p ∈ N.paths) :
    (N.add x).isDirectory p = N.isDirectory p := by
  have hne : x.path ≠ p := by
    rintro rfl
    exact hx hp
  simp [isDirectory, add, hne]

theorem add_isDirectory_new (hx : x.path ∉ N.paths) : (N.add x).isDirectory x.path = x.isDir := by
  have hroot : x.path ≠ [] := by simp [Node.path]
  have hold : ∀ y ∈ N.nodes, y.path ≠ x.path := fun y hy heq => hx (heq ▸ path_mem hy)
  have hnone : (N.nodes.any fun y => decide (y.path = x.path) && y.isDir) = false := by
    rw [List.any_eq_false]
    intro y hy
    simp [hold y hy]
  simp [isDirectory, add, hroot, hnone]

theorem Sound.add (hN : N.Sound) (hdir : N.isDirectory x.dir = true) (hname : Plain x.name)
    (hx : x.path ∉ N.paths) : (N.add x).Sound where
  nodup := by
    rw [add_paths, List.nodup_append_comm]
    exact List.nodup_cons.mpr ⟨hx, hN.nodup⟩
  parents := by
    intro y hy
    rcases List.mem_append.mp hy with hy | hy
    · rw [add_isDirectory_old hx (hN.dir_mem hy)]
      exact hN.parents y hy
    · obtain rfl := List.mem_singleton.mp hy
      rw [add_isDirectory_old hx (isDirectory_mem hdir)]
      exact hdir
  plain := by
    intro y hy
    rcases List.mem_append.mp hy with hy | hy
    · exact hN.plain y hy
    · obtain rfl := List.mem_singleton.mp hy
      exact hname
  recalled := by
    intro e he
    obtain ⟨y, hy, hrest⟩ := hN.recalled e he
    exact ⟨y, List.mem_append_left _ hy, hrest⟩

theorem add_entries_old (hN : N.Sound) (hx : x.path ∉ N.paths) (hp : p ∈ N.paths) :
    (N.add x).entries p = if p = x.dir then ⟨x.name, N.paths.length⟩ :: N.entries p else N.entries p := by
  have hmap : ∀ y ∈ N.nodes.reverse.filter (fun y => decide (y.dir = p)),
      (⟨y.name, (N.add x).inode y.path⟩ : DirEntry) = ⟨y.name, N.inode y.path⟩ := by
    intro y hy
    have hmem : y ∈ N.nodes := List.mem_reverse.mp (List.mem_of_mem_filter hy)
    rw [add_inode_old (path_mem hmem)]
  have hlist : (N.add x).nodes.reverse = x :: N.nodes.reverse := by simp [add]
  rw [entries, hlist, List.filter_cons, add_inode_old hp, add_inode_old (hN.dropLast_mem hp)]
  by_cases hdir : p = x.dir
  · subst hdir
    rw [if_pos (by simp), if_pos rfl, List.map_cons, List.map_congr_left hmap, add_inode_new hx]
    rfl
  · rw [if_neg (by simpa using fun h => hdir h.symm), if_neg hdir, List.map_congr_left hmap]
    rfl

theorem add_entries_new (hN : N.Sound) (hdir : x.dir ∈ N.paths) (hx : x.path ∉ N.paths) :
    (N.add x).entries x.path = [⟨[dot], N.paths.length⟩, ⟨[dot, dot], N.inode x.dir⟩] := by
  have hself : x.dir ≠ x.path := by
    intro h
    exact hx (h ▸ hdir)
  have hold : ∀ y ∈ N.nodes, y.dir ≠ x.path := by
    intro y hy h
    exact hx (h ▸ hN.dir_mem hy)
  have hnone : ((N.add x).nodes.reverse.filter fun y => decide (y.dir = x.path)) = [] := by
    rw [List.filter_eq_nil_iff]
    intro y hy
    rcases List.mem_append.mp (List.mem_reverse.mp hy) with hy | hy
    · simpa using hold y hy
    · obtain rfl := List.mem_singleton.mp hy
      simpa using hself
  rw [entries, hnone, add_inode_new hx, Node.path, List.dropLast_concat, add_inode_old hdir]
  rfl

theorem Shows.grow {fs : Fs} {ino : Inode} {list : Option (List DirEntry)} (hN : N.Sound)
    (h : N.Shows fs) (hdir : N.isDirectory x.dir = true) (hx : x.path ∉ N.paths)
    (htype : inoType ino = if x.isDir then sIfdir else sIfreg)
    (hlist : list = if x.isDir then some [⟨[dot], fs.next⟩, ⟨[dot, dot], N.inode x.dir⟩] else none) :
    (N.add x).Shows (fs.grow (N.inode x.dir) (N.entries x.dir) x.name ino list) := by
  have hdirmem := isDirectory_mem hdir
  have hcases : ∀ p ∈ (N.add x).paths, p ∈ N.paths ∨ p = x.path := by
    intro p hp
    rw [add_paths] at hp
    exact (List.mem_append.mp hp).imp_right List.mem_singleton.mp
  constructor
  · exact h.root_eq
  · rw [add_paths, List.length_append, List.length_singleton, ← h.next_eq]
    rfl
  · intro p hp
    rcases hcases p hp with hold | rfl
    · have hlt : N.inode p ≠ fs.next := by
        rw [h.next_eq]
        exact Nat.ne_of_lt (inode_lt hold)
      rw [add_inode_old hold, grow_list_of_ne hlt, add_isDirectory_old hx hold, add_entries_old hN hx hold,
        ← h.next_eq]
      by_cases hd : p = x.dir
      · subst hd
        rw [if_pos rfl, if_pos rfl, if_pos hdir]
      · rw [if_neg (fun heq => hd ((inode_inj hold).mp heq)), if_neg hd]
        exact h.lists p hold
    · rw [add_inode_new hx, ← h.next_eq, grow_list_self, add_isDirectory_new hx,
        add_entries_new hN hdirmem hx, hlist, h.next_eq]
  · intro p hp
    rcases hcases p hp with hold | rfl
    · have hlt : N.inode p ≠ fs.next := by
        rw [h.next_eq]
        exact Nat.ne_of_lt (inode_lt hold)
      rw [add_inode_old hold, add_isDirectory_old hx hold, ← h.types p hold]
      simp [Fs.grow, hlt]
    · rw [add_inode_new hx, ← h.next_eq, add_isDirectory_new hx, ← htype]
      simp [Fs.grow]
  · show fs.nameCacheList = _
    rw [h.cache_eq]
    apply List.map_congr_left
    intro e he
    obtain ⟨y, hy, hydir, -, hfound⟩ := hN.recalled e he
    rw [add_inode_old (hydir ▸ hN.dir_mem hy), add_inode_old (hfound ▸ path_mem hy)]

end add
end Names

/-! ### Paths as strings -/

/-- The path with a slash before each component. -/
def joinPath (p : Path) : CString := p.flatMap fun c => slash :: c

section strings
variable {p : Path} {c : CString}

theorem joinPath_concat (p : Path) (c : CString) : joinPath (p ++ [c]) = joinPath p ++ slash :: c := by
  simp [joinPath]

theorem joinPath_head (p : Path) (c : CString) : (joinPath (p ++ [c])).head? = some slash := by
  cases p <;> simp [joinPath]

theorem components_joinPath (hp : ∀ c ∈ p, Plain c) : components (joinPath p) = p := by
  induction p with
  | nil => rfl
  | cons c p ih =>
      have hc := hp c List.mem_cons_self
      have hrest : joinPath p = [] ∨ (joinPath p).head? = some slash := by
        cases p with
        | nil => exact .inl rfl
        | cons d p => exact .inr rfl
      show components (slash :: (c ++ joinPath p)) = _
      rw [components_slash, components_append hc.ne_nil hc.no_slash hrest,
        ih fun d hd => hp d (List.mem_cons_of_mem c hd)]

theorem lastName_joinPath (hc : slash ∉ c) : Vfs.lastName (joinPath (p ++ [c])) = c := by
  have hall : ∀ b ∈ c.reverse, decide (b ≠ slash) = true := by
    intro b hb
    rw [decide_eq_true_eq]
    rintro rfl
    exact hc (List.mem_reverse.mp hb)
  rw [Vfs.lastName, joinPath_concat, List.reverse_append, List.reverse_cons, List.append_assoc,
    List.takeWhile_append_of_pos hall]
  simp

end strings

/-! ### Creating -/

section creating
variable {fs : Fs} {N : Names} {d : Path} {c : CString} {mode : Nat}

theorem entries_any_name (hc : Plain c) :
    ((N.entries d).any fun e => decide (e.name = c)) = decide (d ++ [c] ∈ N.paths) := by
  have hdot : [dot] ≠ c ∧ [dot, dot] ≠ c := by
    constructor <;> rintro rfl <;> exact absurd hc.not_dot (by decide)
  rw [Bool.eq_iff_iff, List.any_eq_true, decide_eq_true_eq]
  simp only [Names.entries, List.mem_append, List.mem_map, List.mem_filter, List.mem_reverse,
    decide_eq_true_eq, List.mem_cons, List.not_mem_nil, or_false]
  constructor
  · rintro ⟨e, ⟨x, ⟨hx, rfl⟩, rfl⟩ | rfl | rfl, rfl⟩
    · exact Names.path_mem hx
    · exact absurd rfl hdot.1
    · exact absurd rfl hdot.2
  · intro hmem
    rcases Names.mem_paths_iff.mp hmem with hnil | ⟨x, hx, hpath⟩
    · simp at hnil
    · obtain ⟨rfl, hname⟩ := List.append_inj' hpath rfl
      obtain rfl : x.name = c := by simpa using hname
      exact ⟨⟨x.name, N.inode x.path⟩, .inl ⟨x, ⟨hx, rfl⟩, rfl⟩, rfl⟩

theorem createGeneric_shows (h : N.Shows fs) (hd : N.isDirectory d = true)
    (hc : Plain c) : ramfsInoCreateGeneric fs (N.inode d) c mode =
      if d ++ [c] ∈ N.paths then some (-eexist, none, fs)
      else if ramfsMaxFilename ≤ c.length then none
      else some (0, some fs.next, fs.grow (N.inode d) (N.entries d) c { fs.freshInode mode with
        refcnt := ((fs.inodes fs.next).refcnt + 1) % 2 ^ 32 } none) := by
  have hlist : fs.dirEntries (N.inode d) = some (N.entries d) := by
    rw [h.lists d (Names.isDirectory_mem hd), if_pos hd]
  simp only [ramfsInoCreateGeneric, hlist, Option.bind_eq_bind, Option.bind_some, entries_any_name hc,
    decide_eq_true_eq]
  split_ifs
  · rfl
  · rfl
  · simp only [Fs.inoRef, Fs.setInode, Fs.setEntries, Fs.grow, Fs.freshInode, Function.update_self,
      Function.update_idem]

theorem mkdir_shows (h : N.Shows fs) (hd : N.isDirectory d = true) (hc : Plain c) :
    ramfsInoMkdir fs (N.inode d) c mode =
      if d ++ [c] ∈ N.paths then some (-eexist, fs)
      else if ramfsMaxFilename ≤ c.length then none
      else some (0, fs.grow (N.inode d) (N.entries d) c { fs.freshInode (mode &&& 0xfff ||| sIfdir) with
        refcnt := ((fs.inodes fs.next).refcnt + 1) % 2 ^ 32 }
          (some [⟨[dot], fs.next⟩, ⟨[dot, dot], N.inode d⟩])) := by
  rw [ramfsInoMkdir, createGeneric_shows h hd hc]
  split_ifs
  · rfl
  · rfl
  · simp only [Option.bind_eq_bind, Option.bind_some, Fs.setEntries, Fs.grow, Function.update_idem]

theorem create_shows (h : N.Shows fs) (hd : N.isDirectory d = true) (hc : Plain c) :
    ramfsInoCreate fs (N.inode d) c mode =
      if d ++ [c] ∈ N.paths ∨ ramfsMaxFilename ≤ c.length then none
      else some (0, some fs.next, fs.grow (N.inode d) (N.entries d) c
        { fs.freshInode (mode &&& 0xfff ||| sIfreg) with
          refcnt := (((fs.inodes fs.next).refcnt + 1) % 2 ^ 32 + 1) % 2 ^ 32 } none) := by
  rw [ramfsInoCreate, createGeneric_shows h hd hc]
  by_cases hmem : d ++ [c] ∈ N.paths
  · simp [hmem]
  · by_cases hlong : ramfsMaxFilename ≤ c.length
    · simp [hmem, hlong]
    · simp only [hmem, hlong, if_false, or_self, Option.bind_eq_bind, Option.bind_some, Fs.inoRef,
        Fs.setInode, Fs.grow, Function.update_self, Function.update_idem]

end creating

/-! ### Making a path -/

/-- The table after a directory or file has been made for the path `p ++ [c]`. -/
def Names.make (N : Names) (p : Path) (c : CString) (isDir : Bool) : Option Names :=
  match N.walk [] [] (p ++ [c]) with
  | none => none
  | some (N', w) =>
      match w.parent with
      | none => none
      | some d =>
          if d ++ [c] ∈ N.paths ∨ ramfsMaxFilename ≤ c.length then none
          else some (N'.add ⟨d, c, isDir⟩)

/-- The inodes that were there are the same but for their counters, and so are the objects that
are still free. -/
def Fs.SameOld (fs fs' : Fs) : Prop :=
  ∀ i, i ≠ fs.next → ∃ k, fs'.inodes i = { fs.inodes i with refcnt := k }

section making
variable {fs fs' : Fs} {N N' : Names} {p d : Path} {c : CString} {w : Walked} {isDir : Bool}

theorem Fs.SameFiles.sameOld (h : fs.SameFiles fs') : fs.SameOld fs' := fun i _ => h i

theorem Fs.SameOld.trans {fs'' : Fs} (h : fs.SameOld fs') (h' : fs'.SameFiles fs'') :
    fs.SameOld fs'' := by
  intro i hi
  obtain ⟨k, hk⟩ := h i hi
  obtain ⟨l, hl⟩ := h' i
  exact ⟨l, by rw [hl, hk]⟩

theorem Fs.SameFiles.grow {dir : Nat} {entries : List DirEntry} {ino : Inode}
    {list : Option (List DirEntry)} (h : fs.SameFiles fs') (hnext : fs'.next = fs.next) :
    fs.SameOld (fs'.grow dir entries c ino list) := by
  intro i hi
  have hold : (fs'.grow dir entries c ino list).inodes i = fs'.inodes i := by
    simp [Fs.grow, hnext, hi]
  rw [hold]
  exact h i

theorem Walked.answer_some (h : w.parent = some d) : w.answer N lookupParent = (0, some (N.inode d)) := by
  cases w with
  | found par cur =>
      obtain rfl := Option.some.inj h
      simp [Walked.answer, lookupParent]
  | missing dir last =>
      cases last with
      | false => simp [Walked.parent] at h
      | true =>
          obtain rfl := Option.some.inj h
          simp [Walked.answer, lookupParent]

theorem Walked.answer_none (h : w.parent = none) : w.answer N lookupParent = (-enoent, none) := by
  cases w with
  | found par cur => simp [Walked.parent] at h
  | missing dir last =>
      cases last with
      | false => simp [Walked.answer]
      | true => simp [Walked.parent] at h

theorem Names.same_tree (h : N'.nodes = N.nodes) : N'.paths = N.paths ∧ N'.inode = N.inode ∧
    N'.isDirectory = N.isDirectory := by
  have hpaths : N'.paths = N.paths := by rw [Names.paths, h, Names.paths]
  refine ⟨hpaths, funext fun p => ?_, funext fun p => ?_⟩
  · rw [Names.inode, hpaths, Names.inode]
  · rw [Names.isDirectory, h, Names.isDirectory]

/-- Everything about a path that is about to be made. -/
structure Names.Makes (N : Names) (p : Path) (c : CString) (isDir : Bool) (N' N'' : Names) (d : Path) :
    Prop where
  sound : N'.Sound
  nodes_eq : N'.nodes = N.nodes
  dir : N'.isDirectory d = true
  unused : d ++ [c] ∉ N'.paths
  short : c.length < ramfsMaxFilename
  result : N'' = N'.add ⟨d, c, isDir⟩
  follows : List.Forall₂ (· <+: ·) p d

theorem Names.Makes.sound_add {N'' : Names} (h : N.Makes p c isDir N' N'' d) (hc : Plain c) :
    N''.Sound := by
  rw [h.result]
  exact h.sound.add h.dir hc h.unused

theorem Names.Makes.of_walk (hN : N.Sound) (hwalk : N.walk [] [] (p ++ [c]) = some (N', w))
    (hd : w.parent = some d) (hfree : ¬ (d ++ [c] ∈ N.paths ∨ ramfsMaxFilename ≤ c.length)) :
    N.Makes p c isDir N' (N'.add ⟨d, c, isDir⟩) d := by
  obtain ⟨hsound, hnodes⟩ := Names.walk_keeps hN hwalk
  obtain ⟨hpaths, -, hdirs⟩ := Names.same_tree hnodes
  obtain ⟨hdir, es, hes, hall⟩ := Names.walk_parent hN hwalk (by simp) hd
  rw [List.nil_append] at hes
  subst hes
  rw [List.dropLast_concat] at hall
  rw [not_or, Nat.not_le] at hfree
  exact ⟨hsound, hnodes, hdirs ▸ hdir, hpaths ▸ hfree.1, hfree.2, rfl, hall⟩

theorem vfsMkdir_found {s : Vfs.State} {path : CString} {r : LookupResult} {i : Nat} (hs : s.rootFs = some fs)
    (hr : vfsLookup fs path lookupParent = some r) (hcode : r.code = 0) (hres : r.res = some i) (mode : Nat) :
    Vfs.vfsMkdir s path mode = (ramfsInoMkdir r.fs i (Vfs.lastName path) mode).map fun made =>
      (made.1, s.setFs (made.2.inoDeref i)) := by
  simp only [Vfs.vfsMkdir, hs, hr, hcode, hres, Option.bind_eq_bind, Option.bind_some, ne_eq, not_true_eq_false,
    if_false]
  cases ramfsInoMkdir r.fs i (Vfs.lastName path) mode <;> rfl

theorem vfsMkdir_shows {s : Vfs.State} (hs : s.rootFs = some fs) (hN : N.Sound) (h : N.Shows fs)
    (hplain : ∀ e ∈ p ++ [c], Plain e) :
    match N.make p c true with
    | some N' => ∃ fs', Vfs.vfsMkdir s (joinPath (p ++ [c])) 0 = some (0, s.setFs fs') ∧
        N'.Sound ∧ N'.Shows fs' ∧ fs.SameOld fs'
    | none => ∀ s', Vfs.vfsMkdir s (joinPath (p ++ [c])) 0 ≠ some (0, s') := by
  have hc : Plain c := hplain c (by simp)
  have hlookup := vfsLookup_shows lookupParent hN h (joinPath_head p c)
    (by rw [components_joinPath hplain]; exact hplain)
  rw [components_joinPath hplain] at hlookup
  unfold Names.make
  cases hwalk : N.walk [] [] (p ++ [c]) with
  | none =>
      rw [hwalk] at hlookup
      simp [Vfs.vfsMkdir, hs, hlookup]
  | some found =>
      obtain ⟨N', w⟩ := found
      rw [hwalk] at hlookup
      obtain ⟨r, hr, hanswer, hshows, hsame⟩ := hlookup
      simp only
      cases hd : w.parent with
      | none =>
          rw [Walked.answer_none hd] at hanswer
          obtain ⟨hcode, -⟩ := Prod.mk.inj hanswer
          have hne : r.code ≠ 0 := by
            rw [hcode]
            decide
          simp [Vfs.vfsMkdir, hs, hr, hne]
      | some d =>
          rw [Walked.answer_some hd] at hanswer
          obtain ⟨hcode, hres⟩ := Prod.mk.inj hanswer
          obtain ⟨hsound, hnodes⟩ := Names.walk_keeps hN hwalk
          obtain ⟨hpaths, hinode, hdirs⟩ := Names.same_tree hnodes
          have hdir : N'.isDirectory d = true := by
            rw [hdirs]
            exact (Names.walk_parent hN hwalk (by simp) hd).1
          rw [vfsMkdir_found hs hr hcode hres, lastName_joinPath hc.no_slash, ← hinode, mkdir_shows hshows hdir hc]
          dsimp only
          by_cases hfree : d ++ [c] ∈ N.paths ∨ ramfsMaxFilename ≤ c.length
          · rw [if_pos hfree]
            intro s' heq
            rw [hpaths] at heq
            split_ifs at heq with hused hlong
            · simp [eexist] at heq
            · simp at heq
            · exact hfree.elim hused hlong
          · rw [if_neg hfree]
            have hmakes : N.Makes p c true N' _ d := .of_walk hN hwalk hd hfree
            have hnext : r.fs.next = fs.next := by rw [hshows.next_eq, hpaths, h.next_eq]
            rw [if_neg hmakes.unused, if_neg (Nat.not_le.mpr hmakes.short)]
            refine ⟨_, rfl, hmakes.sound_add hc, Names.Shows.inoDeref ?_ _,
              (hsame.grow hnext).trans (.inoDeref _ _)⟩
            exact Names.Shows.grow (x := ⟨d, c, true⟩) hsound hshows hdir hmakes.unused
              (typed_mode 0 sIfdir (by decide)) rfl

/-- The object for the new file was free and keeps its old size. -/
structure Fs.NewFile (fs fs' : Fs) : Prop where
  old : fs.SameOld fs'
  size_eq : (fs'.inodes fs.next).size = (fs.inodes fs.next).size
  map_eq : (fs'.inodes fs.next).fMap = ⟨[none, none], 2⟩

/-- The part of `vfs_open` that makes a file. -/
def createFile (fs : Fs) (path : CString) (mode : Nat) : Option (Option Nat × Fs) := do
  let r ← vfsLookup fs path lookupParent
  let parent ← r.res
  let (_, ino, fs) ← ramfsInoCreate r.fs parent (Vfs.lastName path) mode
  some (ino, fs)

theorem createFile_shows (hN : N.Sound) (h : N.Shows fs) (hplain : ∀ e ∈ p ++ [c], Plain e)
    (mode : Nat) :
    match N.make p c false with
    | some N' => ∃ fs', createFile fs (joinPath (p ++ [c])) mode = some (some fs.next, fs') ∧
        N'.Sound ∧ N'.Shows fs' ∧ fs.NewFile fs'
    | none => createFile fs (joinPath (p ++ [c])) mode = none := by
  have hc : Plain c := hplain c (by simp)
  have hlookup := vfsLookup_shows lookupParent hN h (joinPath_head p c)
    (by rw [components_joinPath hplain]; exact hplain)
  rw [components_joinPath hplain] at hlookup
  unfold Names.make
  cases hwalk : N.walk [] [] (p ++ [c]) with
  | none =>
      rw [hwalk] at hlookup
      simp [createFile, hlookup]
  | some found =>
      obtain ⟨N', w⟩ := found
      rw [hwalk] at hlookup
      obtain ⟨r, hr, hanswer, hshows, hsame⟩ := hlookup
      simp only
      cases hd : w.parent with
      | none =>
          rw [Walked.answer_none hd] at hanswer
          obtain ⟨-, hres⟩ := Prod.mk.inj hanswer
          simp [createFile, hr, hres]
      | some d =>
          rw [Walked.answer_some hd] at hanswer
          obtain ⟨-, hres⟩ := Prod.mk.inj hanswer
          obtain ⟨hsound, hnodes⟩ := Names.walk_keeps hN hwalk
          obtain ⟨hpaths, hinode, hdirs⟩ := Names.same_tree hnodes
          have hdir : N'.isDirectory d = true := by
            rw [hdirs]
            exact (Names.walk_parent hN hwalk (by simp) hd).1
          have hcall : createFile fs (joinPath (p ++ [c])) mode =
              (ramfsInoCreate r.fs (N'.inode d) c mode).map fun (_, ino, fs') => (ino, fs') := by
            simp only [createFile, hr, hres, lastName_joinPath hc.no_slash, hinode, Option.bind_eq_bind,
              Option.bind_some]
            cases ramfsInoCreate r.fs (N.inode d) c mode <;> rfl
          rw [hcall, create_shows hshows hdir hc, hpaths]
          dsimp only
          by_cases hfree : d ++ [c] ∈ N.paths ∨ ramfsMaxFilename ≤ c.length
          · rw [if_pos hfree, if_pos hfree]
            rfl
          · rw [if_neg hfree, if_neg hfree]
            have hmakes : N.Makes p c false N' _ d := .of_walk hN hwalk hd hfree
            have hnext : r.fs.next = fs.next := by rw [hshows.next_eq, hpaths, h.next_eq]
            rw [Option.map_some, hnext]
            refine ⟨_, rfl, hmakes.sound_add hc, ?_, hsame.grow hnext, ?_, ?_⟩
            · exact Names.Shows.grow (x := ⟨d, c, false⟩) hsound hshows hdir hmakes.unused
                (typed_mode mode sIfreg (by decide)) rfl
            · obtain ⟨k, hk⟩ := hsame fs.next
              simp [Fs.grow, Fs.freshInode, hnext, hk]
            · simp [Fs.grow, Fs.freshInode, hnext]

theorem openInode_shows (hN : N.Sound) (h : N.Shows fs) (hplain : ∀ e ∈ p ++ [c], Plain e)
    {oflags : Nat} (hcreat : oflags &&& Vfs.oCreat ≠ 0) (mode : Nat) :
    match N.walk [] [] (p ++ [c]) with
    | none => Vfs.openInode fs (joinPath (p ++ [c])) oflags mode = none
    | some (N', .found _ cur) => ∃ fs', N'.Shows fs' ∧ fs.SameFiles fs' ∧
        Vfs.openInode fs (joinPath (p ++ [c])) oflags mode = some (some (N.inode cur), fs')
    | some (N', .missing _ _) => ∃ fs', N'.Shows fs' ∧ fs.SameFiles fs' ∧
        Vfs.openInode fs (joinPath (p ++ [c])) oflags mode =
          createFile fs' (joinPath (p ++ [c])) mode := by
  have hlookup := vfsLookup_shows 0 hN h (joinPath_head p c)
    (by rw [components_joinPath hplain]; exact hplain)
  rw [components_joinPath hplain] at hlookup
  have hrdonly : oflags &&& Vfs.oRdonly = 0 := Nat.and_zero oflags
  cases hwalk : N.walk [] [] (p ++ [c]) with
  | none =>
      rw [hwalk] at hlookup
      simp [Vfs.openInode, hlookup]
  | some found =>
      obtain ⟨N', w⟩ := found
      rw [hwalk] at hlookup
      obtain ⟨r, hr, hanswer, hshows, hsame⟩ := hlookup
      cases w with
      | found par cur =>
          obtain ⟨hcode, hres⟩ : r.code = 0 ∧ r.res = some (N.inode cur) := by
            simpa [Walked.answer, LookupResult.answer] using hanswer
          exact ⟨r.fs, hshows, hsame, by simp [Vfs.openInode, hr, hcode, hres]⟩
      | missing dir last =>
          obtain ⟨hcode, hres⟩ : r.code = -enoent ∧ r.res = none := by
            simpa [Walked.answer, LookupResult.answer] using hanswer
          have hmiss : r.code ≠ 0 ∧ r.res = none := by
            rw [hcode]
            exact ⟨by decide, hres⟩
          refine ⟨r.fs, hshows, hsame, ?_⟩
          simp only [Vfs.openInode, hr, Option.bind_eq_bind, Option.bind_some, if_pos hmiss,
            if_pos (And.intro hcreat hrdonly)]
          rfl

end making

/-! ### The namespace -/

/-- The table of a new tree. -/
def Names.empty : Names := ⟨[], []⟩

theorem Names.empty_sound : Names.empty.Sound :=
  ⟨by decide, by simp [Names.empty], by simp [Names.empty], by simp [Names.empty]⟩

theorem readSb_shows (memory : Nat → Inode) : Names.empty.Shows (ramfsReadSb memory) := by
  refine Names.Shows.inoRef ⟨rfl, rfl, fun p hp => ?_, fun p hp => ?_, rfl⟩ 0
  · obtain rfl : p = [] := by simpa [Names.paths, Names.empty] using hp
    simp [Names.isDirectory, Names.entries, Names.empty]
  · obtain rfl : p = [] := by simpa [Names.paths, Names.empty] using hp
    simp [Names.isDirectory, inoType, sIfdir]

section chains
variable {fs : Fs} {N : Names} {p : Path} {c : CString} {i : Nat}

theorem Names.Shows.child_iff (hN : N.Sound) (h : N.Shows fs) (hp : p ∈ N.paths) :
    Child fs (N.inode p) c i ↔ p ++ [c] ∈ N.paths ∧ i = N.inode (p ++ [c]) := by
  constructor
  · rintro ⟨entries, hlist, hmem, hdot⟩
    rw [h.lists p hp] at hlist
    split_ifs at hlist
    obtain rfl := Option.some.inj hlist
    simp only [Names.entries, List.mem_append, List.mem_map, List.mem_filter, List.mem_reverse,
      decide_eq_true_eq, List.mem_cons, List.not_mem_nil, or_false, DirEntry.mk.injEq] at hmem
    rcases hmem with ⟨x, ⟨hx, rfl⟩, rfl, rfl⟩ | ⟨rfl, -⟩ | ⟨rfl, -⟩
    · exact ⟨Names.path_mem hx, rfl⟩
    · simp [isDotName] at hdot
    · simp [isDotName] at hdot
  · rintro ⟨hmem, rfl⟩
    rcases Names.mem_paths_iff.mp hmem with hnil | ⟨x, hx, hpath⟩
    · simp at hnil
    · obtain ⟨rfl, hname⟩ := List.append_inj' hpath rfl
      obtain rfl : x.name = c := by simpa using hname
      refine ⟨N.entries x.dir, ?_, ?_, (hN.plain x hx).not_dot⟩
      · rw [h.lists x.dir hp, if_pos (hN.parents x hx)]
      · simp only [Names.entries, List.mem_append, List.mem_map, List.mem_filter, List.mem_reverse,
          decide_eq_true_eq]
        exact .inl ⟨x, ⟨hx, rfl⟩, rfl⟩

/-- The chains of entries from the root are the paths of the table. -/
theorem Names.Shows.descends_iff (hN : N.Sound) (h : N.Shows fs) :
    Descends fs fs.root p i ↔ p ∈ N.paths ∧ i = N.inode p := by
  induction p using List.reverseRecOn generalizing i with
  | nil =>
      rw [h.root_eq]
      simp [Descends, eq_comm]
  | append_singleton p c ih =>
      rw [descends_append_iff]
      constructor
      · rintro ⟨k, hk, hchild⟩
        obtain ⟨hp, rfl⟩ := ih.mp hk
        exact (h.child_iff hN hp).mp hchild
      · rintro ⟨hmem, rfl⟩
        have hp : p ∈ N.paths := by simpa using hN.dropLast_mem hmem
        exact ⟨N.inode p, ih.mpr ⟨hp, rfl⟩, (h.child_iff hN hp).mpr ⟨hmem, rfl⟩⟩

end chains

end Lucix.Ramfs
