import Lucix.RamfsTree

/-! The ramfs namespace is a tree. Every call that succeeds adds one inode below a
directory that is older, so the entries other than `.` and `..` lead from each
inode to later ones only: there is no cycle, the entry that names an inode is the
only one, and the recursive walk of `init/kinit.c` ends. -/
namespace Lucix.Ramfs
open Execution
open FileIo (Inode)

def isDotName (name : CString) : Bool := decide (name = [dot]) || decide (name = [dot, dot])

/-- The entry `name` of directory `d`, other than `.` and `..`, names the inode `i`. -/
def Child (fs : Fs) (d : Nat) (name : CString) (i : Nat) : Prop :=
  ∃ entries, fs.dirEntries d = some entries ∧ ⟨name, i⟩ ∈ entries ∧ isDotName name = false

/-- Following the entries with these names leads from `i` to `j`. -/
def Descends (fs : Fs) : Nat → List CString → Nat → Prop
  | i, [], j => i = j
  | i, c :: cs, j => ∃ k, Child fs i c k ∧ Descends fs k cs j

/-- The function `DEBUG_print_contents`: the lines it prints, with their indentation. -/
def debugPrintContents (fs : Fs) : Nat → Nat → Nat → Option (List (Nat × CString))
  | 0, _, _ => none
  | fuel + 1, ino, level =>
      if fs.isDir ino then do
        let entries ← fs.dirEntries ino
        let lines ← entries.mapM fun entry => do
          let below ← if isDotName entry.name then some []
            else debugPrintContents fs fuel entry.i (level + 1)
          some ((level, entry.name) :: below)
        some lines.flatten
      else some []

/-- Names are unique in each directory, `.` and `..` are where they should be, every inode but
the root is named once, and always in an older directory. -/
structure Fs.IsTree (fs : Fs) : Prop where
  names : ∀ d entries, fs.dirEntries d = some entries → (entries.map DirEntry.name).Nodup
  self : ∀ d entries, fs.dirEntries d = some entries → ⟨[dot], d⟩ ∈ entries
  parent : ∀ d entries, fs.dirEntries d = some entries → ∃ p, ⟨[dot, dot], p⟩ ∈ entries ∧
    ((d = fs.root ∧ p = fs.root) ∨ (d ≠ fs.root ∧ ∃ name, Child fs p name d))
  named : ∀ i < fs.next, i ≠ fs.root → ∃! entry : Nat × CString, Child fs entry.1 entry.2 i
  unnamed : ∀ d name, ¬ Child fs d name fs.root
  downward : ∀ d name i, Child fs d name i → d < i

def Fs.UniqueNames (fs : Fs) : Prop :=
  ∀ d entries, fs.dirEntries d = some entries → (entries.map DirEntry.name).Nodup

/-- Inode numbers count up from the root's. -/
structure Fs.Numbered (fs : Fs) : Prop where
  counter : fs.inoCounter = (fs.next + 2) % 2 ^ 32
  ids : ∀ i < fs.next, (fs.inodes i).id = (i + 2) % 2 ^ 32

section invariant
variable {fs fs' : Fs} {dir i j : Nat} {name : CString} {entries : List DirEntry} {ino : Inode}
  {list : Option (List DirEntry)}

/-- A name that is free in a directory is neither `.` nor `..`. -/
theorem Fs.IsTree.not_dot (h : fs.IsTree) (hname : fs.CanName dir name entries) :
    isDotName name = false := by
  obtain ⟨p, hparent, -⟩ := h.parent dir entries hname.list
  have hself := hname.unused _ (h.self dir entries hname.list)
  have hdots := hname.unused _ hparent
  simp only [isDotName, Bool.or_eq_false_iff, decide_eq_false_iff_not]
  exact ⟨fun e => hself e.symm, fun e => hdots e.symm⟩

theorem child_grow_iff (hs : fs.Sound) (ht : fs.IsTree) (hname : fs.CanName dir name entries)
    (hlist : DirList ino.mode fs.next dir list) {d : Nat} {c : CString} :
    Child (fs.grow dir entries name ino list) d c i ↔
      Child fs d c i ∨ (d = dir ∧ c = name ∧ i = fs.next) := by
  have hdir := hs.dir_lt hname.list
  by_cases hd : d = fs.next
  · subst hd
    have hold : ¬ Child fs fs.next c i := by
      rintro ⟨xs, hxs, -⟩
      exact Nat.lt_irrefl _ (hs.dir_lt hxs)
    have hnew : ¬ Child (fs.grow dir entries name ino list) fs.next c i := by
      rintro ⟨xs, hxs, hmem, hdot⟩
      rw [grow_list_self] at hxs
      rcases hlist with ⟨-, rfl⟩ | ⟨-, rfl⟩
      · obtain rfl := Option.some.inj hxs
        simp only [List.mem_cons, DirEntry.mk.injEq, List.not_mem_nil, or_false] at hmem
        rcases hmem with ⟨rfl, -⟩ | ⟨rfl, -⟩ <;> simp [isDotName] at hdot
      · contradiction
    have hne : fs.next ≠ dir := Nat.ne_of_gt hdir
    simp [hold, hnew, hne]
  · unfold Child
    rw [grow_list_of_ne hd]
    split_ifs with hdd
    · subst hdd
      simp only [hname.list, Option.some.injEq, exists_eq_left', List.mem_cons, DirEntry.mk.injEq]
      constructor
      · rintro ⟨⟨rfl, rfl⟩ | hmem, hdot⟩
        · exact .inr ⟨trivial, rfl, rfl⟩
        · exact .inl ⟨hmem, hdot⟩
      · rintro (⟨hmem, hdot⟩ | ⟨-, rfl, rfl⟩)
        · exact ⟨.inr hmem, hdot⟩
        · exact ⟨.inl ⟨rfl, rfl⟩, ht.not_dot hname⟩
    · simp [hdd]

theorem Child.lt_next (hs : fs.Sound) {d : Nat} {c : CString} (h : Child fs d c i) :
    i < fs.next := by
  obtain ⟨xs, hxs, hmem, -⟩ := h
  exact hs.targets d xs hxs _ hmem

theorem grow_list_cases (hunused : fs.Unused) (hname : fs.CanName dir name entries)
    (hlist : DirList ino.mode fs.next dir list) {d : Nat} {xs : List DirEntry}
    (hxs : (fs.grow dir entries name ino list).dirEntries d = some xs) :
    (d = fs.next ∧ xs = [⟨[dot], fs.next⟩, ⟨[dot, dot], dir⟩]) ∨
      (d < fs.next ∧ d = dir ∧ xs = ⟨name, fs.next⟩ :: entries) ∨
      (d < fs.next ∧ fs.dirEntries d = some xs) := by
  by_cases hd : d = fs.next
  · subst hd
    rw [grow_list_self] at hxs
    rcases hlist with ⟨-, rfl⟩ | ⟨-, rfl⟩
    · exact .inl ⟨rfl, (Option.some.inj hxs).symm⟩
    · contradiction
  · rw [grow_list_of_ne hd] at hxs
    split_ifs at hxs with hdd
    · exact .inr (.inl ⟨hdd ▸ hunused.dir_lt hname.list, hdd, (Option.some.inj hxs).symm⟩)
    · exact .inr (.inr ⟨hunused.dir_lt hxs, hxs⟩)

theorem Fs.UniqueNames.grow (hunused : fs.Unused) (h : fs.UniqueNames)
    (hname : fs.CanName dir name entries) (hlist : DirList ino.mode fs.next dir list) :
    (fs.grow dir entries name ino list).UniqueNames := by
  intro d xs hxs
  rcases grow_list_cases hunused hname hlist hxs with ⟨-, rfl⟩ | ⟨-, -, rfl⟩ | ⟨-, hold⟩
  · exact (by decide : ([[dot], [dot, dot]] : List CString).Nodup)
  · rw [List.map_cons, List.nodup_cons]
    refine ⟨?_, h dir entries hname.list⟩
    rw [List.mem_map]
    rintro ⟨e, he, heq⟩
    exact hname.unused e he heq
  · exact h d xs hold

theorem Fs.IsTree.grow (hs : fs.Sound) (h : fs.IsTree) (hname : fs.CanName dir name entries)
    (hlist : DirList ino.mode fs.next dir list) : (fs.grow dir entries name ino list).IsTree := by
  have hdir := hs.dir_lt hname.list
  have hroot : fs.next ≠ fs.root := Nat.ne_of_gt hs.root_lt
  have hiff : ∀ d c i, Child (fs.grow dir entries name ino list) d c i ↔
      Child fs d c i ∨ (d = dir ∧ c = name ∧ i = fs.next) := fun _ _ _ =>
    child_grow_iff hs h hname hlist
  have hnew : Child (fs.grow dir entries name ino list) dir name fs.next :=
    (hiff dir name fs.next).mpr (.inr ⟨rfl, rfl, rfl⟩)
  -- an old directory keeps its parent
  have hkeep : ∀ d p, ((d = fs.root ∧ p = fs.root) ∨ (d ≠ fs.root ∧ ∃ c, Child fs p c d)) →
      (d = fs.root ∧ p = fs.root) ∨
        (d ≠ fs.root ∧ ∃ c, Child (fs.grow dir entries name ino list) p c d) := by
    rintro d p (hr | ⟨hne, c, hc⟩)
    · exact .inl hr
    · exact .inr ⟨hne, c, (hiff p c d).mpr (.inl hc)⟩
  constructor
  · exact Fs.UniqueNames.grow hs.unused h.names hname hlist
  · intro d xs hxs
    rcases grow_list_cases hs.unused hname hlist hxs with ⟨rfl, rfl⟩ | ⟨-, rfl, rfl⟩ | ⟨-, hold⟩
    · exact List.mem_cons_self
    · exact List.mem_cons_of_mem _ (h.self d entries hname.list)
    · exact h.self d xs hold
  · intro d xs hxs
    rcases grow_list_cases hs.unused hname hlist hxs with ⟨rfl, rfl⟩ | ⟨-, rfl, rfl⟩ | ⟨-, hold⟩
    · exact ⟨dir, by simp, .inr ⟨hroot, name, hnew⟩⟩
    · obtain ⟨p, hp, hwhere⟩ := h.parent d entries hname.list
      exact ⟨p, List.mem_cons_of_mem _ hp, hkeep d p hwhere⟩
    · obtain ⟨p, hp, hwhere⟩ := h.parent d xs hold
      exact ⟨p, hp, hkeep d p hwhere⟩
  · intro k hk hne
    by_cases hkn : k = fs.next
    · subst hkn
      refine ⟨(dir, name), hnew, ?_⟩
      rintro ⟨d, c⟩ hc
      rcases (hiff d c _).mp hc with hold | ⟨rfl, rfl, -⟩
      · exact absurd (hold.lt_next hs) (Nat.lt_irrefl _)
      · rfl
    · have hk' : k < fs.next := lt_of_le_of_ne (Nat.le_of_lt_succ hk) hkn
      obtain ⟨e, he, hunique⟩ := h.named k hk' hne
      refine ⟨e, (hiff _ _ k).mpr (.inl he), ?_⟩
      rintro ⟨d, c⟩ hc
      rcases (hiff d c k).mp hc with hold | ⟨-, -, rfl⟩
      · exact hunique (d, c) hold
      · exact absurd rfl hkn
  · intro d c hchild
    rcases (hiff d c _).mp hchild with hold | ⟨-, -, heq⟩
    · exact h.unnamed d c hold
    · exact hroot heq.symm
  · intro d c k hchild
    rcases (hiff d c k).mp hchild with hold | ⟨rfl, -, rfl⟩
    · exact h.downward d c k hold
    · exact hdir

theorem Fs.Numbered.grow (h : fs.Numbered) (hid : ino.id = fs.inoCounter) :
    (fs.grow dir entries name ino list).Numbered := by
  constructor
  · show (fs.inoCounter + 1) % 2 ^ 32 = (fs.next + 1 + 2) % 2 ^ 32
    rw [h.counter, Nat.mod_add_mod]
  · intro k hk
    by_cases hkn : k = fs.next
    · subst hkn
      simp only [Fs.grow, Function.update_self]
      rw [hid, h.counter]
    · simp only [Fs.grow, Function.update_of_ne hkn]
      exact h.ids k (lt_of_le_of_ne (Nat.le_of_lt_succ hk) hkn)

/-- The three invariants together, which every call keeps. -/
structure Fs.Named (fs : Fs) : Prop where
  sound : fs.Sound
  tree : fs.IsTree
  numbered : fs.Numbered

theorem treeStep_named {call : TreeCall} (h : fs.Named) (hcall : fs.treeStep call = some fs') :
    fs'.Named := by
  rcases treeStep_grow hcall with rfl | ⟨dir, name, entries, ino, list, hname, hid, hlist, rfl⟩
  · exact h
  · exact ⟨h.sound.grow hname hlist, h.tree.grow h.sound hname hlist, h.numbered.grow hid⟩

end invariant

theorem readSb_list {memory : Nat → Inode} {d : Nat} {xs : List DirEntry}
    (hxs : (ramfsReadSb memory).dirEntries d = some xs) :
    d = 0 ∧ xs = [⟨[dot], 0⟩, ⟨[dot, dot], 0⟩] := by
  by_cases hd : d = 0
  · subst hd
    simp only [ramfsReadSb, Fs.inoRef, Fs.setInode, Function.update_self, Option.some.injEq] at hxs
    exact ⟨rfl, hxs.symm⟩
  · simp [ramfsReadSb, Fs.inoRef, Fs.setInode, hd] at hxs

theorem readSb_no_child (memory : Nat → Inode) (d : Nat) (c : CString) (i : Nat) :
    ¬ Child (ramfsReadSb memory) d c i := by
  rintro ⟨xs, hxs, hmem, hdot⟩
  obtain ⟨rfl, rfl⟩ := readSb_list hxs
  simp only [List.mem_cons, DirEntry.mk.injEq, List.not_mem_nil, or_false] at hmem
  rcases hmem with ⟨rfl, -⟩ | ⟨rfl, -⟩ <;> simp [isDotName] at hdot

theorem readSb_named (memory : Nat → Inode) : (ramfsReadSb memory).Named := by
  have hroot : (ramfsReadSb memory).root = 0 := rfl
  have hnext : (ramfsReadSb memory).next = 1 := rfl
  refine ⟨readSb_sound memory, ?_, ?_⟩
  · constructor
    · intro d xs hxs
      obtain ⟨rfl, rfl⟩ := readSb_list hxs
      decide
    · intro d xs hxs
      obtain ⟨rfl, rfl⟩ := readSb_list hxs
      exact List.mem_cons_self
    · intro d xs hxs
      obtain ⟨rfl, rfl⟩ := readSb_list hxs
      exact ⟨0, by simp, .inl ⟨hroot.symm, hroot.symm⟩⟩
    · intro i hi hne
      rw [hnext] at hi
      rw [hroot] at hne
      omega
    · intro d c hchild
      exact readSb_no_child memory d c _ hchild
    · intro d c i hchild
      exact absurd hchild (readSb_no_child memory d c i)
  · constructor
    · rw [hnext]
      rfl
    · intro i hi
      rw [hnext] at hi
      obtain rfl : i = 0 := by omega
      simp [ramfsReadSb, Fs.inoRef, Fs.setInode]

section walk
variable {fs : Fs} {i j : Nat} {c : CString} {cs : List CString}

theorem descends_append_iff : Descends fs i (cs ++ [c]) j ↔ ∃ k, Descends fs i cs k ∧ Child fs k c j := by
  induction cs generalizing i with
  | nil => simp [Descends]
  | cons d ds ih =>
      simp only [List.cons_append, Descends, ih]
      constructor
      · rintro ⟨k, hk, l, hl, hc⟩
        exact ⟨l, ⟨k, hk, hl⟩, hc⟩
      · rintro ⟨l, ⟨k, hk, hl⟩, hc⟩
        exact ⟨k, hk, l, hl, hc⟩

theorem Fs.IsTree.descends_le (h : fs.IsTree) (hd : Descends fs i cs j) : i + cs.length ≤ j := by
  induction cs generalizing i with
  | nil => exact Nat.le_of_eq hd
  | cons c cs ih =>
      obtain ⟨k, hchild, hrest⟩ := hd
      have hlt := h.downward i c k hchild
      have hle := ih hrest
      rw [List.length_cons]
      omega

/-- Exactly one chain of entries leads from the root to each inode. -/
theorem Fs.Named.exists_unique_path (h : fs.Named) (hi : i < fs.next) :
    ∃! cs : List CString, Descends fs fs.root cs i := by
  induction i using Nat.strong_induction_on with
  | _ i ih =>
      by_cases hroot : i = fs.root
      · subst hroot
        refine ⟨[], rfl, fun cs hcs => ?_⟩
        have hle := h.tree.descends_le hcs
        exact List.eq_nil_of_length_eq_zero (by omega)
      · obtain ⟨⟨d, c⟩, hchild, hunique⟩ := h.tree.named i hi hroot
        have hlt := h.tree.downward d c i hchild
        obtain ⟨cs, hcs, hcs_unique⟩ := ih d hlt (lt_trans hlt hi)
        refine ⟨cs ++ [c], descends_append_iff.mpr ⟨d, hcs, hchild⟩, fun ds hds => ?_⟩
        rcases List.eq_nil_or_concat' ds with rfl | ⟨es, e, rfl⟩
        · exact absurd hds.symm hroot
        · obtain ⟨k, hes, he⟩ := descends_append_iff.mp hds
          obtain ⟨rfl, rfl⟩ := Prod.mk.inj (hunique (k, e) he)
          rw [hcs_unique es hes]

theorem mapM_isSome {α β : Type} {f : α → Option β} {xs : List α} (h : ∀ x ∈ xs, (f x).isSome) :
    (xs.mapM f).isSome := by
  induction xs with
  | nil => rfl
  | cons x xs ih =>
      obtain ⟨y, hy⟩ := Option.isSome_iff_exists.mp (h x List.mem_cons_self)
      obtain ⟨ys, hys⟩ := Option.isSome_iff_exists.mp (ih fun z hz => h z (List.mem_cons_of_mem x hz))
      rw [List.mapM_cons, hy, hys]
      rfl

/-- With one unit of fuel for each inode that is not older, the walk below an inode ends. -/
theorem Fs.Named.print_isSome (h : fs.Named) {fuel level : Nat} (hi : i < fs.next)
    (hfuel : fs.next - i ≤ fuel) : (debugPrintContents fs fuel i level).isSome := by
  induction fuel generalizing i level with
  | zero => omega
  | succ fuel ih =>
      unfold debugPrintContents
      split_ifs with hdir
      · obtain ⟨entries, hentries⟩ := Option.isSome_iff_exists.mp ((h.sound.dirs i hi).mp hdir)
        rw [hentries, Option.bind_eq_bind, Option.bind_some, Option.bind_eq_bind, Option.isSome_bind]
        simp only [Option.isSome_some, Option.any_true]
        apply mapM_isSome
        intro entry hentry
        split_ifs with hdot
        · rfl
        · have hchild : Child fs i entry.name entry.i := ⟨entries, hentries, hentry, by simpa using hdot⟩
          have hlt := h.tree.downward i entry.name entry.i hchild
          have hnext := hchild.lt_next h.sound
          obtain ⟨below, hbelow⟩ := Option.isSome_iff_exists.mp
            (@ih entry.i (level + 1) hnext (by omega))
          rw [hbelow]
          rfl
      · rfl

end walk

/-- In every state that successful creations reach, with fewer than `2 ^ 32 - 3` of them, the
namespace is a tree whose inodes have different numbers, each inode is reached along exactly
one chain of entries, and the recursive walk from the root ends. -/
theorem run_namespace_tree {memory : Nat → Inode} {calls : List TreeCall} {fs : Fs}
    (hrun : run Fs.treeStep (ramfsReadSb memory) calls = some fs)
    (hcount : fs.next - 1 < 2 ^ 32 - 3) :
    fs.IsTree ∧ (∀ i < fs.next, ∀ j < fs.next, (fs.inodes i).id = (fs.inodes j).id → i = j) ∧
      (∀ i < fs.next, ∃! cs : List CString, Descends fs fs.root cs i) ∧
      ∃ fuel lines, debugPrintContents fs fuel fs.root 0 = some lines := by
  have hnamed : fs.Named :=
    run_preserves Fs.Named (fun _ _ _ => treeStep_named) (readSb_named memory) hrun
  refine ⟨hnamed.tree, ?_, fun i hi => hnamed.exists_unique_path hi, fs.next, ?_⟩
  · intro i hi j hj hid
    rw [hnamed.numbered.ids i hi, hnamed.numbered.ids j hj] at hid
    omega
  · have hroot := hnamed.sound.root_lt
    exact Option.isSome_iff_exists.mp (hnamed.print_isSome hroot (by omega))

/-- The file `/ab/c` is reached along one chain. -/
theorem run_namespace_tree_nested :
    ∃ fs, run Fs.treeStep (ramfsReadSb fun _ => blankInode) nestedTree = some fs ∧
      fs.next = 3 ∧ ∃! cs : List CString, Descends fs fs.root cs 2 := by
  obtain ⟨fs, hfs⟩ := Option.isSome_iff_exists.mp (show (run Fs.treeStep
    (ramfsReadSb fun _ => blankInode) nestedTree).isSome = true by decide +kernel)
  have hnext : (run Fs.treeStep (ramfsReadSb fun _ => blankInode) nestedTree).all
      (fun fs => decide (fs.next = 3)) = true := by
    decide +kernel
  rw [hfs] at hnext
  have hthree : fs.next = 3 := of_decide_eq_true hnext
  have htree := run_namespace_tree hfs (by rw [hthree]; norm_num)
  exact ⟨fs, hfs, hthree, htree.2.2.1 2 (by rw [hthree]; norm_num)⟩

end Lucix.Ramfs
