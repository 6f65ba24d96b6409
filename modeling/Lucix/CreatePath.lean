import Lucix.VfsRefs
import Lucix.WalkTwice
import Lucix.Initramfs

/-! Creating under a path. The parent comes from the components of the path and the
new name from its last slash, so a path that ends in a slash names an empty string;
and the parent of a missing directory is null, which only `vfs_mkdir` and `vfs_mknod`
look at before they follow it. -/
namespace Lucix.Vfs
open Ramfs Execution
open Initramfs (oWronly)
open FileIo (Inode)

/-! ### States of the file system -/

/-- Entries and cached names stay among the inodes, and exactly the directories have entries. -/
structure Tidy (fs : Fs) : Prop where
  sound : fs.dropCache.Sound
  inside : fs.CacheInside

section tidy
variable {fs fs' : Fs} {m : Machine} {s s' : State} {dir i flags mode : Nat} {name path : CString}
  {r : LookupResult}

theorem Tidy.setRefcnt (h : Tidy fs) (i k : Nat) :
    Tidy (fs.setInode i { fs.inodes i with refcnt := k }) where
  sound := ((Fs.RefsOnly.refl fs).setRefcnt i k).sound h.sound
  inside := h.inside

theorem Tidy.inoRef (h : Tidy fs) (i : Nat) : Tidy (fs.inoRef i) := h.setRefcnt i _

theorem Tidy.inoDeref (h : Tidy fs) (i : Nat) : Tidy (fs.inoDeref i) := h.setRefcnt i _

theorem Tidy.lookup (h : Tidy fs) (hr : vfsLookup fs path flags = some r) : Tidy r.fs where
  sound := (vfsLookup_leaves hr).1.sound h.sound
  inside := (vfsLookup_inside h.sound h.inside hr).1

theorem Tidy.made (h : Tidy fs) (hmade : Made fs dir name fs') : Tidy fs' := by
  rcases hmade with rfl | ⟨entries, ino, list, hname, hlist, -, rfl⟩
  · exact h
  · refine ⟨?_, fun e he => ?_⟩
    · have hgrow : (fs.dropCache.grow dir entries name ino list).Sound :=
        h.sound.grow ⟨hname.list, hname.unused, hname.short⟩ hlist
      exact hgrow
    · obtain ⟨hino, hparent⟩ := h.inside e he
      exact ⟨Nat.lt_succ_of_lt hino, Nat.lt_succ_of_lt hparent⟩

theorem create_made {ret : Int} {found : Option Nat}
    (hcall : ramfsInoCreate fs dir name mode = some (ret, found, fs')) :
    ∃ fs₁, Made fs dir name fs₁ ∧ fs' = fs₁.inoRef fs.next := by
  obtain ⟨-, -, entries, hname, rfl⟩ := create_grow hcall
  have hreg : (mode &&& 0xfff ||| sIfreg) &&& 0xf000 ≠ sIfdir := by
    rw [typed_mode mode sIfreg (by decide)]
    decide
  refine ⟨fs.grow dir entries name { fs.freshInode (mode &&& 0xfff ||| sIfreg) with
    refcnt := (fs.refcnt fs.next + 1) % 2 ^ 32 } none, .inr ⟨entries, _, none, hname,
      .inr ⟨hreg, rfl⟩, rfl, rfl⟩, ?_⟩
  simp only [Fs.inoRef, Fs.setInode, Fs.grow, Fs.refcnt, Function.update_self, Function.update_idem]

theorem openInode_tidy {oflags : Nat} {found : Option Nat} (h : Tidy fs)
    (hcall : openInode fs path oflags mode = some (found, fs')) : Tidy fs' := by
  obtain ⟨r, hr, hcall⟩ := Option.bind_eq_some_iff.mp hcall
  split_ifs at hcall with hmiss hcreat
  · obtain ⟨r', hr', hcall⟩ := Option.bind_eq_some_iff.mp hcall
    obtain ⟨parent, -, hcall⟩ := Option.bind_eq_some_iff.mp hcall
    obtain ⟨⟨ret, ino, fs₁⟩, hcreate, hcall⟩ := Option.bind_eq_some_iff.mp hcall
    obtain ⟨-, rfl⟩ := Prod.mk.inj (Option.some.inj hcall)
    obtain ⟨fs₂, hmade, rfl⟩ := create_made hcreate
    exact (((h.lookup hr).lookup hr').made hmade).inoRef _
  · obtain ⟨-, rfl⟩ := Prod.mk.inj (Option.some.inj hcall)
    exact h.lookup hr
  · obtain ⟨-, rfl⟩ := Prod.mk.inj (Option.some.inj hcall)
    exact h.lookup hr

/-- The same for what is mounted. -/
def State.IsTidy (s : State) : Prop := ∀ fs, s.rootFs = some fs → Tidy fs

theorem setFs_tidy (h : Tidy fs) : (s.setFs fs).IsTidy := by
  intro fs' hfs'
  obtain rfl := Option.some.inj hfs'
  exact h

theorem State.IsTidy.make (h : s.IsTidy) (make : Fs → Nat → CString → Option (Int × Fs))
    (hmake : ∀ fs dir name ret fs', make fs dir name = some (ret, fs') → Made fs dir name fs')
    {ret : Int}
    (hcall : (s.rootFs.bind fun fs => (vfsLookup fs path lookupParent).bind fun r =>
      if r.code ≠ 0 then some (r.code, s.setFs r.fs)
      else r.res.bind fun parent => (make r.fs parent (lastName path)).bind fun made =>
        some (made.1, s.setFs (made.2.inoDeref parent))) = some (ret, s')) : s'.IsTidy := by
  obtain ⟨fs, hfs, hcall⟩ := Option.bind_eq_some_iff.mp hcall
  obtain ⟨r, hr, hcall⟩ := Option.bind_eq_some_iff.mp hcall
  have hlook := (h fs hfs).lookup hr
  split_ifs at hcall
  · obtain ⟨-, rfl⟩ := Prod.mk.inj (Option.some.inj hcall)
    exact setFs_tidy hlook
  · obtain ⟨parent, -, hcall⟩ := Option.bind_eq_some_iff.mp hcall
    obtain ⟨⟨ret', fs'⟩, hmade, hcall⟩ := Option.bind_eq_some_iff.mp hcall
    obtain ⟨-, rfl⟩ := Prod.mk.inj (Option.some.inj hcall)
    exact setFs_tidy ((hlook.made (hmake _ _ _ _ _ hmade)).inoDeref parent)

theorem vfsOpen_tidy {oflags : Nat} {file : Option Nat} (h : s.IsTidy)
    (hcall : vfsOpen m s path oflags mode = some (file, s')) : s'.IsTidy := by
  obtain ⟨fs, hfs, hcall⟩ := Option.bind_eq_some_iff.mp hcall
  obtain ⟨⟨found, fs'⟩, hopen, hcall⟩ := Option.bind_eq_some_iff.mp hcall
  have hfs' := openInode_tidy (h fs hfs) hopen
  have hopened : ∀ ino, (openFile m s fs' ino oflags).IsTidy := by
    intro ino fs₁ hfs₁
    obtain rfl := Option.some.inj hfs₁
    exact hfs'.inoRef ino
  cases found with
  | none =>
      obtain ⟨-, rfl⟩ := Prod.mk.inj (Option.some.inj hcall)
      exact setFs_tidy hfs'
  | some ino =>
      dsimp only at hcall
      split_ifs at hcall <;> obtain ⟨-, rfl⟩ := Prod.mk.inj (Option.some.inj hcall)
      · exact hopened ino
      · exact setFs_tidy hfs'
      · exact setFs_tidy hfs'
      · exact hopened ino

theorem vfsClose_tidy (h : s.IsTidy) (hcall : vfsClose s i = some s') : s'.IsTidy := by
  obtain ⟨fs, hfs, hcall⟩ := Option.bind_eq_some_iff.mp hcall
  obtain ⟨file, -, hcall⟩ := Option.bind_eq_some_iff.mp hcall
  dsimp only at hcall
  split_ifs at hcall
  · obtain rfl := Option.some.inj hcall
    intro fs' hfs'
    obtain rfl := Option.some.inj hfs'
    exact (h fs hfs).inoDeref file.inode
  · obtain rfl := Option.some.inj hcall
    exact h

theorem vfsRoot_tidy (m : Machine) (h : s.IsTidy) (fsType : CString) : (vfsRoot m s fsType).2.IsTidy := by
  unfold vfsRoot
  split
  · exact h
  · split
    · apply setFs_tidy
      have hnew : Tidy (ramfsReadSb m.memory) := by
        refine ⟨readSb_sound m.memory, fun e he => ?_⟩
        rw [(readSb_sound m.memory).cache_nil] at he
        exact absurd he List.not_mem_nil
      exact hnew.inoRef _
    · intro fs hfs
      simp [State.rootFs] at hfs

theorem step_tidy (call : VfsCall) (h : s.IsTidy) (hcall : s.step m call = some s') : s'.IsTidy := by
  cases call with
  | root fsType =>
      obtain rfl := Option.some.inj hcall
      exact vfsRoot_tidy m h fsType
  | mkdir path mode =>
      obtain ⟨⟨ret, s₁⟩, hr, rfl⟩ := Option.map_eq_some_iff.mp hcall
      exact h.make (fun fs dir name => ramfsInoMkdir fs dir name mode) (fun _ _ _ _ _ => mkdir_made) hr
  | mknod path mode device =>
      obtain ⟨⟨ret, s₁⟩, hr, rfl⟩ := Option.map_eq_some_iff.mp hcall
      exact h.make (fun fs dir name => ramfsInoMknod fs dir name mode device)
        (fun _ _ _ _ _ => mknod_made) hr
  | «open» path oflags mode =>
      obtain ⟨⟨file, s₁⟩, hr, rfl⟩ := Option.map_eq_some_iff.mp hcall
      exact vfsOpen_tidy h hr
  | close id => exact vfsClose_tidy h hcall

theorem run_tidy {calls : List VfsCall} (hrun : run (State.step m) State.init calls = some s) : s.IsTidy :=
  run_preserves State.IsTidy (fun _ call _ => step_tidy call)
    (fun fs hfs => by simp [State.init, State.rootFs] at hfs) hrun

end tidy

/-! ### The last name of a path -/

section lastName
variable {path : CString} {front : List CString} {c : CString}

theorem components_append_slash (a b : CString) :
    components (a ++ slash :: b) = components a ++ components b := by
  simp only [components, List.splitOn_append_cons_self, List.filter_append]

theorem exists_last_slash (h : slash ∈ path) : ∃ a n, path = a ++ slash :: n ∧ slash ∉ n := by
  obtain ⟨n, a, hsplit, hno⟩ := List.eq_append_cons_of_mem (List.mem_reverse.mpr h)
  refine ⟨a.reverse, n.reverse, ?_, fun hm => hno (List.mem_reverse.mp hm)⟩
  rw [← List.reverse_inj, hsplit]
  simp

theorem lastName_append {a n : CString} (hno : slash ∉ n) : lastName (a ++ slash :: n) = n := by
  have hall : ∀ b ∈ n.reverse, decide (b ≠ slash) = true := by
    intro b hb
    rw [decide_eq_true_eq]
    rintro rfl
    exact hno (List.mem_reverse.mp hb)
  rw [lastName, List.reverse_append, List.reverse_cons, List.append_assoc,
    List.takeWhile_append_of_pos hall]
  simp

/-- The name behind the last slash is the last component unless the path ends there. -/
theorem lastName_eq_iff (habs : path.head? = some slash) (hcomps : components path = front ++ [c]) :
    lastName path = c ↔ path.getLast? ≠ some slash := by
  have hmem : c ∈ components path := by simp [hcomps]
  have hc := (mem_components hmem).1
  obtain ⟨a, n, rfl, hno⟩ := exists_last_slash (List.mem_of_head? habs)
  rw [lastName_append hno, List.getLast?_append_of_ne_nil _ (by simp)]
  by_cases hn : n = []
  · subst hn
    simp [hc.symm]
  · have hone : components n = [n] := by
      have hrest := components_append hn hno (.inl rfl)
      rwa [List.append_nil] at hrest
    have hlast : components (a ++ slash :: n) = components a ++ [n] := by
      rw [components_append_slash, hone]
    rw [hcomps] at hlast
    obtain ⟨-, hname⟩ := List.append_inj' hlast rfl
    obtain rfl : c = n := by simpa using hname
    have hne : (slash :: c).getLast? ≠ some slash := by
      intro hslash
      apply hno
      rw [List.getLast?_cons_of_ne_nil hn] at hslash
      exact List.mem_of_getLast? hslash
    exact ⟨fun _ => hne, fun _ => rfl⟩

end lastName

/-! ### Creating under a path -/

/-- The calls that create something under a path; a file is opened for writing. -/
inductive Creation where
  | mkdir (mode : Nat)
  | mknod (mode device : Nat)
  | openNew (mode : Nat)

/-- Whether the call succeeds, and the state it leaves. -/
def Creation.call (m : Machine) (s : State) (path : CString) : Creation → Option (Bool × State)
  | .mkdir mode => (vfsMkdir s path mode).map fun r => (decide (r.1 = 0), r.2)
  | .mknod mode device => (vfsMknod s path mode device).map fun r => (decide (r.1 = 0), r.2)
  | .openNew mode => (vfsOpen m s path (oCreat ||| oWronly) mode).map fun r => (r.1.isSome, r.2)

/-- The mode of `mknod` is that of a device. -/
def Creation.ValidMode : Creation → Prop
  | .mknod mode _ => mode &&& 0xf000 = sIfblk ∨ mode &&& 0xf000 = sIfchr
  | _ => True

def Creation.isOpen : Creation → Bool
  | .openNew _ => true
  | _ => false

/-- The directory has one entry more, with this name and a new inode, nothing else has changed
in the tree, and the path leads to the new inode. -/
structure CreatesIn (fs fs' : Fs) (path : CString) (dir : Nat) (c : CString) : Prop where
  added : ∃ entries, fs.dirEntries dir = some entries ∧
    fs'.dirEntries dir = some (⟨c, fs.next⟩ :: entries)
  others : ∀ i < fs.next, i ≠ dir → fs'.dirEntries i = fs.dirEntries i
  next_eq : fs'.next = fs.next + 1
  visible : (vfsLookup fs' path 0).map LookupResult.answer = some (0, some fs.next)

/-- With a parent directory the call creates the last component there, without one it fails and
nothing but counters and the name cache changes. -/
def Creation.Meets (m : Machine) (s : State) (fs : Fs) (path c : CString) (op : Creation) : Prop :=
  match parentFrom fs fs.root fs.root (components path) with
  | some dir => ∃ s' fs', op.call m s path = some (true, s') ∧ s'.rootFs = some fs' ∧
      CreatesIn fs fs' path dir c
  | none => ∃ s' fs', op.call m s path = some (false, s') ∧ s'.rootFs = some fs' ∧ fs.RefsOnly fs'

/-- The walk takes exact steps with the name cache as it is. With the names that it adds to the
cache so does the next one, which `vfs_open` takes at once and which is to find a new entry. -/
def Creation.WalksExactly (fs : Fs) (path : CString) (op : Creation) : Prop :=
  StepsExact fs fs.nameCacheList fs.root (components path) ∧
    ((parentFrom fs fs.root fs.root (components path)).isSome = true ∨ op.isOpen = true →
      StepsExact fs (cacheAfter fs fs.nameCacheList fs.root (components path)) fs.root (components path))

/-- Below a directory that exists the path does not end in a slash and its last name is short;
below one that does not, the call is no `vfs_open`. -/
def Creation.Clear (fs : Fs) (path c : CString) (op : Creation) : Prop :=
  match parentFrom fs fs.root fs.root (components path) with
  | some _ => path.getLast? ≠ some slash ∧ c.length < ramfsMaxFilename
  | none => op.isOpen = false

section creating
variable {fs fs₁ fs₂ fs' : Fs} {m : Machine} {s : State} {path c name : CString}
  {front : List CString} {dir mode device flags : Nat} {entries : List DirEntry} {r : LookupResult}

theorem createGeneric_new (h : fs.CanName dir name entries) (mode : Nat) :
    ramfsInoCreateGeneric fs dir name mode = some (0, some fs.next,
      fs.grow dir entries name { fs.freshInode mode with
        refcnt := ((fs.inodes fs.next).refcnt + 1) % 2 ^ 32 } none) := by
  have hnone : ¬ (entries.any fun e => decide (e.name = name)) = true := by
    simpa using h.unused
  simp only [ramfsInoCreateGeneric, h.list, Option.bind_eq_bind, Option.bind_some, if_neg hnone,
    if_neg (Nat.not_le.mpr h.short), Fs.inoRef, Fs.setInode, Fs.setEntries, Fs.grow, Fs.freshInode,
    Function.update_self, Function.update_idem]

theorem mkdir_new (h : fs.CanName dir name entries) (mode : Nat) :
    ∃ ino list, ramfsInoMkdir fs dir name mode = some (0, fs.grow dir entries name ino list) := by
  refine ⟨{ fs.freshInode (mode &&& 0xfff ||| sIfdir) with
    refcnt := ((fs.inodes fs.next).refcnt + 1) % 2 ^ 32 }, some [⟨[dot], fs.next⟩, ⟨[dot, dot], dir⟩], ?_⟩
  rw [ramfsInoMkdir, createGeneric_new h]
  simp only [Option.bind_eq_bind, Option.bind_some, Fs.setEntries, Fs.grow, Function.update_idem]

theorem mknod_new (h : fs.CanName dir name entries)
    (hmode : mode &&& 0xf000 = sIfblk ∨ mode &&& 0xf000 = sIfchr) (device : Nat) :
    ∃ ino list, ramfsInoMknod fs dir name mode device = some (0, fs.grow dir entries name ino list) := by
  refine ⟨{ fs.freshInode mode with
    refcnt := ((fs.inodes fs.next).refcnt + 1) % 2 ^ 32
    dev := device }, none, ?_⟩
  rw [ramfsInoMknod, if_pos hmode, createGeneric_new h]
  simp only [Option.bind_eq_bind, Option.bind_some, Fs.setInode, Fs.grow, Function.update_self,
    Function.update_idem]

theorem create_new (h : fs.CanName dir name entries) (mode : Nat) :
    ∃ ino, ino.mode = mode &&& 0xfff ||| sIfreg ∧ ramfsInoCreate fs dir name mode =
      some (0, some fs.next, fs.grow dir entries name ino none) := by
  refine ⟨{ fs.freshInode (mode &&& 0xfff ||| sIfreg) with
    refcnt := (((fs.inodes fs.next).refcnt + 1) % 2 ^ 32 + 1) % 2 ^ 32 }, rfl, ?_⟩
  rw [ramfsInoCreate, createGeneric_new h]
  simp only [Option.bind_eq_bind, Option.bind_some, Fs.inoRef, Fs.setInode, Fs.grow,
    Function.update_self, Function.update_idem]

/-- The walk finds the parent and nothing under the last component, also after it has left its
names in the cache; and it then finds a new entry of the parent. -/
structure Aims (fs : Fs) (path c : CString) (dir : Nat) : Prop where
  first : resolve fs fs.nameCacheList fs.root fs.root (components path) = some (.missing dir true)
  second : resolve fs (cacheAfter fs fs.nameCacheList fs.root (components path)) fs.root fs.root
    (components path) = some (.missing dir true)
  settled : cacheAfter fs (cacheAfter fs fs.nameCacheList fs.root (components path)) fs.root
    (components path) = cacheAfter fs fs.nameCacheList fs.root (components path)
  finds : ∀ (fs' : Fs) (n : Nat) (entries : List DirEntry),
    fs'.dirEntries dir = some (⟨c, n⟩ :: entries) →
      resolve fs' (cacheAfter fs fs.nameCacheList fs.root (components path)) fs.root fs.root
        (components path) = some (.found dir n)

theorem aims_of_exact (hfirst : StepsExact fs fs.nameCacheList fs.root (components path))
    (hsecond : StepsExact fs (cacheAfter fs fs.nameCacheList fs.root (components path)) fs.root
      (components path)) (hcomps : components path = front ++ [c])
    (hdir : exactWalk fs fs.root front = some dir) (hnone : exactEntry fs dir c = none) :
    Aims fs path c dir := by
  have hhits := allHits_cacheAfter hfirst
  have hend : ∀ cache, StepsExact fs cache fs.root (components path) →
      resolve fs cache fs.root fs.root (components path) = some (.missing dir true) := by
    intro cache hexact
    rw [hcomps] at hexact ⊢
    have hwalk := resolve_of_exact fs.root hexact
    rw [hdir] at hwalk
    exact hwalk.2 hnone
  refine ⟨hend _ hfirst, hend _ hsecond, hhits.cacheAfter_eq hsecond, fun fs' n entries hnew => ?_⟩
  rw [hcomps] at hhits hsecond ⊢
  exact hhits.resolve_new fs.root hsecond hdir hnone hnew

theorem firstMatch_congr (hd : fs'.dirEntries = fs.dirEntries) (cache : List NameEntry) (cur : Nat)
    (c : CString) : firstMatch fs' cache cur c = firstMatch fs cache cur c := by
  have hdir : ramfsInoLookup fs' cur c = ramfsInoLookup fs cur c := by
    simp only [ramfsInoLookup, hd]
  simp only [firstMatch, hdir]
  rfl

theorem resolve_congr (hd : fs'.dirEntries = fs.dirEntries) (cache : List NameEntry) (par cur : Nat)
    (comps : List CString) : resolve fs' cache par cur comps = resolve fs cache par cur comps := by
  induction comps generalizing cache par cur with
  | nil => rfl
  | cons c cs ih =>
      simp only [resolve, firstMatch_congr hd]
      split
      · exact ih _ _ _
      · rfl
      · rfl

theorem cacheAfter_congr (hd : fs'.dirEntries = fs.dirEntries) (cache : List NameEntry) (cur : Nat)
    (comps : List CString) : cacheAfter fs' cache cur comps = cacheAfter fs cache cur comps := by
  induction comps generalizing cache cur with
  | nil => rfl
  | cons c cs ih =>
      simp only [cacheAfter, firstMatch_congr hd]
      split
      · exact ih _ _
      · rfl

theorem lookup_of_resolve {w : Resolved} (habs : path.head? = some slash) (flags : Nat)
    (hw : resolve fs fs.nameCacheList fs.root fs.root (components path) = some w) :
    ∃ r, vfsLookup fs path flags = some r ∧ r.answer = w.answer flags ∧ fs.RefsOnly r.fs ∧
      r.fs.nameCacheList = cacheAfter fs fs.nameCacheList fs.root (components path) := by
  have hanswer := vfsLookup_resolve fs habs flags
  rw [hw] at hanswer
  obtain ⟨r, hr, heq⟩ := Option.map_eq_some_iff.mp hanswer
  exact ⟨r, hr, heq, vfsLookup_leaves hr⟩

theorem lookup_misses {last : Bool} (flags : Nat) (habs : path.head? = some slash)
    (hw : resolve fs fs.nameCacheList fs.root fs.root (components path) = some (.missing dir last))
    (hno : last = false ∨ flags = 0) :
    ∃ r, vfsLookup fs path flags = some r ∧ (r.code ≠ 0 ∧ r.res = none) ∧ fs.RefsOnly r.fs ∧
      r.fs.nameCacheList = cacheAfter fs fs.nameCacheList fs.root (components path) := by
  obtain ⟨r, hr, hanswer, hrest⟩ := lookup_of_resolve habs flags hw
  have hcodes : r.code = -enoent ∧ r.res = none := by
    rcases hno with rfl | rfl <;> simpa [Resolved.answer, LookupResult.answer] using hanswer
  refine ⟨r, hr, ⟨?_, hcodes.2⟩, hrest⟩
  rw [hcodes.1]
  decide

/-- Only the last component is missing, and its directory is asked for. -/
theorem lookup_parent (habs : path.head? = some slash)
    (hw : resolve fs fs.nameCacheList fs.root fs.root (components path) = some (.missing dir true)) :
    ∃ r, vfsLookup fs path lookupParent = some r ∧ (r.code = 0 ∧ r.res = some dir) ∧ fs.RefsOnly r.fs ∧
      r.fs.nameCacheList = cacheAfter fs fs.nameCacheList fs.root (components path) := by
  obtain ⟨r, hr, hanswer, hrest⟩ := lookup_of_resolve habs lookupParent hw
  refine ⟨r, hr, ?_, hrest⟩
  simpa [Resolved.answer, lookupParent, LookupResult.answer] using hanswer

/-- The tree after the walk, in which the new entry is made. -/
structure Traced (fs : Fs) (path : CString) (fs₁ : Fs) : Prop where
  refs : fs.RefsOnly fs₁
  cache_eq : fs₁.nameCacheList = cacheAfter fs fs.nameCacheList fs.root (components path)

/-- The body that `vfs_mkdir` and `vfs_mknod` share. -/
theorem Aims.make (h : Aims fs path c dir) (habs : path.head? = some slash) (hfs : s.rootFs = some fs)
    (make : Fs → Nat → CString → Option (Int × Fs)) :
    ∃ fs₁, Traced fs path fs₁ ∧
      (s.rootFs.bind fun fs => (vfsLookup fs path lookupParent).bind fun r =>
        if r.code ≠ 0 then some (r.code, s.setFs r.fs)
        else r.res.bind fun parent => (make r.fs parent (lastName path)).bind fun made =>
          some (made.1, s.setFs (made.2.inoDeref parent))) =
        (make fs₁ dir (lastName path)).map fun made => (made.1, s.setFs (made.2.inoDeref dir)) := by
  obtain ⟨r, hr, ⟨hcode, hres⟩, hrefs, hcache⟩ := lookup_parent habs h.first
  refine ⟨r.fs, ⟨hrefs, hcache⟩, ?_⟩
  simp only [hfs, Option.bind_some, hr, hcode, hres, ne_eq, not_true_eq_false, if_false]
  cases make r.fs dir (lastName path) <;> rfl

/-- The first part of `vfs_open`, which walks twice. -/
theorem Aims.openInode (h : Aims fs path c dir) (habs : path.head? = some slash) (mode : Nat) :
    ∃ fs₁, Traced fs path fs₁ ∧ openInode fs path (oCreat ||| oWronly) mode =
      (ramfsInoCreate fs₁ dir (lastName path) mode).map fun made => (made.2.1, made.2.2) := by
  obtain ⟨r, hr, hmiss, hrefs, hcache⟩ := lookup_misses 0 habs h.first (.inr rfl)
  have hagain : resolve r.fs r.fs.nameCacheList r.fs.root r.fs.root (components path) =
      some (.missing dir true) := by
    rw [resolve_congr hrefs.dirEntries, hcache, hrefs.root]
    exact h.second
  obtain ⟨r', hr', ⟨-, hres'⟩, hrefs', hcache'⟩ := lookup_parent habs hagain
  have hcreat : (oCreat ||| oWronly) &&& oCreat ≠ 0 ∧ (oCreat ||| oWronly) &&& oRdonly = 0 := by decide
  refine ⟨r'.fs, ⟨hrefs.trans hrefs', ?_⟩, ?_⟩
  · rw [hcache', cacheAfter_congr hrefs.dirEntries, hcache, hrefs.root]
    exact h.settled
  · simp only [Vfs.openInode, hr, hr', hres', Option.bind_eq_bind, Option.bind_some, if_pos hmiss,
      if_pos hcreat]
    cases ramfsInoCreate r'.fs dir (lastName path) mode <;> rfl

/-- What a call makes of the tree that the walk has left. -/
structure Creation.Makes (m : Machine) (s : State) (fs₁ : Fs) (path : CString) (dir : Nat)
    (op : Creation) : Prop where
  succeeds : ∀ entries, fs₁.CanName dir (lastName path) entries → ∃ s' fs' ino list,
    op.call m s path = some (true, s') ∧ s'.rootFs = some fs' ∧
      (fs₁.grow dir entries (lastName path) ino list).RefsOnly fs' ∧
      fs'.nameCacheList = fs₁.nameCacheList
  only : ∀ s' fs', op.call m s path = some (true, s') → s'.rootFs = some fs' →
    ∃ fs₂, Made fs₁ dir (lastName path) fs₂ ∧ fs'.dirEntries = fs₂.dirEntries

theorem Creation.Makes.of_make {op : Creation} {call : Option (Int × State)} (made : Option (Int × Fs))
    (hop : op.call m s path = call.map fun r => (decide (r.1 = 0), r.2))
    (hcall : call = made.map fun made => (made.1, s.setFs (made.2.inoDeref dir)))
    (hnew : ∀ entries, fs₁.CanName dir (lastName path) entries →
      ∃ ino list, made = some (0, fs₁.grow dir entries (lastName path) ino list))
    (hmade : ∀ ret fs', made = some (ret, fs') → Made fs₁ dir (lastName path) fs') :
    op.Makes m s fs₁ path dir := by
  rw [hcall, Option.map_map] at hop
  constructor
  · intro entries hname
    obtain ⟨ino, list, hmake⟩ := hnew entries hname
    refine ⟨s.setFs ((fs₁.grow dir entries (lastName path) ino list).inoDeref dir), _, ino, list, ?_,
      rfl, (Fs.RefsOnly.refl _).inoDeref dir, rfl⟩
    rw [hop, hmake]
    rfl
  · intro s' fs' hs' hfs'
    rw [hop] at hs'
    obtain ⟨⟨ret, fs₂⟩, hmake, heq⟩ := Option.map_eq_some_iff.mp hs'
    obtain ⟨-, rfl⟩ := Prod.mk.inj heq
    obtain rfl := Option.some.inj hfs'
    exact ⟨fs₂, hmade ret fs₂ hmake, rfl⟩

/-- A new file is opened at once: it is a regular file and not the root. -/
theorem vfsOpen_new {oflags : Nat} {ino : Inode} (hroot : fs₁.root < fs₁.next) (hfs : s.rootFs = some fs)
    (hmode : ino.mode = mode &&& 0xfff ||| sIfreg)
    (hopen : openInode fs path oflags mode =
      some (some fs₁.next, fs₁.grow dir entries name ino none)) :
    vfsOpen m s path oflags mode = some (some s.nextFile,
      openFile m s (fs₁.grow dir entries name ino none) fs₁.next oflags) := by
  have htype : inoType ((fs₁.grow dir entries name ino none).inodes fs₁.next) = sIfreg := by
    simp only [inoType, Fs.grow, Function.update_self, hmode]
    exact typed_mode mode sIfreg (by decide)
  have hne : fs₁.next ≠ (fs₁.grow dir entries name ino none).root := Nat.ne_of_gt hroot
  simp only [vfsOpen, hfs, hopen, Option.bind_eq_bind, Option.bind_some, htype]
  rw [if_neg (by decide), if_neg (by decide), if_pos ⟨.inl trivial, hne⟩]

theorem Aims.makes (h : Aims fs path c dir) (ht : Tidy fs) (habs : path.head? = some slash)
    (hfs : s.rootFs = some fs) {op : Creation} (hmode : op.ValidMode) :
    ∃ fs₁, Traced fs path fs₁ ∧ op.Makes m s fs₁ path dir := by
  cases op with
  | mkdir mode =>
      obtain ⟨fs₁, htraced, hcall⟩ :=
        h.make habs hfs fun fs dir name => ramfsInoMkdir fs dir name mode
      exact ⟨fs₁, htraced, .of_make _ rfl hcall (fun _ hname => mkdir_new hname mode)
        fun _ _ => mkdir_made⟩
  | mknod mode device =>
      obtain ⟨fs₁, htraced, hcall⟩ :=
        h.make habs hfs fun fs dir name => ramfsInoMknod fs dir name mode device
      exact ⟨fs₁, htraced, .of_make _ rfl hcall (fun _ hname => mknod_new hname hmode device)
        fun _ _ => mknod_made⟩
  | openNew mode =>
      obtain ⟨fs₁, htraced, hopen⟩ := h.openInode habs mode
      have hroot : fs₁.root < fs₁.next := by
        rw [htraced.refs.root, htraced.refs.next]
        exact ht.sound.root_lt
      refine ⟨fs₁, htraced, ?_, ?_⟩
      · intro entries hname
        obtain ⟨ino, hmode, hcreate⟩ := create_new hname mode
        rw [hcreate] at hopen
        have hcall := vfsOpen_new (m := m) hroot hfs hmode hopen
        refine ⟨openFile m s (fs₁.grow dir entries (lastName path) ino none) fs₁.next (oCreat ||| oWronly),
          _, ino, none, ?_, rfl, (Fs.RefsOnly.refl _).inoRef fs₁.next, rfl⟩
        simp only [Creation.call, hcall, Option.map_some, Option.isSome_some]
      · intro s' fs' hs' hfs'
        obtain ⟨⟨file, s₁⟩, hcall, heq⟩ := Option.map_eq_some_iff.mp hs'
        obtain ⟨-, rfl⟩ := Prod.mk.inj heq
        obtain ⟨fs₀, hfs₀, hcall⟩ := Option.bind_eq_some_iff.mp hcall
        obtain rfl := Option.some.inj (hfs.symm.trans hfs₀)
        obtain ⟨⟨found, fs₂⟩, hfound, hcall⟩ := Option.bind_eq_some_iff.mp hcall
        rw [hopen] at hfound
        obtain ⟨⟨ret, hit, fs₃⟩, hcreate, heq⟩ := Option.map_eq_some_iff.mp hfound
        obtain ⟨rfl, rfl⟩ := Prod.mk.inj heq
        obtain ⟨fs₂, hmade, rfl⟩ := create_made hcreate
        refine ⟨fs₂, hmade, ?_⟩
        cases hit with
        | none =>
            obtain ⟨-, rfl⟩ := Prod.mk.inj (Option.some.inj hcall)
            obtain rfl := Option.some.inj hfs'
            rfl
        | some ino =>
            dsimp only at hcall
            split_ifs at hcall <;> obtain ⟨-, rfl⟩ := Prod.mk.inj (Option.some.inj hcall) <;>
              obtain rfl := Option.some.inj hfs' <;> rfl

theorem parentFrom_concat (fs : Fs) (par cur : Nat) (front : List CString) (c : CString) :
    parentFrom fs par cur (front ++ [c]) = (exactWalk fs cur front).filter fs.isDir := by
  rw [parentFrom, if_neg (by simp), List.dropLast_concat]

theorem not_named_of_exactEntry (hdir : fs.isDir dir = true) (hlist : fs.dirEntries dir = some entries)
    (hnone : exactEntry fs dir c = none) : ∀ e ∈ entries, e.name ≠ c := by
  rw [exactEntry, if_pos hdir, hlist, Option.getD_some, Option.map_eq_none_iff] at hnone
  intro e he
  simpa using List.find?_eq_none.mp hnone e he

theorem Tidy.exactWalk_lt (ht : Tidy fs) {cur : Nat} (hcur : cur < fs.next)
    (h : exactWalk fs cur front = some dir) : dir < fs.next := by
  induction front generalizing cur with
  | nil =>
      obtain rfl := Option.some.inj h
      exact hcur
  | cons b bs ih =>
      obtain ⟨j, hj, h⟩ := Option.bind_eq_some_iff.mp h
      exact ih (ht.sound.exactEntry_lt hj) h

/-- The last step of an exact walk is taken in a directory. -/
theorem Tidy.isDir_of_exact (ht : Tidy fs) {cache : List NameEntry}
    (hexact : StepsExact fs cache fs.root (front ++ [c]))
    (h : exactWalk fs fs.root front = some dir) : fs.isDir dir = true := by
  have hend := resolve_of_exact fs.root hexact
  rw [h] at hend
  have hlt : dir < fs.next := ht.exactWalk_lt ht.sound.root_lt h
  have hdir : fs.dropCache.isDir dir = true :=
    @Fs.Sound.isDir_of_match fs.dropCache (cacheAfter fs cache fs.root front) dir c ht.sound hlt hend.1
  exact hdir

theorem Aims.creates_iff (h : Aims fs path c dir) (ht : Tidy fs) (habs : path.head? = some slash)
    (hfs : s.rootFs = some fs) {op : Creation} (hmode : op.ValidMode)
    (hlist : fs.dirEntries dir = some entries) (hfree : ∀ e ∈ entries, e.name ≠ c) :
    (∃ s' fs', op.call m s path = some (true, s') ∧ s'.rootFs = some fs' ∧
      CreatesIn fs fs' path dir c) ↔ lastName path = c ∧ c.length < ramfsMaxFilename := by
  obtain ⟨fs₁, htraced, hmakes⟩ := h.makes (m := m) ht habs hfs hmode
  have hlist₁ : fs₁.dirEntries dir = some entries := by rw [htraced.refs.dirEntries, hlist]
  have hlt : dir < fs.next := ht.sound.dir_lt hlist
  have hne : dir ≠ fs₁.next := by
    rw [htraced.refs.next]
    exact Nat.ne_of_lt hlt
  constructor
  · rintro ⟨s', fs', hcall, hfs', hcreates⟩
    obtain ⟨entries', hlist', hadded⟩ := hcreates.added
    obtain ⟨fs₂, hmade, hdirs⟩ := hmakes.only s' fs' hcall hfs'
    rw [hdirs] at hadded
    rcases hmade with rfl | ⟨entries₂, ino, list, hname, -, -, rfl⟩
    · rw [htraced.refs.dirEntries, hlist'] at hadded
      simp at hadded
    · rw [grow_list_of_ne hne, if_pos rfl, Option.some.injEq, List.cons.injEq] at hadded
      obtain ⟨hlast, -⟩ := DirEntry.mk.inj hadded.1
      exact ⟨hlast, hlast ▸ hname.short⟩
  · rintro ⟨hlast, hshort⟩
    have hname : fs₁.CanName dir (lastName path) entries := by
      rw [hlast]
      exact ⟨hlist₁, hfree, hshort⟩
    obtain ⟨s', fs', ino, list, hcall, hfs', hrefs, hcache⟩ := hmakes.succeeds entries hname
    rw [hlast] at hrefs
    have hadded : fs'.dirEntries dir = some (⟨c, fs.next⟩ :: entries) := by
      rw [hrefs.dirEntries, grow_list_of_ne hne, if_pos rfl, htraced.refs.next]
    refine ⟨s', fs', hcall, hfs', ⟨entries, hlist, hadded⟩, ?_, ?_, ?_⟩
    · intro i hi hid
      have hin : i ≠ fs₁.next := by
        rw [htraced.refs.next]
        exact Nat.ne_of_lt hi
      rw [hrefs.dirEntries, grow_list_of_ne hin, if_neg hid, htraced.refs.dirEntries]
    · rw [hrefs.next]
      show fs₁.next + 1 = fs.next + 1
      rw [htraced.refs.next]
    · have hroot : fs'.root = fs.root := by
        rw [hrefs.root]
        exact htraced.refs.root
      rw [vfsLookup_resolve fs' habs, hcache, htraced.cache_eq, hroot, h.finds fs' fs.next entries hadded]
      rfl

theorem missing_fails_iff (habs : path.head? = some slash) (hfs : s.rootFs = some fs) {op : Creation}
    (hmiss : ∃ dir, resolve fs fs.nameCacheList fs.root fs.root (components path) =
      some (.missing dir false))
    (hagain : op.isOpen = true → ∃ dir, resolve fs (cacheAfter fs fs.nameCacheList fs.root
      (components path)) fs.root fs.root (components path) = some (.missing dir false)) :
    (∃ s' fs', op.call m s path = some (false, s') ∧ s'.rootFs = some fs' ∧ fs.RefsOnly fs') ↔
      op.isOpen = false := by
  obtain ⟨dir, hmiss⟩ := hmiss
  obtain ⟨r, hr, ⟨hne, -⟩, hrefs, -⟩ := lookup_misses lookupParent habs hmiss (.inl rfl)
  have hfail : decide (r.code = 0) = false := by simpa using hne
  cases op with
  | mkdir mode =>
      have hcall : vfsMkdir s path mode = some (r.code, s.setFs r.fs) := by
        simp [vfsMkdir, hfs, hr, hne]
      simp only [Creation.call, hcall, Option.map_some, hfail, Creation.isOpen, iff_true]
      exact ⟨_, r.fs, rfl, rfl, hrefs⟩
  | mknod mode device =>
      have hcall : vfsMknod s path mode device = some (r.code, s.setFs r.fs) := by
        simp [vfsMknod, hfs, hr, hne]
      simp only [Creation.call, hcall, Option.map_some, hfail, Creation.isOpen, iff_true]
      exact ⟨_, r.fs, rfl, rfl, hrefs⟩
  | openNew mode =>
      obtain ⟨dir', hagain⟩ := hagain rfl
      obtain ⟨r₀, hr₀, hne₀, hrefs₀, hcache₀⟩ := lookup_misses 0 habs hmiss (.inr rfl)
      have hsecond : resolve r₀.fs r₀.fs.nameCacheList r₀.fs.root r₀.fs.root (components path) =
          some (.missing dir' false) := by
        rw [resolve_congr hrefs₀.dirEntries, hcache₀, hrefs₀.root]
        exact hagain
      obtain ⟨r₁, hr₁, hnull, -⟩ := lookup_misses lookupParent habs hsecond (.inl rfl)
      have hcreat : (oCreat ||| oWronly) &&& oCreat ≠ 0 ∧ (oCreat ||| oWronly) &&& oRdonly = 0 := by decide
      -- the null parent is followed
      have hfault : openInode fs path (oCreat ||| oWronly) mode = none := by
        simp only [openInode, hr₀, hr₁, hnull.2, Option.bind_eq_bind, Option.bind_some, if_pos hne₀,
          if_pos hcreat, Option.bind_none]
      have hcall : vfsOpen m s path (oCreat ||| oWronly) mode = none := by
        simp [vfsOpen, hfs, hfault]
      simp [Creation.call, hcall, Creation.isOpen]

/-- In every state that the calls of the file system reach, for every absolute path with a last
component that the parent does not have yet and whose walks take exact steps: the call creates
the component in the parent, or fails cleanly without a parent, exactly when the path is clear
for it. -/
theorem creation_meets_iff {calls : List VfsCall} {op : Creation}
    (hrun : run (State.step m) State.init calls = some s) (hfs : s.rootFs = some fs)
    (habs : path.head? = some slash) (hcomps : components path = front ++ [c]) (hmode : op.ValidMode)
    (hfree : ∀ dir, parentFrom fs fs.root fs.root (components path) = some dir →
      exactEntry fs dir c = none) (hexact : op.WalksExactly fs path) :
    op.Meets m s fs path c ↔ op.Clear fs path c := by
  have ht := run_tidy hrun fs hfs
  obtain ⟨hfirst, hsecond⟩ := hexact
  unfold Creation.Meets Creation.Clear
  cases hparent : parentFrom fs fs.root fs.root (components path) with
  | some dir =>
      have hagain := hsecond (.inl (by rw [hparent, Option.isSome_some]))
      have hnone := hfree dir hparent
      rw [hcomps, parentFrom_concat, Option.filter_eq_some_iff] at hparent
      obtain ⟨hwalk, hdir⟩ := hparent
      have hlt : dir < fs.next := ht.exactWalk_lt ht.sound.root_lt hwalk
      obtain ⟨entries, hlist⟩ := Option.isSome_iff_exists.mp ((ht.sound.dirs dir hlt).mp hdir)
      have hcreates := (aims_of_exact hfirst hagain hcomps hwalk hnone).creates_iff (m := m) ht habs
        hfs hmode hlist (not_named_of_exactEntry hdir hlist hnone)
      rw [lastName_eq_iff habs hcomps] at hcreates
      exact hcreates
  | none =>
      rw [hcomps, parentFrom_concat] at hparent
      have hnone : exactWalk fs fs.root front = none := by
        cases hwalk : exactWalk fs fs.root front with
        | none => rfl
        | some dir =>
            have hdir := ht.isDir_of_exact (hcomps ▸ hfirst) hwalk
            simp [hwalk, hdir] at hparent
      have hmiss : ∀ cache, StepsExact fs cache fs.root (components path) →
          ∃ dir, resolve fs cache fs.root fs.root (components path) = some (.missing dir false) := by
        intro cache hsteps
        rw [hcomps] at hsteps ⊢
        have hend := resolve_of_exact fs.root hsteps
        rwa [hnone] at hend
      exact missing_fails_iff habs hfs (hmiss _ hfirst) fun hopen => hmiss _ (hsecond (.inr hopen))

end creating

/-! ### Two paths in a new tree -/

instance Creation.WalksExactly.decidable (fs : Fs) (path : CString) (op : Creation) :
    Decidable (op.WalksExactly fs path) :=
  inferInstanceAs (Decidable (_ ∧ (_ → _)))

/-- The root is mounted. -/
def newTree : Fs := (ramfsReadSb fun _ => blankInode).inoRef 0

theorem run_root : run (State.step blankMachine) State.init [.root (cstring ramfsName)] =
    some (State.init.setFs newTree) := by
  have hname : (cstring ramfsName).map Subtype.val = ramfsName := by decide
  have hroot : vfsRoot blankMachine State.init (cstring ramfsName) = (0, State.init.setFs newTree) := by
    rw [vfsRoot, State.init]
    exact if_pos hname
  show some (vfsRoot blankMachine State.init (cstring ramfsName)).2 = _
  rw [hroot]

/-- The directory `/a` is made in the root. -/
theorem mkdir_in_root : (Creation.mkdir 0).Meets blankMachine (State.init.setFs newTree) newTree
    (cstring [47, 97]) (cstring [97]) := by
  have hcomps : components (cstring [47, 97]) = [] ++ [cstring [97]] := by decide
  have hmode : (Creation.mkdir 0).ValidMode := trivial
  have hparent : parentFrom newTree newTree.root newTree.root (components (cstring [47, 97])) = some 0 := by
    decide +kernel
  have hfree : exactEntry newTree 0 (cstring [97]) = none := by decide +kernel
  have hexact : (Creation.mkdir 0).WalksExactly newTree (cstring [47, 97]) := by decide +kernel
  refine (creation_meets_iff run_root rfl (by decide) hcomps hmode ?_ hexact).mpr ?_
  · intro dir hdir
    obtain rfl := Option.some.inj (hparent.symm.trans hdir)
    exact hfree
  · rw [Creation.Clear, hparent]
    decide

/-- The directory `/a/` gets an empty name. -/
theorem mkdir_ends_in_slash :
    ¬ ∀ (m : Machine) (calls : List VfsCall) (s : State) (fs : Fs) (path c : CString)
      (front : List CString) (op : Creation), run (State.step m) State.init calls = some s →
        s.rootFs = some fs → path.head? = some slash → components path = front ++ [c] → op.ValidMode →
        (∀ dir, parentFrom fs fs.root fs.root (components path) = some dir →
          exactEntry fs dir c = none) → op.Meets m s fs path c := by
  intro hall
  have hparent : parentFrom newTree newTree.root newTree.root (components (cstring [47, 97, 47])) =
      some 0 := by
    decide +kernel
  have hfree : exactEntry newTree 0 (cstring [97]) = none := by decide +kernel
  have hmeets := hall blankMachine _ _ newTree (cstring [47, 97, 47]) (cstring [97]) [] (.mkdir 0) run_root
    rfl (by decide) (by decide) trivial (fun dir hdir => by
      obtain rfl := Option.some.inj (hparent.symm.trans hdir)
      exact hfree)
  rw [Creation.Meets, hparent] at hmeets
  obtain ⟨s', fs', hcall, hfs', hcreates⟩ := hmeets
  have hbad : ((Creation.mkdir 0).call blankMachine (State.init.setFs newTree) (cstring [47, 97, 47])).all
      (fun r => r.2.rootFs.all fun fs' => decide ((fs'.dirEntries 0).map (List.map DirEntry.name) =
        some [[], [dot], [dot, dot]])) = true := by
    decide +kernel
  rw [hcall, Option.all_some, hfs', Option.all_some, decide_eq_true_iff] at hbad
  obtain ⟨entries, -, hadded⟩ := hcreates.added
  rw [hadded] at hbad
  simp [cstring] at hbad

end Lucix.Vfs
