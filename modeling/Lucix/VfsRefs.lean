import Lucix.Vfs
import Lucix.LookupRefs

/-! Inode counters over runs of the calls of `fs/vfs.c`. Lookup, `mkdir` and `mknod`
give back what they take; `vfs_open` keeps the reference of the lookup beside the one
of the open file, and with `O_CREAT` those of the parent and of the creation as well. -/
namespace Lucix.Vfs
open Ramfs RefCount Execution
open FileIo (Inode)

/-- One reference for the entry of each inode, and for the root one for the superblock and one
for the mount. -/
def ownHolds (fs : Fs) : Multiset Nat := Multiset.range fs.next + {fs.root}

def fileHolds (files : List File) : Multiset Nat := (files.map File.inode : List Nat)

/-- All references that the claimed holders have. -/
def holders (fs : Fs) (files : List File) : Multiset Nat :=
  ownHolds fs + fileHolds files + cacheHolds fs.nameCacheList

/-- Every counter is the number of holders of its inode. -/
def State.Counted (s : State) : Prop :=
  ∀ fs, s.rootFs = some fs → ∀ i < fs.next, fs.refcnt i = (holders fs s.files).count i % 2 ^ 32

/-- The invariant: beside the holders, the references `extra` are outstanding; entries and
cached names stay among the inodes. -/
structure Accounts (fs : Fs) (files : List File) (extra : Multiset Nat) : Prop where
  tally : Tally (2 ^ 32) (fun _ => 0) fs.refcnt (extra + holders fs files)
  sound : fs.dropCache.Sound
  cached : fs.CacheInside

section accounts
variable {fs fs' : Fs} {files : List File} {extra : Multiset Nat} {i dir mode flags : Nat}
  {name path : CString} {r : LookupResult}

theorem Accounts.countsFit (h : Accounts fs files extra) : fs.CountsFit := by
  intro i
  rw [h.tally i]
  exact Nat.mod_lt _ (by norm_num)

theorem Accounts.inoRef (h : Accounts fs files extra) (i : Nat) :
    Accounts (fs.inoRef i) files (i ::ₘ extra) where
  tally := by
    rw [Multiset.cons_add]
    exact h.tally.incr (refcnt_setInode_self fs i _) fun j hj => refcnt_setInode_of_ne fs _ hj
  sound := ((Fs.RefsOnly.refl fs).setRefcnt i _).sound h.sound
  cached := h.cached

theorem Accounts.inoDeref (h : Accounts fs files (i ::ₘ extra)) :
    Accounts (fs.inoDeref i) files extra where
  tally := by
    have htally := h.tally
    rw [Multiset.cons_add] at htally
    exact htally.decr (by norm_num) (refcnt_setInode_self fs i _)
      fun j hj => refcnt_setInode_of_ne fs _ hj
  sound := ((Fs.RefsOnly.refl fs).setRefcnt i _).sound h.sound
  cached := h.cached

theorem Accounts.lookup (h : Accounts fs files extra) (hr : vfsLookup fs path flags = some r) :
    Accounts r.fs files (r.res.toList + extra) ∧ r.fs.next = fs.next ∧
      ∀ i, r.res = some i → i < fs.next := by
  obtain ⟨-, new, hholds⟩ := vfsLookup_holds h.countsFit hr
  obtain ⟨hcached, hres⟩ := vfsLookup_inside h.sound h.cached hr
  refine ⟨⟨?_, hholds.only.sound h.sound, hcached⟩, hholds.only.next, hres⟩
  have hsum : (r.res.toList + extra : Multiset Nat) + holders r.fs files =
      (r.res.toList + cacheHolds new) + (extra + holders fs files) := by
    have hcache : cacheHolds r.fs.nameCacheList = cacheHolds new + cacheHolds fs.nameCacheList := by
      rw [hholds.cache, cacheHolds, cacheHolds, cacheHolds, List.map_append, List.map_append,
        ← Multiset.coe_add, ← Multiset.coe_add, add_add_add_comm]
    have hown : ownHolds r.fs = ownHolds fs := by
      rw [ownHolds, ownHolds, hholds.only.next, hholds.only.root]
    rw [holders, holders, hcache, hown]
    abel
  rw [hsum]
  exact h.tally.trans hholds.tally

/-- A new inode whose first reference is that of its entry. -/
theorem Accounts.grow {entries : List DirEntry} {ino : Inode} {list : Option (List DirEntry)}
    (h : Accounts fs files extra) (hname : fs.CanName dir name entries)
    (hlist : DirList ino.mode fs.next dir list) (hcnt : ino.refcnt = (fs.refcnt fs.next + 1) % 2 ^ 32) :
    Accounts (fs.grow dir entries name ino list) files extra where
  tally := by
    have hown : extra + holders (fs.grow dir entries name ino list) files =
        fs.next ::ₘ (extra + holders fs files) := by
      have hrange : ownHolds (fs.grow dir entries name ino list) = fs.next ::ₘ ownHolds fs := by
        show Multiset.range (fs.next + 1) + {fs.root} = fs.next ::ₘ (Multiset.range fs.next + {fs.root})
        rw [Multiset.range_succ, Multiset.cons_add]
      rw [holders, hrange, Multiset.cons_add, Multiset.cons_add, Multiset.add_cons]
      rfl
    rw [hown]
    apply h.tally.incr
    · simpa [Fs.refcnt, Fs.grow] using hcnt
    · intro j hj
      simp [Fs.refcnt, Fs.grow, hj]
  sound := h.sound.grow ⟨hname.list, hname.unused, hname.short⟩ hlist
  cached := by
    intro e he
    obtain ⟨hino, hparent⟩ := h.cached e he
    exact ⟨Nat.lt_succ_of_lt hino, Nat.lt_succ_of_lt hparent⟩

/-- A reference that no holder has shows in the counter. -/
theorem Accounts.count_zero (h : Accounts fs files extra)
    (hcount : fs.refcnt i = (holders fs files).count i % 2 ^ 32) : extra.count i % 2 ^ 32 = 0 := by
  apply h.tally.excess
  rw [hcount, Nat.zero_add]

theorem Accounts.failed_lookup (h : Accounts fs files 0) (hr : vfsLookup fs path flags = some r)
    (hcode : r.code ≠ 0) : Accounts r.fs files 0 := by
  have hres := (vfsLookup_holds h.countsFit hr).1 hcode
  simpa [hres] using (h.lookup hr).1

/-- What `mkdir` and `mknod` do in a directory: nothing, or a new inode with one reference. -/
def Made (fs : Fs) (dir : Nat) (name : CString) (fs' : Fs) : Prop :=
  fs' = fs ∨ ∃ entries ino list, fs.CanName dir name entries ∧ DirList ino.mode fs.next dir list ∧
    ino.refcnt = (fs.refcnt fs.next + 1) % 2 ^ 32 ∧ fs' = fs.grow dir entries name ino list

theorem Accounts.make_below {parent : Nat} (h : Accounts fs files 0)
    (hr : vfsLookup fs path flags = some r) (hres : r.res = some parent)
    (hmake : Made r.fs parent name fs') : Accounts (fs'.inoDeref parent) files 0 := by
  have hlook : Accounts r.fs files (parent ::ₘ 0) := by
    simpa [hres] using (h.lookup hr).1
  rcases hmake with rfl | ⟨entries, ino, list, hname, hlist, hcnt, rfl⟩
  · exact hlook.inoDeref
  · exact (hlook.grow hname hlist hcnt).inoDeref

theorem mkdir_made {ret : Int} (hcall : ramfsInoMkdir fs dir name mode = some (ret, fs')) :
    Made fs dir name fs' := by
  rcases mkdir_grow hcall with hsame | ⟨-, entries, hname, hgrow⟩
  · exact .inl hsame
  · exact .inr ⟨entries, _, _, hname, .inl ⟨typed_mode mode sIfdir (by decide), rfl⟩, rfl, hgrow⟩

theorem mknod_made {ret : Int} {device : Nat}
    (hcall : ramfsInoMknod fs dir name mode device = some (ret, fs')) : Made fs dir name fs' := by
  rcases mknod_grow hcall with hsame | ⟨-, hmode, entries, hname, hgrow⟩
  · exact .inl hsame
  · exact .inr ⟨entries, _, _, hname, .inr ⟨hmode, rfl⟩, rfl, hgrow⟩

/-- With `O_CREAT` the parent and the new file keep one reference each too many. -/
theorem Accounts.create {parent : Nat} {ret : Int} {found : Option Nat}
    (h : Accounts fs files (parent ::ₘ 0))
    (hcall : ramfsInoCreate fs parent name mode = some (ret, found, fs')) :
    found = some fs.next ∧ fs.next < fs'.next ∧ Accounts fs' files (fs.next ::ₘ parent ::ₘ 0) := by
  obtain ⟨-, hfound, entries, hname, rfl⟩ := create_grow hcall
  have hreg : (mode &&& 0xfff ||| sIfreg) &&& 0xf000 ≠ sIfdir := by
    rw [typed_mode mode sIfreg (by decide)]
    decide
  have hlist : DirList { fs.freshInode (mode &&& 0xfff ||| sIfreg) with
      refcnt := (fs.refcnt fs.next + 1) % 2 ^ 32 }.mode fs.next parent none := .inr ⟨hreg, rfl⟩
  have hgrow := h.grow hname hlist rfl
  refine ⟨hfound, Nat.lt_succ_self _, ?_⟩
  have hsecond := hgrow.inoRef fs.next
  simpa only [Fs.inoRef, Fs.setInode, Fs.grow, Fs.refcnt, Function.update_self,
    Function.update_idem] using hsecond

/-- The path leads nowhere and no file is to be made. -/
def FindsNothing (fs : Fs) (path : CString) (oflags : Nat) : Prop :=
  (∃ r, vfsLookup fs path 0 = some r ∧ r.code ≠ 0) ∧ oflags &&& oCreat = 0

theorem lookup_res_none (hr : vfsLookup fs path 0 = some r) (hres : r.res = none) : r.code ≠ 0 := by
  have habs : path.head? = some slash := by
    by_contra hrel
    simp [vfsLookup, hrel] at hr
  have hanswer := vfsLookup_resolve fs habs 0
  rw [hr, Option.map_some] at hanswer
  obtain ⟨resolved, -, hresolved⟩ := Option.map_eq_some_iff.mp hanswer.symm
  rw [LookupResult.answer, hres] at hresolved
  cases resolved with
  | found parent current => simp [Resolved.answer] at hresolved
  | missing dir last =>
      simp only [Resolved.answer, Nat.zero_and, ne_eq, not_true_eq_false, and_false, if_false,
        Prod.mk.injEq, and_true] at hresolved
      rw [← hresolved]
      decide

/-- The inode that `vfs_open` goes on with carries exactly one reference that nobody holds. -/
theorem openInode_accounts {oflags : Nat} {found : Option Nat} (h : Accounts fs files 0)
    (hcall : openInode fs path oflags mode = some (found, fs')) :
    (FindsNothing fs path oflags ∧ found = none ∧ Accounts fs' files 0) ∨
      (¬ FindsNothing fs path oflags ∧
        ∃ i extra, found = some i ∧ i < fs'.next ∧ extra.count i = 1 ∧ Accounts fs' files extra) := by
  obtain ⟨r, hr, hcall⟩ := Option.bind_eq_some_iff.mp hcall
  split_ifs at hcall with hmiss hcreat
  · obtain ⟨r', hr', hcall⟩ := Option.bind_eq_some_iff.mp hcall
    obtain ⟨parent, hparent, hcall⟩ := Option.bind_eq_some_iff.mp hcall
    obtain ⟨⟨ret, ino, fs₁⟩, hnew, hcall⟩ := Option.bind_eq_some_iff.mp hcall
    simp only [Option.some.injEq, Prod.mk.injEq] at hcall
    obtain ⟨rfl, rfl⟩ := hcall
    obtain ⟨hlook, hnext, hinside⟩ := (h.failed_lookup hr hmiss.1).lookup hr'
    have hlt : parent < r'.fs.next := hnext ▸ hinside parent hparent
    have hheld : Accounts r'.fs files (parent ::ₘ 0) := by
      simpa [hparent] using hlook
    obtain ⟨hfound, hgrown, haccounts⟩ := hheld.create hnew
    refine .inr ⟨fun hnothing => hcreat.1 hnothing.2, r'.fs.next, _, hfound, hgrown, ?_, haccounts⟩
    rw [Multiset.count_cons_self, Multiset.count_cons_of_ne (Nat.ne_of_gt hlt), Multiset.count_zero]
  · simp only [Option.some.injEq, Prod.mk.injEq] at hcall
    obtain ⟨rfl, rfl⟩ := hcall
    have hflag : oflags &&& oCreat = 0 := by
      by_contra hne
      exact hcreat ⟨hne, Nat.and_zero oflags⟩
    exact .inl ⟨⟨⟨r, hr, hmiss.1⟩, hflag⟩, rfl, h.failed_lookup hr hmiss.1⟩
  · simp only [Option.some.injEq, Prod.mk.injEq] at hcall
    obtain ⟨rfl, rfl⟩ := hcall
    obtain ⟨hlook, hnext, hinside⟩ := h.lookup hr
    cases hres : r.res with
    | none => exact absurd ⟨lookup_res_none hr hres, hres⟩ hmiss
    | some i =>
        rw [hres] at hlook
        refine .inr ⟨?_, i, i ::ₘ 0, rfl, hnext ▸ hinside i hres, ?_, by simpa using hlook⟩
        · rintro ⟨⟨r', hr', hcode⟩, -⟩
          obtain rfl := Option.some.inj (hr.symm.trans hr')
          have hnone := (vfsLookup_holds h.countsFit hr).1 hcode
          rw [hres] at hnone
          contradiction
        · rw [Multiset.count_cons_self, Multiset.count_zero]

end accounts

/-- No call of `vfs_open` finds or creates an inode. -/
def State.Quiet (s : State) : VfsCall → Prop
  | .open path oflags _ => ∀ fs, s.rootFs = some fs → FindsNothing fs path oflags
  | _ => True

/-- Nothing is open and all references are accounted for. -/
structure State.Balanced (s : State) : Prop where
  closed : s.files = []
  accounts : ∀ fs, s.rootFs = some fs → Accounts fs [] 0

section step
variable {m : Machine} {s s' : State} {fs : Fs}

theorem State.Balanced.counted (h : s.Balanced) : s.Counted := by
  intro fs hfs i hi
  rw [(h.accounts fs hfs).tally i, h.closed, Nat.zero_add, zero_add]

theorem State.Balanced.setFs (h : s.Balanced) (hfs : Accounts fs [] 0) : (s.setFs fs).Balanced where
  closed := h.closed
  accounts := by
    intro fs' hfs'
    obtain rfl : fs = fs' := Option.some.inj hfs'
    exact hfs

theorem not_counted {files : List File} {extra : Multiset Nat} {i n : Nat}
    (h : Accounts fs files extra) (hi : i < fs.next) (hextra : extra.count i = 1) :
    ¬ State.Counted ⟨some (some fs), files, n⟩ := by
  intro hcounted
  have hzero := h.count_zero (hcounted fs rfl i hi)
  rw [hextra] at hzero
  norm_num at hzero

/-- The new file object is the holder of one of the two references. -/
theorem Accounts.openFile {files : List File} {extra : Multiset Nat} {i : Nat} (f : File)
    (h : Accounts fs files extra) (hf : f.inode = i) :
    Accounts (fs.inoRef i) (f :: files) extra where
  tally := by
    have hsum : extra + holders (fs.inoRef i) (f :: files) = i ::ₘ extra + holders fs files := by
      have hfiles : fileHolds (f :: files) = i ::ₘ fileHolds files := by
        rw [fileHolds, List.map_cons, hf, ← Multiset.cons_coe, fileHolds]
      rw [holders, hfiles, Multiset.add_cons, Multiset.cons_add, Multiset.add_cons, Multiset.cons_add]
      rfl
    rw [hsum]
    exact (h.inoRef i).tally
  sound := (h.inoRef i).sound
  cached := h.cached

theorem readSb_mounted (hzero : ∀ i, (m.memory i).refcnt = 0) :
    Accounts ((ramfsReadSb m.memory).inoRef (ramfsReadSb m.memory).root) [] 0 := by
  have hroot : (ramfsReadSb m.memory).root = 0 := rfl
  have hholders : holders ((ramfsReadSb m.memory).inoRef 0) [] = {0, 0} := by
    simp [holders, ownHolds, fileHolds, cacheHolds, ramfsReadSb, Fs.inoRef, Fs.setInode]
  rw [hroot]
  refine ⟨fun i => ?_, ((Fs.RefsOnly.refl _).setRefcnt 0 _).sound (readSb_sound m.memory),
    fun _ hf => absurd hf List.not_mem_nil⟩
  rw [hholders, Nat.zero_add, zero_add]
  by_cases hi : i = 0
  · subst hi
    rw [Fs.inoRef, refcnt_setInode_self]
    simp [ramfsReadSb, Fs.inoRef, Fs.setInode, hzero]
  · rw [Fs.inoRef, refcnt_setInode_of_ne _ _ hi]
    simp [ramfsReadSb, Fs.inoRef, Fs.setInode, Fs.refcnt, hzero, hi]

theorem root_balanced (hzero : ∀ i, (m.memory i).refcnt = 0) (h : s.Balanced) (fsType : CString) :
    (vfsRoot m s fsType).2.Balanced := by
  unfold vfsRoot
  split
  · exact h
  · split_ifs
    · exact h.setFs (readSb_mounted hzero)
    · refine ⟨h.closed, ?_⟩
      rintro fs ⟨⟩

/-- The body that `vfs_mkdir` and `vfs_mknod` share. -/
theorem State.Balanced.make (h : s.Balanced) (make : Fs → Nat → CString → Option (Int × Fs))
    (hmade : ∀ fs dir name ret fs', make fs dir name = some (ret, fs') → Made fs dir name fs')
    {path : CString} {ret : Int}
    (hcall : (s.rootFs.bind fun fs => (vfsLookup fs path lookupParent).bind fun r =>
      if r.code ≠ 0 then some (r.code, s.setFs r.fs)
      else r.res.bind fun parent => (make r.fs parent (lastName path)).bind fun (ret, fs) =>
        some (ret, s.setFs (fs.inoDeref parent))) = some (ret, s')) : s'.Balanced := by
  obtain ⟨fs, hfs, hcall⟩ := Option.bind_eq_some_iff.mp hcall
  obtain ⟨r, hr, hcall⟩ := Option.bind_eq_some_iff.mp hcall
  have haccounts := h.accounts fs hfs
  split_ifs at hcall with hcode
  · simp only [Option.some.injEq, Prod.mk.injEq] at hcall
    obtain ⟨-, rfl⟩ := hcall
    exact h.setFs (haccounts.failed_lookup hr hcode)
  · obtain ⟨parent, hres, hcall⟩ := Option.bind_eq_some_iff.mp hcall
    obtain ⟨⟨ret', fs'⟩, hmake, hcall⟩ := Option.bind_eq_some_iff.mp hcall
    simp only [Option.some.injEq, Prod.mk.injEq] at hcall
    obtain ⟨-, rfl⟩ := hcall
    exact h.setFs (haccounts.make_below hr hres (hmade _ _ _ _ _ hmake))

theorem mkdir_balanced {path : CString} {mode : Nat} {ret : Int} (h : s.Balanced)
    (hcall : vfsMkdir s path mode = some (ret, s')) : s'.Balanced :=
  h.make (fun fs dir name => ramfsInoMkdir fs dir name mode) (fun _ _ _ _ _ => mkdir_made) hcall

theorem mknod_balanced {path : CString} {mode device : Nat} {ret : Int} (h : s.Balanced)
    (hcall : vfsMknod s path mode device = some (ret, s')) : s'.Balanced :=
  h.make (fun fs dir name => ramfsInoMknod fs dir name mode device) (fun _ _ _ _ _ => mknod_made) hcall

/-- Opening keeps the balance when nothing is found and breaks it at once otherwise. -/
theorem open_counted_iff {path : CString} {oflags mode : Nat} {file : Option Nat} (h : s.Balanced)
    (hcall : vfsOpen m s path oflags mode = some (file, s')) :
    (s.Quiet (.open path oflags mode) → s'.Balanced) ∧
      (s'.Counted → s.Quiet (.open path oflags mode)) := by
  obtain ⟨fs, hfs, hcall⟩ := Option.bind_eq_some_iff.mp hcall
  obtain ⟨⟨found, fs'⟩, hopen, hcall⟩ := Option.bind_eq_some_iff.mp hcall
  have hquiet : s.Quiet (.open path oflags mode) ↔ FindsNothing fs path oflags := by
    constructor
    · intro hall
      exact hall fs hfs
    · rintro hnothing fs'' hfs''
      rwa [← Option.some.inj (hfs.symm.trans hfs'')]
  rw [hquiet]
  rcases openInode_accounts (h.accounts fs hfs) hopen with
    ⟨hnothing, rfl, haccounts⟩ | ⟨hsomething, i, extra, rfl, hi, hextra, haccounts⟩
  · simp only [Option.some.injEq, Prod.mk.injEq] at hcall
    obtain ⟨-, rfl⟩ := hcall
    exact ⟨fun _ => h.setFs haccounts, fun _ => hnothing⟩
  · refine ⟨fun hnothing => absurd hnothing hsomething, fun hcounted => absurd hcounted ?_⟩
    have hleft : ¬ (s.setFs fs').Counted := by
      rw [State.setFs, h.closed]
      exact not_counted haccounts hi hextra
    have hopened : ¬ (Vfs.openFile m s fs' i oflags).Counted := by
      have hfile := haccounts.openFile
        ⟨s.nextFile, i, oflags, 0, (m.fileMemory s.nextFile + 1) % 2 ^ 32⟩ rfl
      unfold Vfs.openFile
      rw [h.closed]
      exact not_counted hfile hi hextra
    dsimp only at hcall
    split_ifs at hcall
    all_goals
      simp only [Option.some.injEq, Prod.mk.injEq] at hcall
      obtain ⟨-, rfl⟩ := hcall
    · exact hopened
    · exact hleft
    · exact hleft
    · exact hopened

theorem step_counted_iff (hzero : ∀ i, (m.memory i).refcnt = 0) (call : VfsCall) (h : s.Balanced)
    (hstep : s.step m call = some s') :
    (s.Quiet call → s'.Balanced) ∧ (s'.Counted → s.Quiet call) := by
  cases call with
  | root fsType =>
      obtain rfl := Option.some.inj hstep
      exact ⟨fun _ => root_balanced hzero h fsType, fun _ => trivial⟩
  | mkdir path mode =>
      obtain ⟨⟨ret, s₁⟩, hcall, rfl⟩ := Option.map_eq_some_iff.mp hstep
      exact ⟨fun _ => mkdir_balanced h hcall, fun _ => trivial⟩
  | mknod path mode device =>
      obtain ⟨⟨ret, s₁⟩, hcall, rfl⟩ := Option.map_eq_some_iff.mp hstep
      exact ⟨fun _ => mknod_balanced h hcall, fun _ => trivial⟩
  | «open» path oflags mode =>
      obtain ⟨⟨file, s₁⟩, hcall, rfl⟩ := Option.map_eq_some_iff.mp hstep
      exact open_counted_iff h hcall
  | close id =>
      obtain ⟨fs, -, hcall⟩ := Option.bind_eq_some_iff.mp hstep
      rw [h.closed, List.find?_nil] at hcall
      simp only [Option.bind_eq_bind, Option.bind_none, reduceCtorEq] at hcall

/-- In every run over objects whose counters start at zero: the counters are right in every
state that the run passes through exactly when no call of `vfs_open` finds or creates an
inode. -/
theorem run_counts_iff (hzero : ∀ i, (m.memory i).refcnt = 0) {calls : List VfsCall}
    (hrun : run (State.step m) State.init calls = some s) :
    (∀ calls' s', calls' <+: calls → run (State.step m) State.init calls' = some s' →
      s'.Counted) ↔ Guarded (State.step m) State.Quiet State.init calls := by
  have hinit : State.init.Balanced := ⟨rfl, nofun⟩
  exact holds_along_iff State.Balanced State.Counted (fun _ => State.Balanced.counted)
    (fun _ call _ => step_counted_iff hzero call) hinit hrun

end step

/-! ### Two runs -/

instance FindsNothing.decidable (fs : Fs) (path : CString) (oflags : Nat) :
    Decidable (FindsNothing fs path oflags) :=
  decidable_of_iff (((vfsLookup fs path 0).any fun r => decide (r.code ≠ 0)) = true ∧
    oflags &&& oCreat = 0) (by simp [FindsNothing, Option.any_eq_true])

instance State.Quiet.decidable (s : State) : ∀ call, Decidable (s.Quiet call)
  | .open path oflags _ =>
      decidable_of_iff ((s.rootFs.all fun fs => decide (FindsNothing fs path oflags)) = true)
        (by simp [State.Quiet, Option.all_eq_true])
  | .root _ => isTrue trivial
  | .mkdir _ _ => isTrue trivial
  | .mknod _ _ _ => isTrue trivial
  | .close _ => isTrue trivial

/-- Objects that have not been used before, and a driver for every device. -/
def blankMachine : Machine := ⟨fun _ => blankInode, fun _ => 0, fun _ => true⟩

/-- A directory, a device in it, and a path that does not exist. -/
def quietCalls : List VfsCall :=
  [.root (cstring ramfsName), .mkdir (cstring [47, 97, 98]) 0,
    .mknod (cstring [47, 97, 98, 47, 99]) sIfchr 5, .open (cstring [47, 97, 98, 47, 120]) 1 0]

theorem run_counts_iff_quiet :
    ∃ s, run (State.step blankMachine) State.init quietCalls = some s ∧ s.Counted := by
  obtain ⟨s, hs⟩ := Option.isSome_iff_exists.mp (show (run (State.step blankMachine) State.init
    quietCalls).isSome = true by decide +kernel)
  have hquiet : Guarded (State.step blankMachine) State.Quiet State.init quietCalls := by
    decide +kernel
  exact ⟨s, hs, (run_counts_iff (fun _ => rfl) hs).mpr hquiet quietCalls s (List.prefix_refl _) hs⟩

/-- A device is opened and closed again. -/
def openClose : List VfsCall :=
  [.root (cstring ramfsName), .mknod (cstring [47, 99]) sIfchr 5, .open (cstring [47, 99]) 1 0,
    .close 0]

/-- The reference of the lookup is never given back. -/
theorem open_close_leaks :
    ¬ ∀ (m : Machine) (calls : List VfsCall) (s : State), (∀ i, (m.memory i).refcnt = 0) →
      run (State.step m) State.init calls = some s → s.Counted := by
  intro hall
  obtain ⟨s, hs⟩ := Option.isSome_iff_exists.mp (show (run (State.step blankMachine) State.init
    openClose).isSome = true by decide +kernel)
  have hbad : (run (State.step blankMachine) State.init openClose).all (fun s =>
      s.rootFs.any fun fs => decide (1 < fs.next ∧
        fs.refcnt 1 ≠ (holders fs s.files).count 1 % 2 ^ 32)) = true := by
    decide +kernel
  rw [hs, Option.all_some, Option.any_eq_true] at hbad
  obtain ⟨fs, hfs, hbad⟩ := hbad
  obtain ⟨hlt, hne⟩ := of_decide_eq_true hbad
  exact hne (hall blankMachine openClose s (fun _ => rfl) hs fs hfs 1 hlt)

end Lucix.Vfs
