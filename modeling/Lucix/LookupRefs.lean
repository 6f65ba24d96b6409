import Lucix.Lookup
import Lucix.RefCount

/-! The references that path lookup takes and drops. The loop of `vfs_lookup` holds
one reference to the parent and one to the current inode; the tally of the inode
counters against these two and the new name-cache entries is its invariant. -/
namespace Lucix.Ramfs
open RefCount
open FileIo (Inode)

def Fs.refcnt (fs : Fs) (i : Nat) : Nat := (fs.inodes i).refcnt

/-- The counters are of type `uint32_t`. -/
def Fs.CountsFit (fs : Fs) : Prop := ∀ i, fs.refcnt i < 2 ^ 32

/-- The references that name-cache entries hold: each to its inode and to its parent. -/
def cacheHolds (entries : List NameEntry) : Multiset Nat :=
  entries.map NameEntry.ino + entries.map NameEntry.parent

theorem count_held (res : Option Nat) (new : List NameEntry) (i : Nat) :
    (res.toList + cacheHolds new : Multiset Nat).count i = (if res = some i then 1 else 0) +
      new.countP (fun e => decide (e.ino = i)) +
      new.countP (fun e => decide (e.parent = i)) := by
  have hres : res.toList.count i = if res = some i then 1 else 0 := by
    cases res with
    | none => rfl
    | some j => simp [List.count_singleton]
  have hfield : ∀ f : NameEntry → Nat,
      (new.map f).count i = new.countP fun e => decide (f e = i) := by
    intro f
    rw [List.count, List.countP_map]
    rfl
  rw [cacheHolds, Multiset.count_add, Multiset.count_add, Multiset.coe_count, Multiset.coe_count,
    Multiset.coe_count, hres, hfield, hfield, Nat.add_assoc]

/-- Nothing but counters and the name cache differs. -/
structure Fs.RefsOnly (fs fs' : Fs) : Prop where
  inodes : ∀ i, fs'.inodes i = { fs.inodes i with refcnt := fs'.refcnt i }
  dirEntries : fs'.dirEntries = fs.dirEntries
  next : fs'.next = fs.next
  inoCounter : fs'.inoCounter = fs.inoCounter
  root : fs'.root = fs.root

/-- Since `fs`, the name cache has gained `new`, and besides these entries `held` lists the
references that were taken and not dropped. -/
structure Fs.Holds (fs fs' : Fs) (new : List NameEntry) (held : Multiset Nat) : Prop where
  only : fs.RefsOnly fs'
  cache : fs'.nameCacheList = new ++ fs.nameCacheList
  tally : Tally (2 ^ 32) fs.refcnt fs'.refcnt (held + cacheHolds new)

theorem Fs.RefsOnly.sound {fs fs' : Fs} (h : fs.RefsOnly fs') (hs : fs.dropCache.Sound) :
    fs'.dropCache.Sound := by
  refine ⟨?_, fun i hi => ?_, ?_, ?_, rfl⟩
  · show fs'.root < fs'.next
    rw [h.root, h.next]
    exact hs.root_lt
  · have htype : inoType (fs'.inodes i) = inoType (fs.inodes i) := by
      rw [h.inodes i]
      rfl
    have hdir : fs'.dropCache.isDir i = fs.dropCache.isDir i := by
      apply decide_eq_decide.mpr
      show inoType (fs'.inodes i) = sIfdir ↔ inoType (fs.inodes i) = sIfdir
      rw [htype]
    have hi' : i < fs.dropCache.next := h.next ▸ hi
    rw [hdir, hs.dirs i hi']
    simp only [Fs.dropCache, h.dirEntries]
  · simp only [Fs.dropCache, h.dirEntries, h.next]
    exact hs.targets
  · simp only [Fs.dropCache, h.dirEntries, h.next]
    exact hs.unused

section holds
variable {fs fs' : Fs} {new : List NameEntry} {held : Multiset Nat} {i : Nat}

theorem refcnt_setInode_self (fs : Fs) (i : Nat) (ino : Inode) :
    (fs.setInode i ino).refcnt i = ino.refcnt := by
  simp [Fs.refcnt, Fs.setInode]

theorem refcnt_setInode_of_ne {j : Nat} (fs : Fs) (ino : Inode) (h : j ≠ i) :
    (fs.setInode i ino).refcnt j = fs.refcnt j := by
  simp [Fs.refcnt, Fs.setInode, h]

theorem Fs.RefsOnly.refl (fs : Fs) : fs.RefsOnly fs where
  inodes := fun _ => rfl
  dirEntries := rfl
  next := rfl
  inoCounter := rfl
  root := rfl

theorem Fs.RefsOnly.setRefcnt (h : fs.RefsOnly fs') (i c : Nat) :
    fs.RefsOnly (fs'.setInode i { fs'.inodes i with refcnt := c }) := by
  refine { h with inodes := fun j => ?_ }
  by_cases hj : j = i
  · subst hj
    rw [refcnt_setInode_self]
    simp only [Fs.setInode, Function.update_self]
    rw [h.inodes j]
  · rw [refcnt_setInode_of_ne _ _ hj]
    simp only [Fs.setInode, Function.update_of_ne hj]
    exact h.inodes j

theorem Fs.Holds.start (hfit : fs.CountsFit) : fs.Holds fs [] 0 where
  only := .refl fs
  cache := rfl
  tally := by
    rw [cacheHolds, List.map_nil, List.map_nil]
    exact Tally.start hfit

theorem Fs.Holds.inoRef (h : fs.Holds fs' new held) (i : Nat) :
    fs.Holds (fs'.inoRef i) new (i ::ₘ held) where
  only := h.only.setRefcnt i _
  cache := h.cache
  tally := by
    rw [Multiset.cons_add]
    exact h.tally.incr (refcnt_setInode_self fs' i _) fun j hj => refcnt_setInode_of_ne fs' _ hj

theorem Fs.Holds.inoDeref (h : fs.Holds fs' new (i ::ₘ held)) :
    fs.Holds (fs'.inoDeref i) new held where
  only := h.only.setRefcnt i _
  cache := h.cache
  tally := by
    have htally := h.tally
    rw [Multiset.cons_add] at htally
    exact htally.decr (by norm_num) (refcnt_setInode_self fs' i _)
      fun j hj => refcnt_setInode_of_ne fs' _ hj

theorem Fs.Holds.addInode (h : fs.Holds fs' new held) (parent : Nat) (name : CString) (ino : Nat) :
    fs.Holds (fsNameCacheAddInode fs' parent name ino) (⟨parent, name, ino⟩ :: new) held := by
  have hrefs := (h.inoRef ino).inoRef parent
  refine ⟨⟨hrefs.only.inodes, hrefs.only.dirEntries, hrefs.only.next, hrefs.only.inoCounter,
    hrefs.only.root⟩, ?_, ?_⟩
  · exact congrArg (List.cons _) hrefs.cache
  · have hsum : held + cacheHolds (⟨parent, name, ino⟩ :: new) =
        parent ::ₘ ino ::ₘ held + cacheHolds new := by
      simp only [cacheHolds, List.map_cons, ← Multiset.cons_coe, Multiset.cons_add,
        Multiset.add_cons]
    rw [hsum]
    exact hrefs.tally

theorem Fs.Holds.inoDeref? {o : Option Nat} (h : fs.Holds fs' new (o.toList + held)) :
    fs.Holds (fs'.inoDeref? o) new held := by
  cases o with
  | none =>
      rw [Option.toList_none, Multiset.coe_nil, zero_add] at h
      exact h
  | some i => exact h.inoDeref

theorem Fs.Holds.component {fs'' : Fs} {cur : Nat} {str : CString} {found : Option Nat}
    (h : fs.Holds fs' new held) (hcall : lookupComponent fs' cur str = some (found, fs'')) :
    ∃ new', fs.Holds fs'' new' (found.toList + held) := by
  unfold lookupComponent at hcall
  split at hcall
  · simp only [Option.some.injEq, Prod.mk.injEq] at hcall
    obtain ⟨rfl, rfl⟩ := hcall
    exact ⟨new, h.inoRef _⟩
  · obtain ⟨hit, -, hcall⟩ := Option.map_eq_some_iff.mp hcall
    cases hit with
    | none =>
        simp only [Prod.mk.injEq] at hcall
        obtain ⟨rfl, rfl⟩ := hcall
        exact ⟨new, by simpa using h⟩
    | some ino =>
        simp only [Prod.mk.injEq] at hcall
        obtain ⟨rfl, rfl⟩ := hcall
        exact ⟨_, (h.inoRef ino).addInode cur str ino⟩

end holds

section loop
variable {fs fs' : Fs} {new : List NameEntry} {nd : Namei} {r : LookupResult} {flags : Nat}

/-- The loop keeps a reference to the parent and one to the current inode; what it stores
through `res` is the one that it does not drop. -/
theorem loop_holds {fuel : Nat} (h : fs.Holds fs' new (nd.parent.toList + nd.current.toList))
    (hcode : nd.lastCode ≠ 0 → nd.current = none)
    (hr : vfsLookupLoop flags fuel fs' nd = some r) :
    (r.code ≠ 0 → r.res = none) ∧ ∃ new', fs.Holds r.fs new' r.res.toList := by
  induction fuel generalizing fs' new nd with
  | zero => simp [vfsLookupLoop] at hr
  | succ fuel ih =>
      unfold vfsLookupLoop at hr
      dsimp only at hr
      split_ifs at hr with hend hflag hmiss
      · obtain rfl := Option.some.inj hr
        refine ⟨fun hne => absurd rfl hne, new, Fs.Holds.inoDeref? ?_⟩
        rwa [add_comm]
      · obtain rfl := Option.some.inj hr
        exact ⟨hcode, new, h.inoDeref?⟩
      · obtain rfl := Option.some.inj hr
        refine ⟨fun _ => rfl, new, Fs.Holds.inoDeref? (Fs.Holds.inoDeref? ?_)⟩
        simpa using h
      · obtain ⟨current, hcurrent, hr⟩ := Option.bind_eq_some_iff.mp hr
        obtain ⟨parent, hparent, hr⟩ := Option.bind_eq_some_iff.mp hr
        obtain ⟨⟨found, fs''⟩, hcall, hr⟩ := Option.bind_eq_some_iff.mp hr
        rw [hcurrent, hparent] at h
        obtain ⟨new', hfound⟩ := h.component hcall
        have hdrop : fs.Holds (fs''.inoDeref parent) new'
            ((some current).toList + found.toList) := by
          apply Fs.Holds.inoDeref
          convert hfound using 1
          simp only [Option.toList_some, Multiset.coe_singleton, Multiset.singleton_add]
          rw [add_comm (found.toList : Multiset Nat), Multiset.cons_add, Multiset.singleton_add]
        refine ih hdrop ?_ hr
        intro hne
        by_contra hfound'
        exact hne (if_neg hfound')

theorem vfsLookup_holds {path : CString} (hfit : fs.CountsFit)
    (hr : vfsLookup fs path flags = some r) :
    (r.code ≠ 0 → r.res = none) ∧ ∃ new, fs.Holds r.fs new r.res.toList := by
  unfold vfsLookup at hr
  split_ifs at hr
  exact loop_holds (((Fs.Holds.start hfit).inoRef fs.root).inoRef fs.root)
    (fun hne => absurd rfl hne) hr

/-- Names in the cache are among the inodes. -/
def Fs.CacheInside (fs : Fs) : Prop := ∀ e ∈ fs.nameCacheList, e.ino < fs.next ∧ e.parent < fs.next

def Fs.ListsInside (fs : Fs) : Prop :=
  ∀ d entries, fs.dirEntries d = some entries → ∀ e ∈ entries, e.i < fs.next

theorem component_inside {fs'' : Fs} {cur : Nat} {str : CString} {found : Option Nat}
    (hlists : fs.ListsInside) (hin : fs.CacheInside) (hcur : cur < fs.next)
    (hcall : lookupComponent fs cur str = some (found, fs'')) :
    fs''.CacheInside ∧ fs''.next = fs.next ∧ fs''.dirEntries = fs.dirEntries ∧
      ∀ i, found = some i → i < fs.next := by
  unfold lookupComponent at hcall
  split at hcall
  next ino hfast =>
      simp only [Option.some.injEq, Prod.mk.injEq] at hcall
      obtain ⟨rfl, rfl⟩ := hcall
      refine ⟨hin, rfl, rfl, ?_⟩
      rintro i ⟨⟩
      obtain ⟨e, he, rfl⟩ := Option.map_eq_some_iff.mp hfast
      exact (hin e (List.mem_of_find?_eq_some he)).1
  next =>
      obtain ⟨hit, hlook, hcall⟩ := Option.map_eq_some_iff.mp hcall
      cases hit with
      | none =>
          simp only [Prod.mk.injEq] at hcall
          obtain ⟨rfl, rfl⟩ := hcall
          exact ⟨hin, rfl, rfl, by simp⟩
      | some ino =>
          simp only [Prod.mk.injEq] at hcall
          obtain ⟨rfl, rfl⟩ := hcall
          obtain ⟨entries, hentries, hfind⟩ := Option.map_eq_some_iff.mp hlook
          obtain ⟨e, he, rfl⟩ := Option.map_eq_some_iff.mp hfind
          have hino : e.i < fs.next := hlists cur entries hentries e (List.mem_of_find?_eq_some he)
          refine ⟨?_, rfl, rfl, ?_⟩
          · intro x hx
            rcases List.mem_cons.mp hx with rfl | hx
            · exact ⟨hino, hcur⟩
            · exact hin x hx
          · rintro i ⟨⟩
            exact hino

theorem loop_inside {fuel : Nat} (hlists : fs'.ListsInside) (hin : fs'.CacheInside)
    (hparent : ∀ i, nd.parent = some i → i < fs'.next)
    (hcurrent : ∀ i, nd.current = some i → i < fs'.next)
    (hr : vfsLookupLoop flags fuel fs' nd = some r) :
    r.fs.CacheInside ∧ ∀ i, r.res = some i → i < fs'.next := by
  induction fuel generalizing fs' nd with
  | zero => simp [vfsLookupLoop] at hr
  | succ fuel ih =>
      have hderef : ∀ (fs : Fs) (o : Option Nat), fs.CacheInside → (fs.inoDeref? o).CacheInside := by
        intro fs o hin
        cases o <;> exact hin
      unfold vfsLookupLoop at hr
      dsimp only at hr
      split_ifs at hr with hend hflag hmiss
      · obtain rfl := Option.some.inj hr
        exact ⟨hderef _ _ hin, hparent⟩
      · obtain rfl := Option.some.inj hr
        exact ⟨hderef _ _ hin, hcurrent⟩
      · obtain rfl := Option.some.inj hr
        exact ⟨hderef _ _ (hderef _ _ hin), by simp⟩
      · obtain ⟨current, hcur, hr⟩ := Option.bind_eq_some_iff.mp hr
        obtain ⟨parent, hpar, hr⟩ := Option.bind_eq_some_iff.mp hr
        obtain ⟨⟨found, fs''⟩, hcall, hr⟩ := Option.bind_eq_some_iff.mp hr
        obtain ⟨hin', hnext, hdirs, hfound⟩ :=
          component_inside hlists hin (hcurrent current hcur) hcall
        have hlists' : (fs''.inoDeref parent).ListsInside := by
          show ∀ d entries, fs''.dirEntries d = some entries → ∀ e ∈ entries, e.i < fs''.next
          rw [hdirs, hnext]
          exact hlists
        have hresult := @ih (fs''.inoDeref parent) _ hlists' hin' ?_ ?_ hr
        · rwa [show (fs''.inoDeref parent).next = fs'.next from hnext] at hresult
        · rintro i ⟨⟩
          exact hnext ▸ hcurrent current hcur
        · intro i hi
          exact hnext ▸ hfound i hi

theorem vfsLookup_inside {path : CString} (hs : fs.dropCache.Sound) (hin : fs.CacheInside)
    (hr : vfsLookup fs path flags = some r) :
    r.fs.CacheInside ∧ ∀ i, r.res = some i → i < fs.next := by
  have hroot : ∀ i, some fs.root = some i → i < fs.next := by
    rintro i ⟨⟩
    exact hs.root_lt
  unfold vfsLookup at hr
  split_ifs at hr
  exact @loop_inside ((fs.inoRef fs.root).inoRef fs.root) _ _ _ _ hs.targets hin hroot hroot hr

/-- Every component is looked up in an inode that has a list of entries. -/
def LooksInDirs (fs : Fs) : List NameEntry → Nat → List CString → Prop
  | _, _, [] => True
  | cache, cur, c :: cs => (fs.dirEntries cur).isSome ∧
      match firstMatch fs cache cur c with
      | some (some j) => LooksInDirs fs (remember fs cache cur c j) j cs
      | _ => True

theorem resolve_isSome {cache : List NameEntry} {par cur : Nat} {comps : List CString}
    (h : LooksInDirs fs cache cur comps) : (resolve fs cache par cur comps).isSome := by
  induction comps generalizing cache par cur with
  | nil => rfl
  | cons c cs ih =>
      obtain ⟨hlist, hrest⟩ := h
      unfold resolve
      cases hmatch : firstMatch fs cache cur c with
      | none =>
          unfold firstMatch at hmatch
          split at hmatch
          · contradiction
          · simp [ramfsInoLookup, Option.isSome_iff_ne_none.mp hlist] at hmatch
      | some found =>
          rw [hmatch] at hrest
          cases found with
          | none => rfl
          | some j => exact ih hrest

/-- For every tree, every name cache and all flags, lookup of a path through directories
returns, and it changes counters only by one for the inode it stores and by one each for
the inode and the parent of every entry that it adds to the name cache. -/
theorem lookup_refs_balanced {path : CString} (hfit : fs.CountsFit)
    (habs : path.head? = some slash)
    (hdirs : LooksInDirs fs fs.nameCacheList fs.root (components path)) (flags : Nat) :
    ∃ r new, vfsLookup fs path flags = some r ∧ (r.code ≠ 0 → r.res = none) ∧
      fs.RefsOnly r.fs ∧ r.fs.nameCacheList = new ++ fs.nameCacheList ∧
      ∀ i, r.fs.refcnt i = (fs.refcnt i + ((if r.res = some i then 1 else 0) +
        new.countP (fun e => decide (e.ino = i)) +
        new.countP (fun e => decide (e.parent = i)))) % 2 ^ 32 := by
  have hsome : (vfsLookup fs path flags).isSome := by
    rw [← Option.isSome_map, vfsLookup_resolve fs habs, Option.isSome_map]
    exact resolve_isSome hdirs
  obtain ⟨r, hr⟩ := Option.isSome_iff_exists.mp hsome
  obtain ⟨hcode, new, hholds⟩ := vfsLookup_holds hfit hr
  refine ⟨r, new, hr, hcode, hholds.only, hholds.cache, fun i => ?_⟩
  rw [hholds.tally i, count_held]

end loop

instance LooksInDirs.decidable (fs : Fs) : ∀ (cache : List NameEntry) (cur : Nat)
    (comps : List CString), Decidable (LooksInDirs fs cache cur comps)
  | _, _, [] => isTrue trivial
  | cache, cur, c :: cs => by
      unfold LooksInDirs
      cases firstMatch fs cache cur c with
      | none => exact inferInstanceAs (Decidable ((fs.dirEntries cur).isSome ∧ True))
      | some found =>
          cases found with
          | none => exact inferInstanceAs (Decidable ((fs.dirEntries cur).isSome ∧ True))
          | some j =>
              have := LooksInDirs.decidable fs (remember fs cache cur c j) j cs
              exact inferInstanceAs (Decidable ((fs.dirEntries cur).isSome ∧
                LooksInDirs fs (remember fs cache cur c j) j cs))

/-- In a tree with the root only, `/.././..` stays at the root. -/
theorem lookup_refs_balanced_dots :
    ∃ r new, vfsLookup (ramfsReadSb fun _ => blankInode)
        (cstring [47, 46, 46, 47, 46, 47, 46, 46]) 0 = some r ∧
      r.fs.nameCacheList = new ++ [] ∧ r.fs.refcnt 0 = (1 + ((if r.res = some 0 then 1 else 0) +
        new.countP (fun e => decide (e.ino = 0)) +
        new.countP (fun e => decide (e.parent = 0)))) % 2 ^ 32 := by
  have hfit : (ramfsReadSb fun _ => blankInode).CountsFit := by
    intro i
    by_cases hi : i = 0
    · subst hi
      decide
    · simp [ramfsReadSb, Fs.inoRef, Fs.setInode, Fs.refcnt, hi, blankInode]
  have habs : (cstring [47, 46, 46, 47, 46, 47, 46, 46]).head? = some slash := by decide
  obtain ⟨r, new, hr, -, -, hcache, hcount⟩ := lookup_refs_balanced hfit habs (by decide +kernel) 0
  exact ⟨r, new, hr, hcache, hcount 0⟩

end Lucix.Ramfs
