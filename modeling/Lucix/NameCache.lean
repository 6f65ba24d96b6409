import Lucix.Lookup
import Lucix.RamfsNamespace

/-! The name cache seen from outside: lookup with the cache that earlier calls have
filled against lookup in the same tree with an empty one. Both walks keep adding to
their caches, and since a cached name is compared only over the length of the
component, they part as soon as one step takes another inode. As long as no lookup
takes a longer name for a component, the cache holds entries of the tree and both
walks go the same way. -/
namespace Lucix.Ramfs
open Execution
open FileIo (Inode)

inductive NameCall where
  | tree (call : TreeCall)
  | lookup (path : CString) (flags : Nat)

/-- A call that changes the tree, or a successful lookup. -/
def Fs.nameStep (fs : Fs) : NameCall → Option Fs
  | .tree call => fs.treeStep call
  | .lookup path flags => do
      let r ← vfsLookup fs path flags
      if r.code = 0 then some r.fs else none

/-- Lookup returns the same code and the same inode as with an empty name cache. -/
def Transparent (fs : Fs) (path : CString) (flags : Nat) : Prop :=
  (vfsLookup fs path flags).map LookupResult.answer =
    (vfsLookup fs.dropCache path flags).map LookupResult.answer

/-- Both walks take the same step at every component, with `cache` in one and in the other
`fresh`, which holds only what that walk has added. -/
def CacheAgrees (fs : Fs) : List NameEntry → List NameEntry → Nat → List CString → Prop
  | _, _, _, [] => True
  | cache, fresh, cur, c :: cs => firstMatch fs cache cur c = firstMatch fs fresh cur c ∧
      match firstMatch fs fresh cur c with
      | some (some j) => CacheAgrees fs (remember fs cache cur c j) (remember fs fresh cur c j) j cs
      | _ => True

section agreement
variable {fs : Fs} {cache fresh : List NameEntry} {cur : Nat} {comps : List CString}

theorem resolve_dropCache (fs : Fs) (cache : List NameEntry) (par cur : Nat)
    (comps : List CString) : resolve fs.dropCache cache par cur comps = resolve fs cache par cur comps := by
  induction comps generalizing cache par cur with
  | nil => rfl
  | cons c cs ih =>
      have hmatch : firstMatch fs.dropCache cache cur c = firstMatch fs cache cur c := rfl
      unfold resolve
      rw [hmatch]
      split
      · exact ih _ _ _
      · rfl
      · rfl

theorem transparent_iff_resolve (fs : Fs) {path : CString} (habs : path.head? = some slash)
    (flags : Nat) : Transparent fs path flags ↔
      (resolve fs fs.nameCacheList fs.root fs.root (components path)).map (Resolved.answer flags) =
        (resolve fs [] fs.root fs.root (components path)).map (Resolved.answer flags) := by
  have hroot : fs.dropCache.root = fs.root := rfl
  have hcache : fs.dropCache.nameCacheList = [] := rfl
  rw [Transparent, vfsLookup_resolve fs habs, vfsLookup_resolve fs.dropCache habs, hroot, hcache,
    resolve_dropCache]

theorem CacheAgrees.resolve_eq (h : CacheAgrees fs cache fresh cur comps) (par : Nat) :
    resolve fs cache par cur comps = resolve fs fresh par cur comps := by
  induction comps generalizing cache fresh par cur with
  | nil => rfl
  | cons c cs ih =>
      obtain ⟨hstep, hrest⟩ := h
      unfold resolve
      rw [hstep]
      cases hmatch : firstMatch fs fresh cur c with
      | none => rfl
      | some found =>
          rw [hmatch] at hrest
          cases found with
          | none => rfl
          | some j => exact ih hrest cur

theorem CacheAgrees.of_prefix {comps' : List CString} (h : CacheAgrees fs cache fresh cur comps)
    (hpre : comps' <+: comps) : CacheAgrees fs cache fresh cur comps' := by
  induction comps' generalizing cache fresh cur comps with
  | nil => trivial
  | cons c cs ih =>
      obtain ⟨rest, rfl⟩ := hpre
      obtain ⟨hstep, hnext⟩ := h
      refine ⟨hstep, ?_⟩
      cases hmatch : firstMatch fs fresh cur c with
      | none => trivial
      | some found =>
          rw [hmatch] at hnext
          cases found with
          | none => trivial
          | some j => exact ih hnext (List.prefix_append cs rest)

theorem firstMatch_of_answer {c : CString} (par : Nat)
    (h : (resolve fs cache par cur [c]).map (Resolved.answer 0) =
      (resolve fs fresh par cur [c]).map (Resolved.answer 0)) :
    firstMatch fs cache cur c = firstMatch fs fresh cur c := by
  have hanswer : ∀ cache, (resolve fs cache par cur [c]).map (Resolved.answer 0) =
      (firstMatch fs cache cur c).map fun found => (if found = none then -enoent else 0, found) := by
    intro cache
    unfold resolve
    cases firstMatch fs cache cur c with
    | none => rfl
    | some found => cases found <;> rfl
  rw [hanswer, hanswer] at h
  exact Option.map_injective (fun a b hab => (Prod.mk.inj hab).2) h

/-- If every leading part of the path gets the same answer, every step is the same. -/
theorem agrees_of_answers (par : Nat)
    (h : ∀ comps', comps' <+: comps →
      (resolve fs cache par cur comps').map (Resolved.answer 0) =
        (resolve fs fresh par cur comps').map (Resolved.answer 0)) :
    CacheAgrees fs cache fresh cur comps := by
  induction comps generalizing cache fresh par cur with
  | nil => trivial
  | cons c cs ih =>
      have hstep := firstMatch_of_answer par (h [c] (by simp))
      refine ⟨hstep, ?_⟩
      cases hmatch : firstMatch fs fresh cur c with
      | none => trivial
      | some found =>
          cases found with
          | none => trivial
          | some j =>
              apply ih cur
              intro comps' hpre
              have hlonger := h (c :: comps') (List.cons_prefix_cons.mpr ⟨rfl, hpre⟩)
              simpa only [resolve, hstep, hmatch] using hlonger

/-- In every tree and with every name cache: the path and all its leading parts are looked up
as with an empty cache exactly when the steps agree. -/
theorem cache_transparent_iff (fs : Fs) (path : CString) :
    (∀ path' flags, path'.head? = some slash → components path' <+: components path →
      Transparent fs path' flags) ↔
      CacheAgrees fs fs.nameCacheList [] fs.root (components path) := by
  constructor
  · intro hall
    apply agrees_of_answers fs.root
    intro comps hpre
    obtain ⟨path', habs, rfl⟩ := exists_path fun c hc => mem_components (hpre.subset hc)
    exact (transparent_iff_resolve fs habs 0).mp (hall path' 0 habs hpre)
  · intro hagrees path' flags habs hpre
    rw [transparent_iff_resolve fs habs, (hagrees.of_prefix hpre).resolve_eq]

end agreement

/-! ### Steps that take whole names -/

/-- The newest name that begins with the component, in the cache or else in the directory, is the
component itself. -/
def MatchesWhole (fs : Fs) (cache : List NameEntry) (dir : Nat) (name : CString) : Prop :=
  match cache.find? fun e => decide (e.parent = dir) && sameBytes e.name name with
  | some e => e.name = name
  | none => ∀ e ∈ ((fs.dirEntries dir).getD []).find? fun e => sameBytes e.name name, e.name = name

/-- No step of the walk takes a longer name for a component. -/
def StepsWhole (fs : Fs) : List NameEntry → Nat → List CString → Prop
  | _, _, [] => True
  | cache, cur, c :: cs => MatchesWhole fs cache cur c ∧
      match firstMatch fs cache cur c with
      | some (some j) => StepsWhole fs (remember fs cache cur c j) j cs
      | _ => True

/-- A lookup takes no longer name; the other calls are free. -/
def Fs.LooksWhole (fs : Fs) : NameCall → Prop
  | .tree _ => True
  | .lookup path _ => StepsWhole fs fs.nameCacheList fs.root (components path)

instance MatchesWhole.decidable (fs : Fs) (cache : List NameEntry) (dir : Nat) (name : CString) :
    Decidable (MatchesWhole fs cache dir name) := by
  unfold MatchesWhole
  cases cache.find? fun e => decide (e.parent = dir) && sameBytes e.name name with
  | none => exact inferInstanceAs (Decidable (∀ e ∈ ((fs.dirEntries dir).getD []).find?
      fun e => sameBytes e.name name, e.name = name))
  | some e => exact inferInstanceAs (Decidable (e.name = name))

instance StepsWhole.decidable (fs : Fs) : ∀ (cache : List NameEntry) (cur : Nat)
    (comps : List CString), Decidable (StepsWhole fs cache cur comps)
  | _, _, [] => isTrue trivial
  | cache, cur, c :: cs => by
      unfold StepsWhole
      cases firstMatch fs cache cur c with
      | none => exact inferInstanceAs (Decidable (MatchesWhole fs cache cur c ∧ True))
      | some found =>
          cases found with
          | none => exact inferInstanceAs (Decidable (MatchesWhole fs cache cur c ∧ True))
          | some j =>
              have := StepsWhole.decidable fs (remember fs cache cur c j) j cs
              exact inferInstanceAs (Decidable (MatchesWhole fs cache cur c ∧
                StepsWhole fs (remember fs cache cur c j) j cs))

instance Fs.LooksWhole.decidable (fs : Fs) : ∀ call, Decidable (fs.LooksWhole call)
  | .tree _ => isTrue trivial
  | .lookup path _ => inferInstanceAs
      (Decidable (StepsWhole fs fs.nameCacheList fs.root (components path)))

/-- Every name in the cache is that of an entry of its directory. -/
def CacheNames (fs : Fs) (cache : List NameEntry) : Prop :=
  ∀ e ∈ cache, ∃ entries, fs.dirEntries e.parent = some entries ∧ ⟨e.name, e.ino⟩ ∈ entries

/-- The entry of a list with this name. -/
def entryNamed (fs : Fs) (dir : Nat) (name : CString) : Option (Option Nat) :=
  (fs.dirEntries dir).map fun entries => (entries.find? fun e => decide (e.name = name)).map DirEntry.i

section whole
variable {fs : Fs} {cache fresh : List NameEntry} {cur dir j : Nat} {c name : CString}
  {comps : List CString}

theorem entryNamed_of_mem (hunique : fs.UniqueNames) {entries : List DirEntry}
    (hlist : fs.dirEntries dir = some entries) (hmem : ⟨name, j⟩ ∈ entries) :
    entryNamed fs dir name = some (some j) := by
  cases hfind : entries.find? fun e => decide (e.name = name) with
  | none =>
      have hnone := List.find?_eq_none.mp hfind _ hmem
      simp at hnone
  | some e =>
      have hname : e.name = name := by simpa using List.find?_some hfind
      have hsame : e = ⟨name, j⟩ := List.inj_on_of_nodup_map (hunique dir entries hlist)
        (List.mem_of_find?_eq_some hfind) hmem hname
      rw [entryNamed, hlist, Option.map_some, hfind, hsame]
      rfl

/-- A step that takes a whole name takes the entry with that name. -/
theorem MatchesWhole.firstMatch_eq (hunique : fs.UniqueNames) (hcache : CacheNames fs cache)
    (h : MatchesWhole fs cache cur c) : firstMatch fs cache cur c = entryNamed fs cur c := by
  unfold MatchesWhole at h
  unfold firstMatch fsNameCacheFastLookup
  dsimp only
  cases hhit : cache.find? fun e => decide (e.parent = cur) && sameBytes e.name c with
  | some e =>
      rw [hhit] at h
      obtain ⟨entries, hlist, hmem⟩ := hcache e (List.mem_of_find?_eq_some hhit)
      have hparent : e.parent = cur := by
        have hfound := List.find?_some hhit
        rw [Bool.and_eq_true, decide_eq_true_iff] at hfound
        exact hfound.1
      rw [hparent] at hlist
      rw [h] at hmem
      exact (entryNamed_of_mem hunique hlist hmem).symm
  | none =>
      rw [hhit] at h
      unfold ramfsInoLookup
      cases hlist : fs.dirEntries cur with
      | none => simp [entryNamed, hlist]
      | some entries =>
          rw [hlist, Option.getD_some] at h
          cases hfind : entries.find? fun e => sameBytes e.name c with
          | none =>
              have hnone : (entries.find? fun e => decide (e.name = c)) = none := by
                apply List.find?_eq_none.mpr
                intro e he hname
                apply List.find?_eq_none.mp hfind e he
                rw [decide_eq_true_iff] at hname
                simp [sameBytes, hname]
              simp [entryNamed, hlist, hnone, hfind]
          | some e =>
              have hmem : ⟨c, e.i⟩ ∈ entries := by
                rw [← h e hfind]
                exact List.mem_of_find?_eq_some hfind
              rw [entryNamed_of_mem hunique hlist hmem]
              simp [hfind]

theorem mem_of_entryNamed (h : entryNamed fs cur c = some (some j)) :
    ∃ entries, fs.dirEntries cur = some entries ∧ ⟨c, j⟩ ∈ entries := by
  obtain ⟨entries, hlist, hfind⟩ := Option.map_eq_some_iff.mp h
  obtain ⟨e, hfound, rfl⟩ := Option.map_eq_some_iff.mp hfind
  have hname : e.name = c := by simpa using List.find?_some hfound
  refine ⟨entries, hlist, ?_⟩
  rw [← hname]
  exact List.mem_of_find?_eq_some hfound

theorem CacheNames.remember (h : CacheNames fs cache) (hentry : entryNamed fs cur c = some (some j)) :
    CacheNames fs (remember fs cache cur c j) := by
  unfold Ramfs.remember
  split
  · exact h
  · intro e he
    rcases List.mem_cons.mp he with rfl | he
    · exact mem_of_entryNamed hentry
    · exact h e he

/-- Two walks that take whole names take the same steps. -/
theorem StepsWhole.agrees (hunique : fs.UniqueNames) (hcache : CacheNames fs cache)
    (hfresh : CacheNames fs fresh) (h : StepsWhole fs cache cur comps)
    (h' : StepsWhole fs fresh cur comps) : CacheAgrees fs cache fresh cur comps := by
  induction comps generalizing cache fresh cur with
  | nil => trivial
  | cons c cs ih =>
      obtain ⟨hmatch, hrest⟩ := h
      obtain ⟨hmatch', hrest'⟩ := h'
      rw [hmatch.firstMatch_eq hunique hcache] at hrest
      rw [hmatch'.firstMatch_eq hunique hfresh] at hrest'
      unfold CacheAgrees
      rw [hmatch.firstMatch_eq hunique hcache, hmatch'.firstMatch_eq hunique hfresh]
      refine ⟨rfl, ?_⟩
      cases hentry : entryNamed fs cur c with
      | none => trivial
      | some found =>
          rw [hentry] at hrest hrest'
          cases found with
          | none => trivial
          | some j => exact ih (hcache.remember hentry) (hfresh.remember hentry) hrest hrest'

end whole

/-! ### Runs -/

/-- Names are unique in each directory, and every name in the cache is one of them. -/
structure Fs.Coherent (fs : Fs) : Prop where
  unused : fs.Unused
  unique : fs.UniqueNames
  cached : CacheNames fs fs.nameCacheList

section coherent
variable {fs fs' : Fs} {dir par cur flags fuel : Nat} {name c path : CString} {r : LookupResult}

theorem CacheNames.grow {cache : List NameEntry} {entries : List DirEntry} {ino : Inode}
    {list : Option (List DirEntry)} (h : CacheNames fs cache) (hunused : fs.Unused)
    (hname : fs.CanName dir name entries) :
    CacheNames (fs.grow dir entries name ino list) cache := by
  intro e he
  obtain ⟨xs, hxs, hmem⟩ := h e he
  rw [grow_list_of_ne (Nat.ne_of_lt (hunused.dir_lt hxs))]
  split_ifs with hdir
  · rw [hdir, hname.list] at hxs
    obtain rfl := Option.some.inj hxs
    exact ⟨_, rfl, List.mem_cons_of_mem _ hmem⟩
  · exact ⟨xs, hxs, hmem⟩

theorem Fs.Coherent.treeStep {call : TreeCall} (h : fs.Coherent)
    (hcall : fs.treeStep call = some fs') : fs'.Coherent := by
  rcases treeStep_grow hcall with rfl | ⟨dir, name, entries, ino, list, hname, -, hlist, rfl⟩
  · exact h
  · exact ⟨h.unused.grow hname, h.unique.grow h.unused hname hlist, h.cached.grow h.unused hname⟩

theorem lookupComponent_next {found : Option Nat}
    (hcall : lookupComponent fs cur c = some (found, fs')) : fs'.next = fs.next := by
  unfold lookupComponent at hcall
  split at hcall
  · simp only [Option.some.injEq, Prod.mk.injEq] at hcall
    rw [← hcall.2]
    rfl
  · obtain ⟨hit, -, hcall⟩ := Option.map_eq_some_iff.mp hcall
    cases hit with
    | none => rw [← (Prod.mk.inj hcall).2]
    | some ino =>
        rw [← (Prod.mk.inj hcall).2]
        rfl

/-- The part of the state that the walk may not change, with a cache that stays true. -/
structure Fs.KeepsTree (fs fs' : Fs) : Prop where
  dirEntries : fs'.dirEntries = fs.dirEntries
  next : fs'.next = fs.next
  cached : CacheNames fs fs'.nameCacheList

theorem Fs.KeepsTree.inoDeref? (h : fs.KeepsTree fs') (o : Option Nat) :
    fs.KeepsTree (fs'.inoDeref? o) := by
  cases o <;> exact ⟨h.dirEntries, h.next, h.cached⟩

theorem loop_missing_keeps (h : fs.KeepsTree fs') {parent : Option Nat}
    (hr : vfsLookupLoop flags fuel fs' ⟨path, parent, none, -enoent⟩ = some r) :
    fs.KeepsTree r.fs := by
  cases fuel with
  | zero => simp [vfsLookupLoop] at hr
  | succ fuel =>
      unfold vfsLookupLoop at hr
      dsimp only at hr
      split_ifs at hr with hend hflag hmiss
      · obtain rfl := Option.some.inj hr
        exact h.inoDeref? none
      · obtain rfl := Option.some.inj hr
        exact h.inoDeref? parent
      · obtain rfl := Option.some.inj hr
        exact (h.inoDeref? parent).inoDeref? none
      · simp at hr

theorem loop_keeps (hunique : fs.UniqueNames) (h : fs.KeepsTree fs')
    (hsteps : StepsWhole fs fs'.nameCacheList cur (components path))
    (hr : vfsLookupLoop flags fuel fs' ⟨path, some par, some cur, 0⟩ = some r) :
    fs.KeepsTree r.fs := by
  induction fuel generalizing fs' par cur path with
  | zero => simp [vfsLookupLoop] at hr
  | succ fuel ih =>
      rcases components_step path with ⟨hnil, -⟩ | ⟨hne, hcons⟩
      · unfold vfsLookupLoop at hr
        dsimp only at hr
        rw [if_pos hnil] at hr
        split_ifs at hr with hflag
        · obtain rfl := Option.some.inj hr
          exact h.inoDeref? (some cur)
        · obtain rfl := Option.some.inj hr
          exact h.inoDeref? (some par)
      · rw [hcons] at hsteps
        obtain ⟨hmatch, hrest⟩ := hsteps
        have hentry := hmatch.firstMatch_eq hunique h.cached
        have hstep := lookupComponent_eq h.dirEntries cur
          (getNextComponent (path.dropWhile fun b => decide (b = slash)))
        unfold vfsLookupLoop at hr
        dsimp only at hr
        rw [if_neg hne, if_neg (by simp)] at hr
        rw [hentry] at hstep hrest
        cases hfound : entryNamed fs cur
            (getNextComponent (path.dropWhile fun b => decide (b = slash))) with
        | none =>
            rw [hfound] at hstep
            simp [hstep] at hr
        | some found =>
            cases found with
            | none =>
                rw [hfound] at hstep
                simp only [hstep, Option.bind_eq_bind, Option.bind_some, if_true] at hr
                exact loop_missing_keeps (h.inoDeref? (some par)) hr
            | some j =>
                rw [hfound] at hstep hrest
                obtain ⟨fs'', hcall, hd, hcache⟩ := hstep
                simp only [hcall, Option.bind_eq_bind, Option.bind_some, reduceCtorEq, if_false] at hr
                have hkeep : fs.KeepsTree (fs''.inoDeref par) := by
                  refine ⟨hd, (lookupComponent_next hcall).trans h.next, ?_⟩
                  show CacheNames fs fs''.nameCacheList
                  rw [hcache]
                  exact h.cached.remember hfound
                refine ih hkeep ?_ hr
                show StepsWhole fs fs''.nameCacheList j _
                rw [hcache]
                exact hrest

theorem Fs.Coherent.lookup (h : fs.Coherent)
    (hsteps : StepsWhole fs fs.nameCacheList fs.root (components path))
    (hr : vfsLookup fs path flags = some r) : r.fs.Coherent := by
  unfold vfsLookup at hr
  split_ifs at hr with habs
  obtain ⟨p, rfl⟩ := List.head?_eq_some_iff.mp habs
  rw [components_slash] at hsteps
  have hstart : fs.KeepsTree ((fs.inoRef fs.root).inoRef fs.root) := ⟨rfl, rfl, h.cached⟩
  have hkeep := loop_keeps h.unique hstart hsteps hr
  constructor
  · intro i hi
    rw [hkeep.dirEntries]
    exact h.unused i (hkeep.next ▸ hi)
  · intro d entries hlist
    rw [hkeep.dirEntries] at hlist
    exact h.unique d entries hlist
  · intro e he
    rw [hkeep.dirEntries]
    exact hkeep.cached e he

theorem Fs.Coherent.nameStep {call : NameCall} (h : fs.Coherent) (hwhole : fs.LooksWhole call)
    (hcall : fs.nameStep call = some fs') : fs'.Coherent := by
  cases call with
  | tree call => exact h.treeStep hcall
  | lookup path flags =>
      obtain ⟨r, hr, hcode⟩ := Option.bind_eq_some_iff.mp hcall
      split_ifs at hcode
      obtain rfl := Option.some.inj hcode
      exact h.lookup hwhole hr

theorem readSb_coherent (memory : Nat → Inode) : (ramfsReadSb memory).Coherent where
  unused := (readSb_sound memory).unused
  unique := (readSb_named memory).tree.names
  cached := by
    rw [(readSb_sound memory).cache_nil]
    exact nofun

end coherent

/-- In every state that calls reach whose lookups take no longer name for a component, a path
is looked up as with an empty cache, if neither of the two walks takes one. -/
theorem run_cache_transparent {memory : Nat → Inode} {calls : List NameCall} {fs : Fs}
    (hwhole : Guarded Fs.nameStep Fs.LooksWhole (ramfsReadSb memory) calls)
    (hrun : run Fs.nameStep (ramfsReadSb memory) calls = some fs) {path : CString}
    (hcached : StepsWhole fs fs.nameCacheList fs.root (components path))
    (hempty : StepsWhole fs [] fs.root (components path)) (flags : Nat) :
    Transparent fs path flags := by
  have hfs : fs.Coherent :=
    run_guarded Fs.Coherent (fun _ _ _ => Fs.Coherent.nameStep) (readSb_coherent memory) hwhole hrun
  have hagrees : CacheAgrees fs fs.nameCacheList [] fs.root (components path) :=
    hcached.agrees hfs.unique hfs.cached nofun hempty
  by_cases habs : path.head? = some slash
  · exact (cache_transparent_iff fs path).mpr hagrees path flags habs (List.prefix_refl _)
  · simp [Transparent, vfsLookup, habs]

/-- The file `/ab/c` is looked up, then the directory gets a file `d`. -/
def cachedName : List NameCall :=
  nestedTree.map .tree ++ [.lookup (cstring [47, 97, 98, 47, 99]) 0, .tree (.create 1 (cstring [100]) 0)]

/-- The path `/ab/c` is then found in the cache. -/
theorem run_cache_transparent_hit :
    ∃ fs, run Fs.nameStep (ramfsReadSb fun _ => blankInode) cachedName = some fs ∧
      fsNameCacheFastLookup fs 1 (cstring [99]) = some 2 ∧
      Transparent fs (cstring [47, 97, 98, 47, 99]) 0 := by
  obtain ⟨fs, hfs⟩ := Option.isSome_iff_exists.mp (show (run Fs.nameStep
    (ramfsReadSb fun _ => blankInode) cachedName).isSome = true by decide +kernel)
  have hwhole : Guarded Fs.nameStep Fs.LooksWhole (ramfsReadSb fun _ => blankInode) cachedName := by
    decide +kernel
  have hsteps : (run Fs.nameStep (ramfsReadSb fun _ => blankInode) cachedName).all (fun fs =>
      decide (fsNameCacheFastLookup fs 1 (cstring [99]) = some 2 ∧
        StepsWhole fs fs.nameCacheList fs.root (components (cstring [47, 97, 98, 47, 99])) ∧
        StepsWhole fs [] fs.root (components (cstring [47, 97, 98, 47, 99])))) = true := by
    decide +kernel
  rw [hfs] at hsteps
  obtain ⟨hhit, hcached, hempty⟩ := of_decide_eq_true hsteps
  exact ⟨fs, hfs, hhit, run_cache_transparent hwhole hfs hcached hempty 0⟩

/-- The file `abc` is looked up, then a file `ab` is made. -/
def shadowedName : List NameCall :=
  [.tree (.create 0 (cstring [97, 98, 99]) 0), .lookup (cstring [47, 97, 98, 99]) 0,
    .tree (.create 0 (cstring [97, 98]) 0)]

/-- The path `/ab` now finds the older file through the cache, the newer one without. -/
theorem cache_hides_shorter_name :
    ¬ ∀ (memory : Nat → Inode) (calls : List NameCall) (fs : Fs) (path : CString) (flags : Nat),
      run Fs.nameStep (ramfsReadSb memory) calls = some fs → path.head? = some slash →
        Transparent fs path flags := by
  intro hall
  obtain ⟨fs, hfs⟩ := Option.isSome_iff_exists.mp (show (run Fs.nameStep
    (ramfsReadSb fun _ => blankInode) shadowedName).isSome = true by decide +kernel)
  have hbad : (run Fs.nameStep (ramfsReadSb fun _ => blankInode) shadowedName).all (fun fs =>
      decide ((vfsLookup fs (cstring [47, 97, 98]) 0).map LookupResult.answer = some (0, some 1) ∧
        (vfsLookup fs.dropCache (cstring [47, 97, 98]) 0).map LookupResult.answer =
          some (0, some 2))) = true := by
    decide +kernel
  rw [hfs] at hbad
  obtain ⟨hcached, hfresh⟩ := of_decide_eq_true hbad
  have hsame := hall _ shadowedName fs (cstring [47, 97, 98]) 0 hfs (by decide)
  rw [Transparent, hcached, hfresh] at hsame
  simp at hsame

end Lucix.Ramfs
