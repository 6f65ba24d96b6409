import Lucix.RamfsTree

/-! Path lookup against walking the tree by names. `vfs_lookup` compares a stored
name only over the length of the component, so it finds the first name that begins
with the component, and it looks inside inodes that are no directories. Each step is
right exactly when the first such name stands for the inode that the component
names. -/
namespace Lucix.Ramfs
open Execution
open FileIo (Inode)

/-! ### Walking by names -/

/-- The components of a path, whatever the number of slashes between them. -/
def components (path : CString) : List CString :=
  (path.splitOn slash).filter fun c => decide (c ≠ [])

/-- The entry of a directory with exactly this name. -/
def exactEntry (fs : Fs) (dir : Nat) (name : CString) : Option Nat :=
  if fs.isDir dir then
    (((fs.dirEntries dir).getD []).find? fun e => decide (e.name = name)).map DirEntry.i
  else none

def exactWalk (fs : Fs) : Nat → List CString → Option Nat
  | i, [] => some i
  | i, c :: cs => (exactEntry fs i c).bind fun j => exactWalk fs j cs

/-- The directory in which the last component is or would be found, from a directory `cur`
with parent `par`. -/
def parentFrom (fs : Fs) (par cur : Nat) (comps : List CString) : Option Nat :=
  if comps = [] then some par else (exactWalk fs cur comps.dropLast).filter fs.isDir

/-- The call stores the expected inode and returns 0, or stores none and returns a negative
code. -/
def Answers (expected : Option Nat) (r : Option (Int × Option Nat)) : Prop :=
  match expected with
  | some i => r = some (0, some i)
  | none => ∃ code < 0, r = some (code, none)

def LookupResult.answer (r : LookupResult) : Int × Option Nat := (r.code, r.res)

/-- Lookup of the path is exact name resolution. -/
def Resolves (fs : Fs) (path : CString) : Prop :=
  Answers (exactWalk fs fs.root (components path)) ((vfsLookup fs path 0).map LookupResult.answer) ∧
    Answers (parentFrom fs fs.root fs.root (components path))
      ((vfsLookup fs path lookupParent).map LookupResult.answer)

/-! ### Components -/

section components
variable {c rest : CString}

theorem components_slash (path : CString) : components (slash :: path) = components path := by
  simp [components, List.splitOn_cons_eq_if_modifyHead]

theorem components_dropWhile (path : CString) :
    components (path.dropWhile fun b => decide (b = slash)) = components path := by
  induction path with
  | nil => rfl
  | cons b path ih =>
      by_cases hb : b = slash
      · rw [List.dropWhile_cons, if_pos (by simpa using hb), ih, hb, components_slash]
      · rw [List.dropWhile_cons, if_neg (by simpa using hb)]

theorem components_append (hc : c ≠ []) (hno : slash ∉ c)
    (hrest : rest = [] ∨ rest.head? = some slash) :
    components (c ++ rest) = c :: components rest := by
  rcases hrest with rfl | hhead
  · simp [components, List.splitOn_eq_singleton hno, hc]
  · obtain ⟨r, rfl⟩ := List.head?_eq_some_iff.mp hhead
    rw [components_slash, components, List.splitOn_append_cons_self_of_not_mem hno,
      List.filter_cons_of_pos (by simpa using hc), components]

/-- The component that the loop cuts off and the rest of the path. -/
theorem components_step (path : CString) :
    let p := path.dropWhile fun b => decide (b = slash)
    (getNextComponent p = [] ∧ components path = []) ∨
      (getNextComponent p ≠ [] ∧ components path =
        getNextComponent p :: components (p.drop (getNextComponent p).length)) := by
  intro p
  have hcomp : components path = components p := (components_dropWhile path).symm
  have hhead : p.head? ≠ some slash := by
    intro hslash
    have hnot := List.head?_dropWhile_not (fun b => decide (b = slash)) path
    rw [show List.dropWhile (fun b => decide (b = slash)) path = p from rfl, hslash] at hnot
    simp at hnot
  have hsplit : p = getNextComponent p ++ p.dropWhile fun b => decide (b ≠ slash) :=
    (List.takeWhile_append_dropWhile).symm
  rw [hcomp]
  by_cases hnil : getNextComponent p = []
  · left
    refine ⟨hnil, ?_⟩
    cases hp : p with
    | nil => rfl
    | cons b r =>
        rw [hp] at hhead hnil
        have hb : b ≠ slash := by simpa using hhead
        simp [getNextComponent, hb] at hnil
  · right
    refine ⟨hnil, ?_⟩
    have hdrop : p.drop (getNextComponent p).length = p.dropWhile fun b => decide (b ≠ slash) := by
      have h := congrArg (List.drop (getNextComponent p).length) hsplit
      rwa [List.drop_left] at h
    have hno : slash ∉ getNextComponent p := by
      intro hm
      have hall := List.all_eq_true.mp List.all_takeWhile _ hm
      simp at hall
    rw [hdrop]
    conv_lhs => rw [hsplit]
    refine components_append hnil hno ?_
    cases hr : p.dropWhile fun b => decide (b ≠ slash) with
    | nil => exact .inl rfl
    | cons b r =>
        have hnot := List.head?_dropWhile_not (fun b => decide (b ≠ slash)) p
        rw [hr] at hnot
        exact .inr (by simpa using hnot)

theorem length_rest (path : CString)
    (hne : getNextComponent (path.dropWhile fun b => decide (b = slash)) ≠ []) :
    ((path.dropWhile fun b => decide (b = slash)).drop
      (getNextComponent (path.dropWhile fun b => decide (b = slash))).length).length <
        path.length := by
  have hle := (List.dropWhile_sublist (fun b => decide (b = slash)) (l := path)).length_le
  have hcomp := (List.takeWhile_sublist (fun b => decide (b ≠ slash))
    (l := path.dropWhile fun b => decide (b = slash))).length_le
  have hpos := List.length_pos_iff.mpr hne
  rw [List.length_drop]
  simp only [getNextComponent] at hpos ⊢
  omega

theorem mem_components {path : CString} (hc : c ∈ components path) : c ≠ [] ∧ slash ∉ c := by
  induction hn : path.length using Nat.strong_induction_on generalizing path with
  | _ n ih =>
      rcases components_step path with ⟨-, hnil⟩ | ⟨hne, hcons⟩
      · simp [hnil] at hc
      · rw [hcons, List.mem_cons] at hc
        rcases hc with rfl | hc
        · refine ⟨hne, fun hm => ?_⟩
          have hall := List.all_eq_true.mp List.all_takeWhile _ hm
          simp at hall
        · exact ih _ (hn ▸ length_rest path hne) hc rfl

theorem exists_path {comps : List CString} (h : ∀ c ∈ comps, c ≠ [] ∧ slash ∉ c) :
    ∃ path : CString, path.head? = some slash ∧ components path = comps := by
  induction comps with
  | nil => exact ⟨[slash], rfl, by rw [components_slash]; rfl⟩
  | cons c comps ih =>
      obtain ⟨path, hhead, hpath⟩ := ih fun c' hc' => h c' (List.mem_cons_of_mem c hc')
      obtain ⟨hne, hno⟩ := h c List.mem_cons_self
      refine ⟨slash :: (c ++ path), rfl, ?_⟩
      rw [components_slash, components_append hne hno (.inr hhead), hpath]

end components

/-! ### What the loop computes -/

/-- The first name that begins with the component: among the names in the cache, then among
the entries of the directory. -/
def firstMatch (fs : Fs) (cache : List NameEntry) (dir : Nat) (name : CString) :
    Option (Option Nat) :=
  match fsNameCacheFastLookup { fs with nameCacheList := cache } dir name with
  | some ino => some (some ino)
  | none => ramfsInoLookup fs dir name

/-- The name cache after a component has been found. -/
def remember (fs : Fs) (cache : List NameEntry) (dir : Nat) (name : CString) (ino : Nat) :
    List NameEntry :=
  if (fsNameCacheFastLookup { fs with nameCacheList := cache } dir name).isSome then cache
  else ⟨dir, name, ino⟩ :: cache

inductive Resolved where
  | found (parent current : Nat)
  | missing (dir : Nat) (last : Bool)
  deriving DecidableEq, Repr

/-- The loop on the components of the path. -/
def resolve (fs : Fs) : List NameEntry → Nat → Nat → List CString → Option Resolved
  | _, par, cur, [] => some (.found par cur)
  | cache, _, cur, c :: cs =>
      match firstMatch fs cache cur c with
      | some (some j) => resolve fs (remember fs cache cur c j) cur j cs
      | some none => some (.missing cur (decide (cs = [])))
      | none => none

def Resolved.answer (flags : Nat) : Resolved → Int × Option Nat
  | .found par cur => (0, some (if flags &&& lookupParent ≠ 0 then par else cur))
  | .missing dir last => if last ∧ flags &&& lookupParent ≠ 0 then (0, some dir) else (-enoent, none)

section loop
variable {fs fs' : Fs} {cur : Nat} {c : CString}

theorem lookupComponent_eq (hd : fs'.dirEntries = fs.dirEntries) (cur : Nat) (c : CString) :
    match firstMatch fs fs'.nameCacheList cur c with
    | some (some j) => ∃ fs'', lookupComponent fs' cur c = some (some j, fs'') ∧
        fs''.dirEntries = fs.dirEntries ∧
        fs''.nameCacheList = remember fs fs'.nameCacheList cur c j
    | some none => lookupComponent fs' cur c = some (none, fs')
    | none => lookupComponent fs' cur c = none := by
  have hfast : fsNameCacheFastLookup { fs with nameCacheList := fs'.nameCacheList } cur c =
      fsNameCacheFastLookup fs' cur c := rfl
  have hdir : ramfsInoLookup fs cur c = ramfsInoLookup fs' cur c := by
    simp only [ramfsInoLookup, hd]
  simp only [firstMatch, lookupComponent, remember, hfast, hdir]
  cases fsNameCacheFastLookup fs' cur c with
  | some j => exact ⟨_, rfl, hd, rfl⟩
  | none =>
      cases ramfsInoLookup fs' cur c with
      | none => rfl
      | some found =>
          cases found with
          | none => rfl
          | some j => exact ⟨_, rfl, hd, rfl⟩

theorem loop_missing (flags fuel : Nat) (fs' : Fs) (path : CString) (dir : Nat) :
    (vfsLookupLoop flags (fuel + 1) fs' ⟨path, some dir, none, -enoent⟩).map LookupResult.answer =
      some ((Resolved.missing dir (decide (components path = []))).answer flags) := by
  have hcode : (-enoent : Int) ≠ 0 := by decide
  rcases components_step path with ⟨hnil, hcomps⟩ | ⟨hne, hcomps⟩
  · by_cases hflag : flags &&& lookupParent ≠ 0
    · simp [vfsLookupLoop, hnil, hcomps, hflag, Resolved.answer, LookupResult.answer]
    · simp [vfsLookupLoop, hnil, hcomps, hflag, Resolved.answer, LookupResult.answer]
  · have hsome : components path ≠ [] := by simp [hcomps]
    simp [vfsLookupLoop, hne, hsome, hcode, Resolved.answer, LookupResult.answer]

theorem loop_resolve (flags : Nat) {comps : List CString} {fuel par cur : Nat} {fs' : Fs}
    {path : CString} (hd : fs'.dirEntries = fs.dirEntries) (hcomps : components path = comps)
    (hfuel : path.length < fuel) :
    (vfsLookupLoop flags fuel fs' ⟨path, some par, some cur, 0⟩).map LookupResult.answer =
      (resolve fs fs'.nameCacheList par cur comps).map (Resolved.answer flags) := by
  induction comps generalizing fuel par cur fs' path with
  | nil =>
      obtain ⟨k, rfl⟩ : ∃ k, fuel = k + 1 := ⟨fuel - 1, by omega⟩
      rcases components_step path with ⟨hnil, -⟩ | ⟨-, hcons⟩
      · by_cases hflag : flags &&& lookupParent ≠ 0
        · simp [vfsLookupLoop, hnil, hflag, resolve, Resolved.answer, LookupResult.answer]
        · simp [vfsLookupLoop, hnil, hflag, resolve, Resolved.answer, LookupResult.answer]
      · rw [hcomps] at hcons
        contradiction
  | cons c cs ih =>
      obtain ⟨k, rfl⟩ : ∃ k, fuel = k + 1 := ⟨fuel - 1, by omega⟩
      rcases components_step path with ⟨-, hnil⟩ | ⟨hne, hcons⟩
      · rw [hcomps] at hnil
        contradiction
      have hshort := length_rest path hne
      rw [hcomps] at hcons
      obtain ⟨hc, hrest⟩ := List.cons.inj hcons
      have hstep := lookupComponent_eq hd cur c
      rw [hc] at hstep
      rw [hc, resolve]
      cases hmatch : firstMatch fs fs'.nameCacheList cur
          (getNextComponent (path.dropWhile fun b => decide (b = slash))) with
      | none =>
          rw [hmatch] at hstep
          simp [vfsLookupLoop, hne, hstep]
      | some found =>
          cases found with
          | none =>
              obtain ⟨k, rfl⟩ : ∃ n, k = n + 1 := ⟨k - 1, by omega⟩
              rw [hmatch] at hstep
              rw [vfsLookupLoop]
              simp only [if_neg hne, ne_eq, not_true_eq_false, if_false, Option.bind_eq_bind,
                Option.bind_some, hstep, if_true]
              rw [loop_missing, ← hrest]
              rfl
          | some j =>
              rw [hmatch] at hstep
              obtain ⟨fs'', hcall, hd', hcache⟩ := hstep
              have hderef : (fs''.inoDeref par).dirEntries = fs.dirEntries := hd'
              rw [vfsLookupLoop]
              simp only [if_neg hne, ne_eq, not_true_eq_false, if_false, Option.bind_eq_bind,
                Option.bind_some, hcall, reduceCtorEq]
              rw [ih hderef hrest.symm (by omega), ← hcache]
              rfl

theorem vfsLookup_resolve (fs : Fs) {path : CString} (habs : path.head? = some slash)
    (flags : Nat) :
    (vfsLookup fs path flags).map LookupResult.answer =
      (resolve fs fs.nameCacheList fs.root fs.root (components path)).map
        (Resolved.answer flags) := by
  obtain ⟨p, rfl⟩ := List.head?_eq_some_iff.mp habs
  have hd : ((fs.inoRef fs.root).inoRef fs.root).dirEntries = fs.dirEntries := rfl
  rw [vfsLookup, if_pos habs, components_slash]
  exact loop_resolve flags hd rfl
    (by simp only [List.length_cons, List.drop_one, List.tail_cons]; omega)

end loop

/-! ### Exact steps -/

/-- At every component the first name that begins with it stands for the inode that the
component names, and lookup reads no list where there is none. -/
def StepsExact (fs : Fs) : List NameEntry → Nat → List CString → Prop
  | _, _, [] => True
  | cache, cur, c :: cs => firstMatch fs cache cur c = some (exactEntry fs cur c) ∧
      match exactEntry fs cur c with
      | some j => StepsExact fs (remember fs cache cur c j) j cs
      | none => True

section exactness
variable {fs : Fs} {cache : List NameEntry} {par cur j : Nat} {c : CString} {comps : List CString}

theorem exactEntry_isDir (h : exactEntry fs cur c = some j) : fs.isDir cur = true := by
  by_contra hno
  simp [exactEntry, hno] at h

theorem Fs.Sound.exactEntry_lt (hs : fs.Sound) (h : exactEntry fs cur c = some j) : j < fs.next := by
  rw [exactEntry, if_pos (exactEntry_isDir h), Option.map_eq_some_iff] at h
  obtain ⟨e, he, rfl⟩ := h
  cases hl : fs.dirEntries cur with
  | none => simp [hl] at he
  | some entries =>
      rw [hl, Option.getD_some] at he
      exact hs.targets cur entries hl e (List.mem_of_find?_eq_some he)

/-- A step without a fault is taken in a directory. -/
theorem Fs.Sound.isDir_of_match (hs : fs.Sound) (hcur : cur < fs.next)
    (h : firstMatch fs cache cur c = some (exactEntry fs cur c)) : fs.isDir cur = true := by
  cases hx : exactEntry fs cur c with
  | some j => exact exactEntry_isDir hx
  | none =>
      rw [hx, firstMatch] at h
      split at h
      · simp at h
      · rw [hs.dirs cur hcur]
        cases hl : fs.dirEntries cur with
        | none => simp [ramfsInoLookup, hl] at h
        | some entries => rfl

theorem answers_of_exact (hs : fs.Sound) (hcur : cur < fs.next)
    (h : StepsExact fs cache cur comps) :
    Answers (exactWalk fs cur comps) ((resolve fs cache par cur comps).map (Resolved.answer 0)) := by
  induction comps generalizing cache par cur with
  | nil => rfl
  | cons c cs ih =>
      obtain ⟨hmatch, hrest⟩ := h
      simp only [resolve, exactWalk, hmatch]
      cases hx : exactEntry fs cur c with
      | some j =>
          simp only [hx] at hrest
          exact ih (hs.exactEntry_lt hx) hrest
      | none => exact ⟨-enoent, by decide, by simp [Resolved.answer]⟩

theorem parent_answers_of_exact (hs : fs.Sound) (hcur : cur < fs.next)
    (h : StepsExact fs cache cur comps) :
    Answers (parentFrom fs par cur comps)
      ((resolve fs cache par cur comps).map (Resolved.answer lookupParent)) := by
  induction comps generalizing cache par cur with
  | nil => rfl
  | cons c cs ih =>
      obtain ⟨hmatch, hrest⟩ := h
      have hdir := hs.isDir_of_match hcur hmatch
      simp only [resolve, hmatch]
      cases hx : exactEntry fs cur c with
      | some j =>
          simp only [hx] at hrest
          have hpar : parentFrom fs par cur (c :: cs) = parentFrom fs cur j cs := by
            cases cs with
            | nil => simp [parentFrom, exactWalk, hdir]
            | cons d ds => simp [parentFrom, exactWalk, hx]
          rw [hpar]
          exact ih (hs.exactEntry_lt hx) hrest
      | none =>
          cases cs with
          | nil =>
              have hpar : parentFrom fs par cur [c] = some cur := by simp [parentFrom, exactWalk, hdir]
              rw [hpar]
              simp [Answers, Resolved.answer, lookupParent]
          | cons d ds =>
              have hpar : parentFrom fs par cur (c :: d :: ds) = none := by
                simp [parentFrom, exactWalk, hx]
              rw [hpar]
              exact ⟨-enoent, by decide, by simp [Resolved.answer]⟩

/-- If every leading part of the path is resolved, every step is exact. -/
theorem exact_of_answers (par : Nat)
    (h : ∀ comps', comps' <+: comps →
      Answers (exactWalk fs cur comps') ((resolve fs cache par cur comps').map (Resolved.answer 0))) :
    StepsExact fs cache cur comps := by
  induction comps generalizing cache par cur with
  | nil => trivial
  | cons c cs ih =>
      have hfirst := h [c] (by simp)
      have hmatch : firstMatch fs cache cur c = some (exactEntry fs cur c) := by
        cases hm : firstMatch fs cache cur c with
        | none => cases hx : exactEntry fs cur c <;> simp [resolve, hm, exactWalk, hx, Answers] at hfirst
        | some found =>
            cases found with
            | none =>
                cases hx : exactEntry fs cur c with
                | none => rfl
                | some j => simp [resolve, hm, exactWalk, hx, Answers, Resolved.answer] at hfirst
            | some i =>
                cases hx : exactEntry fs cur c with
                | none => simp [resolve, hm, exactWalk, hx, Answers, Resolved.answer] at hfirst
                | some j => simpa [resolve, hm, exactWalk, hx, Answers, Resolved.answer] using hfirst
      refine ⟨hmatch, ?_⟩
      cases hx : exactEntry fs cur c with
      | none => trivial
      | some j =>
          have hnext : ∀ comps', comps' <+: cs → Answers (exactWalk fs j comps')
              ((resolve fs (remember fs cache cur c j) cur j comps').map (Resolved.answer 0)) := by
            intro comps' hpre
            have hlonger := h (c :: comps') (List.cons_prefix_cons.mpr ⟨rfl, hpre⟩)
            simpa only [resolve, hmatch, hx, exactWalk, Option.bind_some] using hlonger
          exact ih cur hnext

theorem StepsExact.of_prefix {comps' : List CString} (h : StepsExact fs cache cur comps)
    (hpre : comps' <+: comps) : StepsExact fs cache cur comps' := by
  induction comps' generalizing cache cur comps with
  | nil => trivial
  | cons c cs ih =>
      obtain ⟨rest, rfl⟩ := hpre
      obtain ⟨hmatch, hnext⟩ := h
      refine ⟨hmatch, ?_⟩
      cases hx : exactEntry fs cur c with
      | none => trivial
      | some j =>
          simp only [hx] at hnext
          exact ih hnext (List.prefix_append cs rest)

/-- In every tree and for every path: the path and all its leading parts are resolved by name
exactly when each step of the lookup is exact. -/
theorem lookup_resolves_iff {memory : Nat → Inode} {calls : List TreeCall}
    (hfs : run Fs.treeStep (ramfsReadSb memory) calls = some fs) (path : CString) :
    (∀ path', path'.head? = some slash → components path' <+: components path → Resolves fs path') ↔
      StepsExact fs [] fs.root (components path) := by
  have hs := run_sound hfs
  constructor
  · intro hall
    refine exact_of_answers fs.root fun comps hpre => ?_
    obtain ⟨path', habs, rfl⟩ := exists_path fun c hc => mem_components (hpre.subset hc)
    have hanswer := (hall path' habs hpre).1
    rwa [vfsLookup_resolve fs habs, hs.cache_nil] at hanswer
  · intro hexact path' habs hpre
    have hexact' := hexact.of_prefix hpre
    rw [Resolves, vfsLookup_resolve fs habs, vfsLookup_resolve fs habs, hs.cache_nil]
    exact ⟨answers_of_exact hs hs.root_lt hexact', parent_answers_of_exact hs hs.root_lt hexact'⟩

end exactness

/-! ### Two small trees -/

instance StepsExact.decidable (fs : Fs) : ∀ (cache : List NameEntry) (cur : Nat)
    (comps : List CString), Decidable (StepsExact fs cache cur comps)
  | _, _, [] => isTrue trivial
  | cache, cur, c :: cs => by
      unfold StepsExact
      cases exactEntry fs cur c with
      | none => exact inferInstanceAs (Decidable (firstMatch fs cache cur c = some none ∧ True))
      | some j =>
          have := StepsExact.decidable fs (remember fs cache cur c j) j cs
          exact inferInstanceAs (Decidable (firstMatch fs cache cur c = some (some j) ∧
            StepsExact fs (remember fs cache cur c j) j cs))

/-- The path `/ab//c/` in that tree. -/
theorem lookup_resolves_iff_nested :
    ∃ fs, run Fs.treeStep (ramfsReadSb fun _ => blankInode) nestedTree = some fs ∧
      Resolves fs (cstring [47, 97, 98, 47, 47, 99, 47]) := by
  obtain ⟨fs, hfs⟩ := Option.isSome_iff_exists.mp (show (run Fs.treeStep
    (ramfsReadSb fun _ => blankInode) nestedTree).isSome = true by decide +kernel)
  have hexact : (run Fs.treeStep (ramfsReadSb fun _ => blankInode) nestedTree).all (fun fs =>
      decide (StepsExact fs [] fs.root (components (cstring [47, 97, 98, 47, 47, 99, 47])))) = true := by
    decide +kernel
  rw [hfs] at hexact
  refine ⟨fs, hfs, (lookup_resolves_iff hfs _).mpr (of_decide_eq_true hexact) _ ?_ (List.prefix_refl _)⟩
  decide

/-- A single file `abc`. -/
def singleFile : List TreeCall := [.create 0 (cstring [97, 98, 99]) 0]

/-- The path `/ab` finds it. -/
theorem lookup_finds_longer_name :
    ¬ ∀ (memory : Nat → Inode) (calls : List TreeCall) (fs : Fs) (path : CString),
      run Fs.treeStep (ramfsReadSb memory) calls = some fs → path.head? = some slash →
        Resolves fs path := by
  intro hall
  obtain ⟨fs, hfs⟩ := Option.isSome_iff_exists.mp (show (run Fs.treeStep
    (ramfsReadSb fun _ => blankInode) singleFile).isSome = true by decide +kernel)
  have hbad : (run Fs.treeStep (ramfsReadSb fun _ => blankInode) singleFile).all (fun fs =>
      decide (exactWalk fs fs.root (components (cstring [47, 97, 98])) = none ∧
        (vfsLookup fs (cstring [47, 97, 98]) 0).map LookupResult.answer = some (0, some 1))) = true := by
    decide +kernel
  rw [hfs] at hbad
  obtain ⟨hnone, hfound⟩ := of_decide_eq_true hbad
  have hanswer := (hall _ singleFile fs (cstring [47, 97, 98]) hfs (by decide)).1
  rw [hnone, hfound] at hanswer
  obtain ⟨code, hneg, hcode⟩ := hanswer
  simp only [Option.some.injEq, Prod.mk.injEq, reduceCtorEq, and_false] at hcode

end Lucix.Ramfs
