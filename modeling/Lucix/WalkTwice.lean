import Lucix.LookupRefs

/-! What `vfs_lookup` leaves behind: counters, and in the name cache the names that it
found in directories. After a walk of exact steps every name on the way is in the
cache, and as long as the newer names there do not hide it a second walk goes the
same way in any tree. -/
namespace Lucix.Ramfs

/-- The name cache after the loop of `vfs_lookup` on these components. -/
def cacheAfter (fs : Fs) : List NameEntry → Nat → List CString → List NameEntry
  | cache, _, [] => cache
  | cache, cur, c :: cs =>
      match firstMatch fs cache cur c with
      | some (some j) => cacheAfter fs (remember fs cache cur c j) j cs
      | _ => cache

/-- A name of the cache begins with the component. -/
def Hit (fs : Fs) (cache : List NameEntry) (dir : Nat) (name : CString) : Prop :=
  (fsNameCacheFastLookup { fs with nameCacheList := cache } dir name).isSome = true

/-- Every component that is found along the exact walk is a hit. -/
def AllHits (fs : Fs) (cache : List NameEntry) : Nat → List CString → Prop
  | _, [] => True
  | cur, c :: cs => ∀ j, exactEntry fs cur c = some j → Hit fs cache cur c ∧ AllHits fs cache j cs

section walks
variable {fs fs' fs'' : Fs} {cache : List NameEntry} {dir par cur j flags fuel : Nat}
  {c name path : CString} {comps front : List CString} {r : LookupResult}

theorem Fs.RefsOnly.trans (h : fs.RefsOnly fs') (h' : fs'.RefsOnly fs'') : fs.RefsOnly fs'' where
  inodes i := by rw [h'.inodes i, h.inodes i]
  dirEntries := h'.dirEntries.trans h.dirEntries
  next := h'.next.trans h.next
  inoCounter := h'.inoCounter.trans h.inoCounter
  root := h'.root.trans h.root

theorem Fs.RefsOnly.inoRef (h : fs.RefsOnly fs') (i : Nat) : fs.RefsOnly (fs'.inoRef i) :=
  h.setRefcnt i _

theorem Fs.RefsOnly.inoDeref (h : fs.RefsOnly fs') (i : Nat) : fs.RefsOnly (fs'.inoDeref i) :=
  h.setRefcnt i _

theorem Fs.RefsOnly.inoDeref? (h : fs.RefsOnly fs') (o : Option Nat) : fs.RefsOnly (fs'.inoDeref? o) := by
  cases o with
  | none => exact h
  | some i => exact h.inoDeref i

theorem inoDeref?_cache (fs : Fs) (o : Option Nat) :
    (fs.inoDeref? o).nameCacheList = fs.nameCacheList := by
  cases o <;> rfl

theorem lookupComponent_refs {found : Option Nat} (h : fs.RefsOnly fs')
    (hcall : lookupComponent fs' cur c = some (found, fs'')) : fs.RefsOnly fs'' := by
  unfold lookupComponent at hcall
  split at hcall
  next ino _ =>
      simp only [Option.some.injEq, Prod.mk.injEq] at hcall
      obtain ⟨-, rfl⟩ := hcall
      exact h.inoRef ino
  next =>
      obtain ⟨hit, -, hcall⟩ := Option.map_eq_some_iff.mp hcall
      cases hit with
      | none =>
          obtain ⟨-, rfl⟩ := Prod.mk.inj hcall
          exact h
      | some ino =>
          obtain ⟨-, rfl⟩ := Prod.mk.inj hcall
          have href := ((h.inoRef ino).inoRef ino).inoRef cur
          exact ⟨href.inodes, href.dirEntries, href.next, href.inoCounter, href.root⟩

theorem loop_missing_leaves {parent : Option Nat} (h : fs.RefsOnly fs')
    (hr : vfsLookupLoop flags fuel fs' ⟨path, parent, none, -enoent⟩ = some r) :
    fs.RefsOnly r.fs ∧ r.fs.nameCacheList = fs'.nameCacheList := by
  cases fuel with
  | zero => simp [vfsLookupLoop] at hr
  | succ fuel =>
      unfold vfsLookupLoop at hr
      dsimp only at hr
      split_ifs at hr with hend hflag hmiss
      · obtain rfl := Option.some.inj hr
        exact ⟨h, rfl⟩
      · obtain rfl := Option.some.inj hr
        exact ⟨h.inoDeref? parent, inoDeref?_cache fs' parent⟩
      · obtain rfl := Option.some.inj hr
        exact ⟨h.inoDeref? parent, inoDeref?_cache fs' parent⟩
      · simp at hr

/-- The loop changes counters, and adds to the name cache what the walk finds in directories. -/
theorem loop_leaves (h : fs.RefsOnly fs') (hcomps : components path = comps)
    (hr : vfsLookupLoop flags fuel fs' ⟨path, some par, some cur, 0⟩ = some r) :
    fs.RefsOnly r.fs ∧ r.fs.nameCacheList = cacheAfter fs fs'.nameCacheList cur comps := by
  induction fuel generalizing fs' par cur path comps with
  | zero => simp [vfsLookupLoop] at hr
  | succ fuel ih =>
      unfold vfsLookupLoop at hr
      dsimp only at hr
      rcases components_step path with ⟨hnil, hempty⟩ | ⟨hne, hcons⟩
      · rw [hempty] at hcomps
        subst hcomps
        rw [if_pos hnil] at hr
        split_ifs at hr with hflag
        · obtain rfl := Option.some.inj hr
          exact ⟨h.inoDeref? (some cur), rfl⟩
        · obtain rfl := Option.some.inj hr
          exact ⟨h.inoDeref? (some par), rfl⟩
      · rw [hcons] at hcomps
        subst hcomps
        rw [if_neg hne, if_neg (by simp)] at hr
        have hstep := lookupComponent_eq h.dirEntries cur
          (getNextComponent (path.dropWhile fun b => decide (b = slash)))
        unfold cacheAfter
        cases hmatch : firstMatch fs fs'.nameCacheList cur
            (getNextComponent (path.dropWhile fun b => decide (b = slash))) with
        | none =>
            rw [hmatch] at hstep
            simp [hstep] at hr
        | some found =>
            rw [hmatch] at hstep
            cases found with
            | none =>
                simp only [hstep, Option.bind_eq_bind, Option.bind_some, if_true] at hr
                have hleft := loop_missing_leaves (h.inoDeref par) hr
                exact hleft
            | some j =>
                obtain ⟨fs'', hcall, -, hcache⟩ := hstep
                simp only [hcall, Option.bind_eq_bind, Option.bind_some, reduceCtorEq, if_false] at hr
                have hleft := ih ((lookupComponent_refs h hcall).inoDeref par) rfl hr
                dsimp only
                rw [← hcache]
                exact hleft

theorem vfsLookup_leaves (hr : vfsLookup fs path flags = some r) :
    fs.RefsOnly r.fs ∧
      r.fs.nameCacheList = cacheAfter fs fs.nameCacheList fs.root (components path) := by
  unfold vfsLookup at hr
  split_ifs at hr with habs
  obtain ⟨p, rfl⟩ := List.head?_eq_some_iff.mp habs
  rw [components_slash]
  have hleft := loop_leaves (((Fs.RefsOnly.refl fs).inoRef fs.root).inoRef fs.root) rfl hr
  exact hleft

/-! ### Walking twice -/

theorem remember_of_hit (h : Hit fs cache cur c) : remember fs cache cur c j = cache := if_pos h

theorem hit_remember (fs : Fs) (cache : List NameEntry) (cur : Nat) (c : CString) (j : Nat) :
    Hit fs (remember fs cache cur c j) cur c := by
  by_cases hhit : Hit fs cache cur c
  · rwa [remember_of_hit hhit]
  · have hnew : remember fs cache cur c j = ⟨cur, c, j⟩ :: cache := if_neg hhit
    simp [hnew, Hit, fsNameCacheFastLookup, sameBytes]

theorem Hit.remember (h : Hit fs cache dir name) : Hit fs (remember fs cache cur c j) dir name := by
  unfold Ramfs.remember
  split
  · exact h
  · simp only [Hit, fsNameCacheFastLookup, Option.isSome_map, List.find?_isSome] at h ⊢
    obtain ⟨e, he, hmatch⟩ := h
    exact ⟨e, List.mem_cons_of_mem _ he, hmatch⟩

theorem Hit.cacheAfter (h : Hit fs cache dir name) :
    Hit fs (cacheAfter fs cache cur comps) dir name := by
  induction comps generalizing cache cur with
  | nil => exact h
  | cons c cs ih =>
      unfold Ramfs.cacheAfter
      split
      · exact ih h.remember
      · exact h

/-- After an exact walk everything it found is in the cache. -/
theorem allHits_cacheAfter (h : StepsExact fs cache cur comps) :
    AllHits fs (cacheAfter fs cache cur comps) cur comps := by
  induction comps generalizing cache cur with
  | nil => trivial
  | cons c cs ih =>
      obtain ⟨hmatch, hrest⟩ := h
      intro j hj
      rw [hj] at hmatch hrest
      have hafter : cacheAfter fs cache cur (c :: cs) =
          cacheAfter fs (remember fs cache cur c j) j cs := by
        simp only [cacheAfter, hmatch]
      rw [hafter]
      exact ⟨(hit_remember fs cache cur c j).cacheAfter, ih hrest⟩

theorem AllHits.cacheAfter_eq (h : AllHits fs cache cur comps) (hexact : StepsExact fs cache cur comps) :
    cacheAfter fs cache cur comps = cache := by
  induction comps generalizing cur with
  | nil => rfl
  | cons c cs ih =>
      obtain ⟨hmatch, hrest⟩ := hexact
      unfold cacheAfter
      rw [hmatch]
      cases hj : exactEntry fs cur c with
      | none => rfl
      | some j =>
          obtain ⟨hhit, hhits⟩ := h j hj
          rw [hj] at hrest
          dsimp only at hrest ⊢
          rw [remember_of_hit hhit] at hrest ⊢
          exact ih hhits hrest

theorem resolve_of_exact (par : Nat) (h : StepsExact fs cache cur (front ++ [c])) :
    match exactWalk fs cur front with
    | some d => firstMatch fs (cacheAfter fs cache cur front) d c = some (exactEntry fs d c) ∧
        (exactEntry fs d c = none → resolve fs cache par cur (front ++ [c]) = some (.missing d true))
    | none => ∃ d, resolve fs cache par cur (front ++ [c]) = some (.missing d false) := by
  induction front generalizing cache par cur with
  | nil =>
      obtain ⟨hmatch, -⟩ := h
      refine ⟨hmatch, fun hnone => ?_⟩
      simp [resolve, hmatch, hnone]
  | cons b bs ih =>
      obtain ⟨hmatch, hrest⟩ := h
      simp only [List.cons_append, exactWalk, resolve, cacheAfter, hmatch]
      cases hj : exactEntry fs cur b with
      | none => exact ⟨cur, by simp⟩
      | some j =>
          rw [hj] at hrest
          exact ih cur hrest

/-- A walk of hits to `dir` goes the same way in every tree, and finds the newest entry there
if it has the name of the last component. -/
theorem AllHits.resolve_new (par : Nat) {entries : List DirEntry} {n : Nat}
    (h : AllHits fs cache cur (front ++ [c])) (hexact : StepsExact fs cache cur (front ++ [c]))
    (hdir : exactWalk fs cur front = some dir) (hnone : exactEntry fs dir c = none)
    (hnew : fs'.dirEntries dir = some (⟨c, n⟩ :: entries)) :
    resolve fs' cache par cur (front ++ [c]) = some (.found dir n) := by
  induction front generalizing par cur with
  | nil =>
      obtain rfl := Option.some.inj hdir
      obtain ⟨hmatch, -⟩ := hexact
      have hmiss : fsNameCacheFastLookup { fs with nameCacheList := cache } cur c = none := by
        rw [hnone, firstMatch] at hmatch
        split at hmatch
        · simp at hmatch
        · assumption
      have hfound : firstMatch fs' cache cur c = some (some n) := by
        rw [firstMatch, show fsNameCacheFastLookup { fs' with nameCacheList := cache } cur c = none
          from hmiss]
        simp [ramfsInoLookup, hnew, sameBytes]
      simp [resolve, hfound]
  | cons b bs ih =>
      obtain ⟨hmatch, hrest⟩ := hexact
      cases hj : exactEntry fs cur b with
      | none => simp [exactWalk, hj] at hdir
      | some j =>
          obtain ⟨hhit, hhits⟩ := h j hj
          simp only [exactWalk, hj, Option.bind_some] at hdir
          rw [hj] at hmatch hrest
          dsimp only at hrest
          rw [remember_of_hit hhit] at hrest
          have hsame : firstMatch fs' cache cur b = some (some j) := by
            obtain ⟨i, hi⟩ := Option.isSome_iff_exists.mp hhit
            rw [firstMatch, hi] at hmatch
            rw [firstMatch, show fsNameCacheFastLookup { fs' with nameCacheList := cache } cur b = some i
              from hi]
            exact hmatch
          have hkeep : remember fs' cache cur b j = cache := remember_of_hit hhit
          simp only [List.cons_append, resolve, hsame, hkeep]
          exact ih cur hhits hrest hdir

end walks
end Lucix.Ramfs
