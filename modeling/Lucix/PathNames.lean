import Lucix.NameCache

/-! The ramfs with paths for inodes: the tree is the list of the paths in the order
in which they were made, and the name cache maps names in a directory to paths. A
tree and a cache that show such a table are walked as the table says, by the first
name that begins with a component. -/
namespace Lucix.Ramfs
open FileIo (Inode)

abbrev Path := List CString

/-- A name that can stand in a directory beside `.` and `..`. -/
structure Plain (c : CString) : Prop where
  ne_nil : c ≠ []
  no_slash : slash ∉ c
  not_dot : isDotName c = false

theorem Plain.not_prefix_dots {c : CString} (hc : Plain c) :
    sameBytes [dot] c = false ∧ sameBytes [dot, dot] c = false := by
  have hone : c ≠ [dot] := by
    rintro rfl
    exact absurd hc.not_dot (by decide)
  have htwo : c ≠ [dot, dot] := by
    rintro rfl
    exact absurd hc.not_dot (by decide)
  simp only [sameBytes, ← Bool.not_eq_true, List.isPrefixOf_iff_prefix, List.prefix_cons_iff, hc.ne_nil]
  refine ⟨?_, ?_⟩
  · rintro (h | ⟨t, rfl, h | ⟨_, _, h⟩⟩) <;> simp_all
  · rintro (h | ⟨t, rfl, h | ⟨u, rfl, h | h⟩⟩) <;> simp_all

structure Node where
  dir : Path
  name : CString
  isDir : Bool
  deriving DecidableEq

def Node.path (x : Node) : Path := x.dir ++ [x.name]

structure Remembered where
  dir : Path
  name : CString
  found : Path
  deriving DecidableEq

/-- `nodes` is in the order of creation and `remembered` has the newest name first. -/
structure Names where
  nodes : List Node
  remembered : List Remembered

namespace Names

def paths (N : Names) : List Path := [] :: N.nodes.map Node.path

/-- Inodes are counted in the order of their creation, from the root. -/
def inode (N : Names) (p : Path) : Nat := N.paths.idxOf p

def isDirectory (N : Names) (p : Path) : Bool :=
  decide (p = []) || N.nodes.any fun x => decide (x.path = p) && x.isDir

/-- The first remembered name in the directory that begins with the component. -/
def known (N : Names) (p : Path) (c : CString) : Option Path :=
  (N.remembered.find? fun e => decide (e.dir = p) && sameBytes e.name c).map Remembered.found

/-- The newest name in the directory that begins with the component. -/
def newest (N : Names) (p : Path) (c : CString) : Option Path :=
  (N.nodes.reverse.find? fun x => decide (x.dir = p) && sameBytes x.name c).map Node.path

def look (N : Names) (p : Path) (c : CString) : Option (Option Path) :=
  match N.known p c with
  | some q => some (some q)
  | none => if N.isDirectory p then some (N.newest p c) else none

def remember (N : Names) (p : Path) (c : CString) (q : Path) : Names :=
  { N with remembered := if (N.known p c).isSome then N.remembered else ⟨p, c, q⟩ :: N.remembered }

def add (N : Names) (x : Node) : Names := { N with nodes := N.nodes ++ [x] }

end Names

inductive Walked where
  | found (parent current : Path)
  | missing (dir : Path) (last : Bool)
  deriving DecidableEq

/-- The loop of `vfs_lookup` from a directory `cur` with parent `par`. -/
def Names.walk : Names → Path → Path → List CString → Option (Names × Walked)
  | N, par, cur, [] => some (N, .found par cur)
  | N, _, cur, c :: cs =>
      match N.look cur c with
      | none => none
      | some none => some (N, .missing cur (decide (cs = [])))
      | some (some q) => (N.remember cur c q).walk cur q cs

/-- Where the walk looked for the last component. -/
def Walked.parent : Walked → Option Path
  | .found par _ => some par
  | .missing dir last => if last then some dir else none

def Walked.answer (N : Names) (flags : Nat) : Walked → Int × Option Nat
  | .found par cur => (0, some (N.inode (if flags &&& lookupParent ≠ 0 then par else cur)))
  | .missing dir last =>
      if last ∧ flags &&& lookupParent ≠ 0 then (0, some (N.inode dir)) else (-enoent, none)

namespace Names

/-- Paths are different, they lie in directories, and what is remembered for a name is a path
whose name begins with it. -/
structure Sound (N : Names) : Prop where
  nodup : N.paths.Nodup
  parents : ∀ x ∈ N.nodes, N.isDirectory x.dir = true
  plain : ∀ x ∈ N.nodes, Plain x.name
  recalled : ∀ e ∈ N.remembered, ∃ x ∈ N.nodes, x.dir = e.dir ∧ e.name <+: x.name ∧ e.found = x.path

/-- The entries of a directory. -/
def entries (N : Names) (p : Path) : List DirEntry :=
  ((N.nodes.reverse.filter fun x => decide (x.dir = p)).map fun x => ⟨x.name, N.inode x.path⟩) ++
    [⟨[dot], N.inode p⟩, ⟨[dot, dot], N.inode p.dropLast⟩]

/-- The tree and the cache are those of the table. -/
structure Shows (N : Names) (fs : Fs) : Prop where
  root_eq : fs.root = 0
  next_eq : fs.next = N.paths.length
  lists : ∀ p ∈ N.paths,
    fs.dirEntries (N.inode p) = if N.isDirectory p then some (N.entries p) else none
  types : ∀ p ∈ N.paths,
    inoType (fs.inodes (N.inode p)) = if N.isDirectory p then sIfdir else sIfreg
  cache_eq : fs.nameCacheList =
    N.remembered.map fun e => ⟨N.inode e.dir, e.name, N.inode e.found⟩

section tables
variable {N : Names} {p q : Path} {c : CString} {x : Node}

@[simp] theorem nil_mem_paths : [] ∈ N.paths := List.mem_cons_self

theorem path_mem (hx : x ∈ N.nodes) : x.path ∈ N.paths :=
  List.mem_cons_of_mem _ (List.mem_map_of_mem hx)

theorem mem_paths_iff : p ∈ N.paths ↔ p = [] ∨ ∃ x ∈ N.nodes, x.path = p := by
  simp [paths]

theorem isDirectory_mem (h : N.isDirectory p = true) : p ∈ N.paths := by
  simp only [isDirectory, Bool.or_eq_true, decide_eq_true_eq, List.any_eq_true, Bool.and_eq_true] at h
  rcases h with rfl | ⟨x, hx, rfl, -⟩
  · exact nil_mem_paths
  · exact path_mem hx

theorem inode_inj (hp : p ∈ N.paths) : N.inode p = N.inode q ↔ p = q := List.idxOf_inj hp

theorem inode_lt (hp : p ∈ N.paths) : N.inode p < N.paths.length := List.idxOf_lt_length_of_mem hp

@[simp] theorem inode_nil : N.inode [] = 0 := List.idxOf_cons_self

theorem Sound.dir_mem (h : N.Sound) (hx : x ∈ N.nodes) : x.dir ∈ N.paths :=
  isDirectory_mem (h.parents x hx)

theorem Sound.dropLast_mem (h : N.Sound) (hp : p ∈ N.paths) : p.dropLast ∈ N.paths := by
  rcases mem_paths_iff.mp hp with rfl | ⟨x, hx, rfl⟩
  · exact hp
  · rw [Node.path, List.dropLast_concat]
    exact h.dir_mem hx

theorem newest_eq_find (N : Names) (p : Path) (hc : Plain c) :
    ((N.entries p).find? fun e => sameBytes e.name c).map DirEntry.i = (N.newest p c).map N.inode := by
  obtain ⟨hdot, hdots⟩ := hc.not_prefix_dots
  simp only [entries, newest, List.find?_append, List.find?_map, List.find?_filter, List.find?_cons,
    hdot, hdots, List.find?_nil, Option.or_none, Option.map_map, Bool.decide_and, Bool.decide_eq_true]
  rfl

theorem fastLookup_shows (hN : N.Sound) {fs : Fs} (h : N.Shows fs) (p : Path) (c : CString) :
    fsNameCacheFastLookup fs (N.inode p) c = (N.known p c).map N.inode := by
  have hsame : ∀ e ∈ N.remembered, (decide (N.inode e.dir = N.inode p) && sameBytes e.name c) =
      (decide (e.dir = p) && sameBytes e.name c) := by
    intro e he
    obtain ⟨x, hx, hdir, -⟩ := hN.recalled e he
    have hmem : e.dir ∈ N.paths := hdir ▸ hN.dir_mem hx
    rw [decide_eq_decide.mpr (inode_inj hmem)]
  simp only [fsNameCacheFastLookup, known, h.cache_eq, List.find?_map, Option.map_map]
  rw [← List.find?_congr hsame]
  rfl

theorem inoLookup_shows {fs : Fs} (h : N.Shows fs) (hp : p ∈ N.paths) (hc : Plain c) :
    ramfsInoLookup fs (N.inode p) c =
      if N.isDirectory p then some ((N.newest p c).map N.inode) else none := by
  rw [ramfsInoLookup, h.lists p hp]
  split_ifs with hdir
  · rw [Option.map_some, newest_eq_find N p hc]
  · rfl

/-- What is found under a component is a path of the directory whose name begins with it. -/
theorem Sound.look_some (hN : N.Sound) (h : N.look p c = some (some q)) :
    ∃ x ∈ N.nodes, x.dir = p ∧ c <+: x.name ∧ q = x.path := by
  unfold look at h
  cases hknown : N.known p c with
  | some r =>
      rw [hknown] at h
      obtain ⟨e, he, rfl⟩ := Option.map_eq_some_iff.mp hknown
      have hmatch := List.find?_some he
      simp only [Bool.and_eq_true, decide_eq_true_eq, sameBytes, List.isPrefixOf_iff_prefix] at hmatch
      obtain ⟨x, hx, hdir, hpre, hfound⟩ := hN.recalled e (List.mem_of_find?_eq_some he)
      refine ⟨x, hx, hdir.trans hmatch.1, hmatch.2.trans hpre, ?_⟩
      simp only [Option.some.injEq] at h
      rw [← h, hfound]
  | none =>
      rw [hknown] at h
      simp only at h
      split_ifs at h
      obtain ⟨x, hx, rfl⟩ := Option.map_eq_some_iff.mp (Option.some.inj h)
      have hmatch := List.find?_some hx
      simp only [Bool.and_eq_true, decide_eq_true_eq, sameBytes, List.isPrefixOf_iff_prefix] at hmatch
      exact ⟨x, List.mem_reverse.mp (List.mem_of_find?_eq_some hx), hmatch.1, hmatch.2, rfl⟩

theorem Sound.look_mem (hN : N.Sound) (h : N.look p c = some (some q)) : q ∈ N.paths := by
  obtain ⟨x, hx, -, -, rfl⟩ := hN.look_some h
  exact path_mem hx

/-- A component is looked up in directories only. -/
theorem Sound.look_isDirectory (hN : N.Sound) {o : Option Path} (h : N.look p c = some o) :
    N.isDirectory p = true := by
  cases o with
  | some q =>
      obtain ⟨x, hx, rfl, -⟩ := hN.look_some h
      exact hN.parents x hx
  | none =>
      unfold look at h
      split at h
      · simp at h
      · split_ifs at h with hdir
        exact hdir

theorem Sound.remember (hN : N.Sound) (h : N.look p c = some (some q)) : (N.remember p c q).Sound := by
  refine ⟨hN.nodup, hN.parents, hN.plain, fun e he => ?_⟩
  simp only [Names.remember] at he
  split_ifs at he
  · exact hN.recalled e he
  · rcases List.mem_cons.mp he with rfl | he
    · obtain ⟨x, hx, hdir, hpre, hq⟩ := hN.look_some h
      exact ⟨x, hx, hdir, hpre, hq⟩
    · exact hN.recalled e he

end tables
end Names

/-! ### Counting references -/

/-- The same inodes but for their counters. -/
def Fs.SameFiles (fs fs' : Fs) : Prop := ∀ i, ∃ k, fs'.inodes i = { fs.inodes i with refcnt := k }

section counts
variable {fs fs' fs'' : Fs} {N : Names} {i : Nat}

theorem Fs.SameFiles.refl (fs : Fs) : fs.SameFiles fs := fun i => ⟨(fs.inodes i).refcnt, rfl⟩

theorem Fs.SameFiles.trans (h : fs.SameFiles fs') (h' : fs'.SameFiles fs'') : fs.SameFiles fs'' := by
  intro i
  obtain ⟨k, hk⟩ := h i
  obtain ⟨l, hl⟩ := h' i
  exact ⟨l, by rw [hl, hk]⟩

theorem Fs.SameFiles.setCount (fs : Fs) (i k : Nat) :
    fs.SameFiles (fs.setInode i { fs.inodes i with refcnt := k }) := by
  intro j
  by_cases hj : j = i
  · subst hj
    exact ⟨k, by simp [Fs.setInode]⟩
  · exact ⟨(fs.inodes j).refcnt, by simp [Fs.setInode, hj]⟩

theorem Fs.SameFiles.inoRef (fs : Fs) (i : Nat) : fs.SameFiles (fs.inoRef i) := .setCount fs i _

theorem Fs.SameFiles.inoDeref (fs : Fs) (i : Nat) : fs.SameFiles (fs.inoDeref i) := .setCount fs i _

theorem Fs.SameFiles.inoDeref? (fs : Fs) (o : Option Nat) : fs.SameFiles (fs.inoDeref? o) := by
  cases o with
  | none => exact .refl fs
  | some i => exact .inoDeref fs i

theorem Fs.SameFiles.inoType_eq (h : fs.SameFiles fs') (i : Nat) :
    inoType (fs'.inodes i) = inoType (fs.inodes i) := by
  obtain ⟨k, hk⟩ := h i
  rw [hk]
  rfl

theorem Names.Shows.of_same (h : N.Shows fs) (hsame : fs.SameFiles fs') (hroot : fs'.root = fs.root)
    (hnext : fs'.next = fs.next) (hlists : fs'.dirEntries = fs.dirEntries)
    (hcache : fs'.nameCacheList = fs.nameCacheList) : N.Shows fs' where
  root_eq := hroot.trans h.root_eq
  next_eq := hnext.trans h.next_eq
  lists p hp := by rw [hlists, h.lists p hp]
  types p hp := by rw [hsame.inoType_eq, h.types p hp]
  cache_eq := hcache.trans h.cache_eq

theorem Names.Shows.inoRef (h : N.Shows fs) (i : Nat) : N.Shows (fs.inoRef i) :=
  h.of_same (.inoRef fs i) rfl rfl rfl rfl

theorem Names.Shows.inoDeref (h : N.Shows fs) (i : Nat) : N.Shows (fs.inoDeref i) :=
  h.of_same (.inoDeref fs i) rfl rfl rfl rfl

theorem Names.Shows.inoDeref? (h : N.Shows fs) (o : Option Nat) : N.Shows (fs.inoDeref? o) := by
  cases o with
  | none => exact h
  | some i => exact h.inoDeref i

end counts

/-! ### Walking -/

section walking
variable {fs fs' : Fs} {N N' : Names} {p q par cur : Path} {c : CString} {flags fuel : Nat}

theorem lookupComponent_shows (hN : N.Sound) (h : N.Shows fs) (hp : p ∈ N.paths) (hc : Plain c) :
    match N.look p c with
    | none => lookupComponent fs (N.inode p) c = none
    | some none => lookupComponent fs (N.inode p) c = some (none, fs)
    | some (some q) => ∃ fs', lookupComponent fs (N.inode p) c = some (some (N.inode q), fs') ∧
        (N.remember p c q).Shows fs' ∧ fs.SameFiles fs' := by
  rw [lookupComponent, Names.fastLookup_shows hN h, Names.inoLookup_shows h hp hc, Names.look]
  cases hknown : N.known p c with
  | some q =>
      refine ⟨_, rfl, ?_, .inoRef fs _⟩
      have hkeep : N.remember p c q = N := by simp [Names.remember, hknown]
      rw [hkeep]
      exact h.inoRef _
  | none =>
      split_ifs with hdir
      · cases hnewest : N.newest p c with
        | none => simp
        | some q =>
            refine ⟨_, rfl, ?_, ?_⟩
            · have href : N.Shows (((fs.inoRef (N.inode q)).inoRef (N.inode q)).inoRef (N.inode p)) :=
                ((h.inoRef _).inoRef _).inoRef _
              refine { href with cache_eq := ?_ }
              have hnew : (N.remember p c q).remembered = ⟨p, c, q⟩ :: N.remembered := by
                simp [Names.remember, hknown]
              rw [hnew, List.map_cons]
              show _ :: fs.nameCacheList = _
              rw [h.cache_eq]
              rfl
            · exact ((Fs.SameFiles.inoRef fs _).trans (.inoRef _ _)).trans (.inoRef _ _)
      · rfl

/-- What the loop returns and leaves behind after this walk. -/
structure Walks (flags : Nat) (fs : Fs) (N N' : Names) (w : Walked) (r : LookupResult) : Prop where
  answer : r.answer = w.answer N flags
  shows' : N'.Shows r.fs
  same : fs.SameFiles r.fs

theorem loop_missing_shows (h : N.Shows fs) (flags fuel : Nat) (path : CString) (dir : Path) :
    ∃ r, vfsLookupLoop flags (fuel + 1) fs ⟨path, some (N.inode dir), none, -enoent⟩ = some r ∧
      Walks flags fs N N (.missing dir (decide (components path = []))) r := by
  have hcode : (-enoent : Int) ≠ 0 := by decide
  rcases components_step path with ⟨hnil, hcomps⟩ | ⟨hne, hcomps⟩
  · rw [vfsLookupLoop]
    simp only [hnil, if_true]
    split_ifs with hflag
    · exact ⟨_, rfl, by simp [hcomps, hflag, Walked.answer, LookupResult.answer], h, .refl fs⟩
    · exact ⟨_, rfl, by simp [hcomps, hflag, Walked.answer, LookupResult.answer],
        h.inoDeref? (some (N.inode dir)), .inoDeref? fs (some (N.inode dir))⟩
  · have hsome : components path ≠ [] := by simp [hcomps]
    rw [vfsLookupLoop]
    simp only [if_neg hne, if_pos hcode]
    exact ⟨_, rfl, by simp [hsome, Walked.answer, LookupResult.answer],
      (h.inoDeref? (some (N.inode dir))).inoDeref? none,
      (Fs.SameFiles.inoDeref? fs (some (N.inode dir))).trans (.inoDeref? _ none)⟩

/-- The loop walks the table. -/
theorem loop_shows (flags : Nat) (par : Path) {comps : List CString} {path : CString} (hN : N.Sound) (h : N.Shows fs)
    (hcur : cur ∈ N.paths) (hcomps : components path = comps) (hplain : ∀ c ∈ comps, Plain c)
    (hfuel : path.length < fuel) :
    match N.walk par cur comps with
    | none => vfsLookupLoop flags fuel fs ⟨path, some (N.inode par), some (N.inode cur), 0⟩ = none
    | some (N', w) =>
        ∃ r, vfsLookupLoop flags fuel fs ⟨path, some (N.inode par), some (N.inode cur), 0⟩ = some r ∧
          Walks flags fs N N' w r := by
  induction comps generalizing fuel par cur fs N path with
  | nil =>
      obtain ⟨k, rfl⟩ : ∃ k, fuel = k + 1 := ⟨fuel - 1, by omega⟩
      rcases components_step path with ⟨hnil, -⟩ | ⟨-, hcons⟩
      · rw [vfsLookupLoop]
        simp only [Names.walk, hnil, if_true]
        split_ifs with hflag
        · exact ⟨_, rfl, by simp [hflag, Walked.answer, LookupResult.answer],
            h.inoDeref? (some (N.inode cur)), .inoDeref? fs (some (N.inode cur))⟩
        · exact ⟨_, rfl, by simp [hflag, Walked.answer, LookupResult.answer],
            h.inoDeref? (some (N.inode par)), .inoDeref? fs (some (N.inode par))⟩
      · rw [hcomps] at hcons
        contradiction
  | cons c cs ih =>
      obtain ⟨k, rfl⟩ : ∃ k, fuel = k + 1 := ⟨fuel - 1, by omega⟩
      rcases components_step path with ⟨-, hnil⟩ | ⟨hne, hcons⟩
      · rw [hcomps] at hnil
        contradiction
      have hshort := length_rest path hne
      rw [hcomps] at hcons
      obtain ⟨rfl, rfl⟩ := List.cons.inj hcons
      have hstep := lookupComponent_shows hN h hcur (hplain _ List.mem_cons_self)
      have hbelow := fun c hc => hplain c (List.mem_cons_of_mem _ hc)
      rw [Names.walk, vfsLookupLoop]
      simp only [if_neg hne, ne_eq, not_true_eq_false, if_false, Option.bind_eq_bind, Option.bind_some]
      cases hlook : N.look cur (getNextComponent (path.dropWhile fun b => decide (b = slash))) with
      | none =>
          rw [hlook] at hstep
          simp only [hstep, Option.bind_none]
      | some found =>
          rw [hlook] at hstep
          cases found with
          | none =>
              obtain ⟨k, rfl⟩ : ∃ n, k = n + 1 := ⟨k - 1, by omega⟩
              obtain ⟨r, hr, hanswer, hshows, hsame⟩ := loop_missing_shows
                (h.inoDeref (N.inode par)) flags k ((path.dropWhile fun b => decide (b = slash)).drop
                  (getNextComponent (path.dropWhile fun b => decide (b = slash))).length) cur
              simp only [hstep, Option.bind_some, if_true]
              exact ⟨r, hr, hanswer, hshows, (Fs.SameFiles.inoDeref fs _).trans hsame⟩
          | some q =>
              obtain ⟨fs₁, hcall, hshows, hsame⟩ := hstep
              have hnext := @ih (fs₁.inoDeref (N.inode par)) _ q k cur _ (hN.remember hlook)
                (hshows.inoDeref (N.inode par)) (hN.look_mem hlook) rfl hbelow (by omega)
              simp only [hcall, Option.bind_some, reduceCtorEq, if_false]
              revert hnext
              cases (N.remember cur _ q).walk cur q _ with
              | none => exact id
              | some found =>
                  rintro ⟨r, hr, hanswer, hshows', hsame'⟩
                  exact ⟨r, hr, hanswer, hshows',
                    (hsame.trans (.inoDeref fs₁ (N.inode par))).trans hsame'⟩

theorem vfsLookup_shows (flags : Nat) {path : CString} (hN : N.Sound) (h : N.Shows fs)
    (habs : path.head? = some slash) (hplain : ∀ c ∈ components path, Plain c) :
    match N.walk [] [] (components path) with
    | none => vfsLookup fs path flags = none
    | some (N', w) => ∃ r, vfsLookup fs path flags = some r ∧ Walks flags fs N N' w r := by
  obtain ⟨p, rfl⟩ := List.head?_eq_some_iff.mp habs
  rw [components_slash] at hplain ⊢
  have hloop := loop_shows flags [] hN ((h.inoRef fs.root).inoRef fs.root)
    Names.nil_mem_paths rfl hplain (Nat.lt_succ_of_lt (Nat.lt_succ_self p.length))
  rw [Names.inode_nil, ← h.root_eq] at hloop
  rw [vfsLookup, if_pos habs]
  revert hloop
  cases N.walk [] [] (components p) with
  | none => exact id
  | some found =>
      rintro ⟨r, hr, hanswer, hshows, hsame⟩
      exact ⟨r, hr, hanswer, hshows,
        ((Fs.SameFiles.inoRef fs _).trans (.inoRef _ _)).trans hsame⟩

end walking

/-! ### Where a walk ends -/

namespace Names
section ends
variable {N N' : Names} {p q par cur d : Path} {c : CString} {cs : List CString} {w : Walked}

theorem remember_of_known (h : N.known p c = some d) : N.remember p c q = N := by
  simp [remember, h]

theorem remember_of_unknown (h : N.known p c = none) :
    N.remember p c q = { N with remembered := ⟨p, c, q⟩ :: N.remembered } := by
  simp [remember, h]

theorem known_remember_other {c' : CString} (hne : cur ≠ p) :
    (N.remember cur c' q).known p c = N.known p c := by
  cases h : N.known cur c' with
  | some d => rw [remember_of_known h]
  | none =>
      rw [remember_of_unknown h]
      simp [known, hne]

theorem known_remember_self (hlook : N.look cur c = some (some q)) :
    (N.remember cur c q).known cur c = some q := by
  cases h : N.known cur c with
  | some d =>
      rw [look, h] at hlook
      rw [remember_of_known h, h]
      exact Option.some.inj hlook
  | none =>
      rw [remember_of_unknown h]
      simp [known, sameBytes]

theorem walk_keeps (hN : N.Sound) (h : N.walk par cur cs = some (N', w)) :
    N'.Sound ∧ N'.nodes = N.nodes := by
  induction cs generalizing N par cur with
  | nil =>
      obtain ⟨rfl, -⟩ := Prod.mk.inj (Option.some.inj h)
      exact ⟨hN, rfl⟩
  | cons c cs ih =>
      rw [walk] at h
      split at h
      · contradiction
      · obtain ⟨rfl, -⟩ := Prod.mk.inj (Option.some.inj h)
        exact ⟨hN, rfl⟩
      · rename_i q hlook
        obtain ⟨hsound, hnodes⟩ := ih (hN.remember hlook) h
        exact ⟨hsound, hnodes⟩

/-- Every component is taken for a name that begins with it, and the last one is looked for in a
directory. -/
theorem walk_parent (hN : N.Sound) (h : N.walk par cur cs = some (N', w)) (hcs : cs ≠ [])
    (hd : w.parent = some d) :
    N.isDirectory d = true ∧ ∃ es, d = cur ++ es ∧ List.Forall₂ (· <+: ·) cs.dropLast es := by
  induction cs generalizing N par cur with
  | nil => exact absurd rfl hcs
  | cons c cs ih =>
      rw [walk] at h
      split at h
      · contradiction
      · rename_i hlook
        obtain ⟨-, rfl⟩ := Prod.mk.inj (Option.some.inj h)
        cases cs with
        | nil =>
            obtain rfl := Option.some.inj hd
            exact ⟨hN.look_isDirectory hlook, [], by simp, .nil⟩
        | cons c' cs => simp [Walked.parent] at hd
      · rename_i q hlook
        cases cs with
        | nil =>
            obtain ⟨-, rfl⟩ := Prod.mk.inj (Option.some.inj h)
            obtain rfl := Option.some.inj hd
            exact ⟨hN.look_isDirectory hlook, [], by simp, .nil⟩
        | cons c' cs =>
            obtain ⟨x, -, rfl, hpre, rfl⟩ := hN.look_some hlook
            obtain ⟨hdir, es, rfl, hes⟩ := ih (hN.remember hlook) h (by simp)
            refine ⟨hdir, x.name :: es, by simp [Node.path], ?_⟩
            rw [List.dropLast_cons_of_ne_nil (by simp)]
            exact .cons hpre hes

theorem walk_found_mem (hN : N.Sound) (h : N.walk par cur cs = some (N', .found q d))
    (hcur : cur ∈ N.paths) : d ∈ N.paths := by
  induction cs generalizing N par cur with
  | nil =>
      simp only [walk, Option.some.injEq, Prod.mk.injEq, Walked.found.injEq] at h
      exact h.2.2 ▸ hcur
  | cons c cs ih =>
      rw [walk] at h
      split at h
      · contradiction
      · simp at h
      · rename_i r hlook
        have hmem := ih (hN.remember hlook) h (hN.look_mem hlook)
        exact hmem

/-- What is remembered for one directory does not change below it. -/
theorem walk_known (hN : N.Sound) (h : N.walk par cur cs = some (N', w)) (hlt : p.length < cur.length)
    (c : CString) : N'.known p c = N.known p c := by
  induction cs generalizing N par cur with
  | nil =>
      obtain ⟨rfl, -⟩ := Prod.mk.inj (Option.some.inj h)
      rfl
  | cons e cs ih =>
      rw [walk] at h
      split at h
      · contradiction
      · obtain ⟨rfl, -⟩ := Prod.mk.inj (Option.some.inj h)
        rfl
      · rename_i q hlook
        have hq : p.length < q.length := by
          obtain ⟨x, -, rfl, -, rfl⟩ := hN.look_some hlook
          rw [Node.path, List.length_append]
          omega
        have hne : cur ≠ p := by
          rintro rfl
          exact Nat.lt_irrefl _ hlt
        rw [ih (hN.remember hlook) h hq, known_remember_other hne]

/-- The second walk along the same components finds what the first has remembered. -/
theorem walk_again (hN : N.Sound) (h : N.walk par cur cs = some (N', w)) :
    N'.walk par cur cs = some (N', w) := by
  induction cs generalizing N par cur with
  | nil =>
      obtain ⟨rfl, rfl⟩ := Prod.mk.inj (Option.some.inj h)
      rfl
  | cons c cs ih =>
      rw [walk] at h
      split at h
      · contradiction
      · rename_i hlook
        obtain ⟨rfl, rfl⟩ := Prod.mk.inj (Option.some.inj h)
        simp only [walk, hlook]
      · rename_i q hlook
        have hq : cur.length < q.length := by
          obtain ⟨x, -, rfl, -, rfl⟩ := hN.look_some hlook
          simp [Node.path]
        have hknown : N'.known cur c = some q := by
          rw [walk_known (hN.remember hlook) h hq, known_remember_self hlook]
        rw [walk, look, hknown]
        simp only
        rw [remember_of_known hknown]
        exact ih (hN.remember hlook) h

end ends
end Names
end Lucix.Ramfs
