import Lucix.FileRuns
import Lucix.Interleave
import Lucix.Unpack

/-! The calls of `fs/vfs.c` over whole runs, on names of which none begins another: directories, files and what
they hold, by paths. -/
namespace Lucix.Ramfs
open FileIo (Inode)

/-! ### Names of which none begins another -/

/-- No name is the beginning of another one. -/
def PrefixFree (V : CString → Prop) : Prop := ∀ a b, V a → V b → a <+: b → a = b

/-- The walk of `vfs_lookup` by exact names; at a path there is a directory, a file, or nothing. -/
def kindWalk (kind : Path → Option Bool) : Path → Path → List CString → Option Walked
  | par, cur, [] => some (.found par cur)
  | _, cur, c :: cs =>
      if kind cur = some true then
        if kind (cur ++ [c]) = none then some (.missing cur (decide (cs = [])))
        else kindWalk kind cur (cur ++ [c]) cs
      else none

namespace Names

/-- Whether there is a directory or a file at a path. -/
def kind (N : Names) (p : Path) : Option Bool := if N.paths.contains p then some (N.isDirectory p) else none

section exact
variable {V : CString → Prop} {N N' : Names} {p q cur par : Path} {c : CString} {cs : List CString} {x : Node}

theorem kind_of_mem (hp : p ∈ N.paths) : N.kind p = some (N.isDirectory p) := if_pos (List.contains_iff_mem.mpr hp)

theorem kind_none : N.kind p = none ↔ p ∉ N.paths := by
  constructor
  · intro h hp
    rw [kind_of_mem hp] at h
    contradiction
  · exact fun hp => if_neg (mt List.contains_iff_mem.mp hp)

theorem kind_true : N.kind p = some true ↔ N.isDirectory p = true := by
  constructor
  · intro h
    by_cases hp : p ∈ N.paths
    · rw [kind_of_mem hp] at h
      exact Option.some.inj h
    · rw [kind_none.mpr hp] at h
      contradiction
  · intro h
    rw [kind_of_mem (isDirectory_mem h), h]

theorem kind_false : N.kind p = some false ↔ p ∈ N.paths ∧ N.isDirectory p = false := by
  constructor
  · intro h
    by_cases hp : p ∈ N.paths
    · rw [kind_of_mem hp] at h
      exact ⟨hp, Option.some.inj h⟩
    · rw [kind_none.mpr hp] at h
      contradiction
  · rintro ⟨hp, h⟩
    rw [kind_of_mem hp, h]

theorem kind_congr (h : N'.nodes = N.nodes) : N'.kind = N.kind := by
  obtain ⟨hpaths, -, hdirs⟩ := same_tree h
  funext p
  unfold kind
  rw [hpaths, hdirs]

theorem kind_add (hx : x.path ∉ N.paths) : (N.add x).kind = Function.update N.kind x.path (some x.isDir) := by
  have hmem : ∀ p, p ∈ (N.add x).paths ↔ p ∈ N.paths ∨ p = x.path := by
    intro p
    rw [add_paths, List.mem_append, List.mem_singleton]
  funext p
  by_cases hp : p = x.path
  · subst hp
    rw [Function.update_self, kind_of_mem ((hmem _).mpr (.inr rfl)), add_isDirectory_new hx]
  · rw [Function.update_of_ne hp]
    by_cases hold : p ∈ N.paths
    · rw [kind_of_mem ((hmem p).mpr (.inl hold)), kind_of_mem hold, add_isDirectory_old hx hold]
    · rw [kind_none.mpr hold, kind_none]
      exact fun h => ((hmem p).mp h).elim hold hp

theorem Sound.kind_parent (hN : N.Sound) (h : N.kind (p ++ [c]) ≠ none) : N.kind p = some true := by
  rw [ne_eq, kind_none, not_not] at h
  rcases mem_paths_iff.mp h with hnil | ⟨x, hx, hpath⟩
  · simp at hnil
  · obtain ⟨rfl, -⟩ := List.append_inj' hpath rfl
    exact kind_true.mpr (hN.parents x hx)

theorem Sound.kind_above (hN : N.Sound) (h : N.kind (p ++ q) ≠ none) (hq : q ≠ []) : N.kind p = some true := by
  induction q using List.reverseRecOn with
  | nil => exact absurd rfl hq
  | append_singleton q c ih =>
      rw [← List.append_assoc] at h
      have hdir := hN.kind_parent h
      cases q with
      | nil => rwa [List.append_nil] at hdir
      | cons d q => exact ih (by simp [hdir]) (by simp)

/-- In a directory the first name that begins with a component is the component. -/
theorem Sound.look_exact (hN : N.Sound) (hfree : PrefixFree V) (hnames : ∀ x ∈ N.nodes, V x.name) (hc : V c) :
    N.look p c = if N.kind p = some true then some (if N.kind (p ++ [c]) = none then none else some (p ++ [c]))
      else none := by
  cases hlook : N.look p c with
  | none =>
      rw [if_neg]
      intro hdir
      rw [kind_true] at hdir
      unfold look at hlook
      split at hlook
      · contradiction
      · rw [if_pos hdir] at hlook
        contradiction
  | some o =>
      rw [if_pos (kind_true.mpr (hN.look_isDirectory hlook))]
      cases o with
      | some q =>
          obtain ⟨x, hx, rfl, hpre, rfl⟩ := hN.look_some hlook
          obtain rfl := hfree c x.name hc (hnames x hx) hpre
          have hpath : x.dir ++ [x.name] = x.path := rfl
          have hsome : N.kind x.path ≠ none := by
            rw [ne_eq, kind_none, not_not]
            exact path_mem hx
          rw [hpath, if_neg hsome]
      | none =>
          rw [if_pos]
          rw [kind_none]
          intro hmem
          unfold look at hlook
          split at hlook
          · exact absurd (Option.some.inj hlook) (by simp)
          · split_ifs at hlook
            have hnone := List.find?_eq_none.mp (Option.map_eq_none_iff.mp (Option.some.inj hlook))
            rcases mem_paths_iff.mp hmem with hnil | ⟨x, hx, hpath⟩
            · simp at hnil
            · obtain ⟨hdir, hname⟩ := List.append_inj' hpath rfl
              have hself := hnone x (List.mem_reverse.mpr hx)
              simp [hdir, List.singleton_injective hname, sameBytes] at hself

theorem Sound.walk_exact (hN : N.Sound) (hfree : PrefixFree V) (hnames : ∀ x ∈ N.nodes, V x.name)
    (hcs : ∀ c ∈ cs, V c) : (N.walk par cur cs).map Prod.snd = kindWalk N.kind par cur cs := by
  induction cs generalizing N par cur with
  | nil => rfl
  | cons c cs ih =>
      obtain ⟨hc, hrest⟩ := List.forall_mem_cons.mp hcs
      have hlook := hN.look_exact (p := cur) hfree hnames hc
      rw [walk, kindWalk]
      split_ifs at hlook with hdir hnone
      · rw [hlook, if_pos hdir, if_pos hnone]
        rfl
      · rw [hlook, if_pos hdir, if_neg hnone]
        have hkeep : (N.remember cur c (cur ++ [c])).kind = N.kind := kind_congr rfl
        rw [← hkeep]
        exact ih (hN.remember hlook) hnames hrest
      · rw [hlook, if_neg hdir]
        rfl

/-- The walk to something that is there. -/
theorem Sound.kindWalk_found (hN : N.Sound) (h : N.kind (cur ++ cs) ≠ none) (hcs : cs ≠ []) :
    kindWalk N.kind par cur cs = some (.found (cur ++ cs).dropLast (cur ++ cs)) := by
  induction cs generalizing par cur with
  | nil => exact absurd rfl hcs
  | cons c cs ih =>
      have hsplit : cur ++ c :: cs = cur ++ [c] ++ cs := by simp
      rw [hsplit] at h ⊢
      have hnext : N.kind (cur ++ [c]) ≠ none := by
        cases cs with
        | nil => rwa [List.append_nil] at h
        | cons d cs => simp [hN.kind_above h (by simp)]
      rw [kindWalk, if_pos (hN.kind_parent hnext), if_neg hnext]
      cases cs with
      | nil => simp [kindWalk]
      | cons d cs => exact ih h (by simp)

/-- The walk to something that is not there: what its answer is by the directory. -/
theorem Sound.kindWalk_missing (hN : N.Sound) (hcur : N.kind cur = some true) (hcs : cs ≠ [])
    (h : N.kind (cur ++ cs) = none) (hways : ∀ q, q <+: cs.dropLast → N.kind (cur ++ q) ≠ some false) :
    ∃ d last, kindWalk N.kind par cur cs = some (.missing d last) ∧
      (last = true ↔ N.kind (cur ++ cs.dropLast) = some true) ∧ (last = true → d = cur ++ cs.dropLast) := by
  induction cs generalizing par cur with
  | nil => exact absurd rfl hcs
  | cons c cs ih =>
      rw [kindWalk, if_pos hcur]
      by_cases hnone : N.kind (cur ++ [c]) = none
      · rw [if_pos hnone]
        refine ⟨cur, _, rfl, ?_⟩
        cases cs with
        | nil => simp [hcur]
        | cons d cs =>
            have hlost : N.kind (cur ++ c :: (d :: cs).dropLast) ≠ some true := by
              intro hdir
              rw [← List.singleton_append, ← List.append_assoc] at hdir
              cases hrest : (d :: cs).dropLast with
              | nil =>
                  rw [hrest, List.append_nil, hnone] at hdir
                  contradiction
              | cons e es =>
                  rw [hrest] at hdir
                  have habove := hN.kind_above (by rw [hdir]; simp) (List.cons_ne_nil e es)
                  rw [hnone] at habove
                  contradiction
            rw [List.dropLast_cons_of_ne_nil (List.cons_ne_nil d cs)]
            simp [hlost]
      · rw [if_neg hnone]
        have hsplit : cur ++ c :: cs = cur ++ [c] ++ cs := by simp
        cases cs with
        | nil => exact absurd h hnone
        | cons d cs =>
            rw [hsplit] at h
            rw [List.dropLast_cons_of_ne_nil (by simp)] at hways ⊢
            have hdir : N.kind (cur ++ [c]) = some true := by
              cases hkind : N.kind (cur ++ [c]) with
              | none => exact absurd hkind hnone
              | some b =>
                  cases b with
                  | true => rfl
                  | false => exact absurd hkind (hways [c] (by simp))
            have hways' : ∀ q, q <+: (d :: cs).dropLast → N.kind (cur ++ [c] ++ q) ≠ some false := by
              intro q hq
              have hlonger := hways (c :: q) (List.cons_prefix_cons.mpr ⟨rfl, hq⟩)
              rwa [← List.singleton_append, ← List.append_assoc] at hlonger
            have hrest := @ih (cur ++ [c]) cur hdir (by simp) h hways'
            rwa [List.append_assoc, List.singleton_append] at hrest

end exact
end Names

/-! ### The calls by exact names -/

/-- The table is as it was but for new paths behind the others, and what the inodes hold is as it was. -/
structure Names.Grown (V : CString → Prop) (N : Names) (fs : Fs) (N' : Names) (fs' : Fs) : Prop where
  sound : N'.Sound
  shows : N'.Shows fs'
  names : ∀ x ∈ N'.nodes, V x.name
  inode : ∀ q ∈ N.paths, N'.inode q = N.inode q
  size : ∀ i, (fs'.inodes i).size = (fs.inodes i).size
  fMap : ∀ i, i ≠ fs.next → (fs'.inodes i).fMap = (fs.inodes i).fMap

/-- What `vfs_mkdir` returns, and what there is afterwards. -/
def mkdirAt (kind : Path → Option Bool) (p : Path) (c : CString) : Int × (Path → Option Bool) :=
  if kind (p ++ [c]) ≠ none then (-eexist, kind)
  else if kind p = some true then (0, Function.update kind (p ++ [c]) (some true))
  else (-enoent, kind)

/-- What `vfs_open` finds or makes: whether there is an inode, and what there is afterwards. -/
def openAt (kind : Path → Option Bool) (p : Path) (c : CString) (oflags : Nat) : Bool × (Path → Option Bool) :=
  if kind (p ++ [c]) ≠ none then (true, kind)
  else if oflags &&& Vfs.oCreat ≠ 0 then (true, Function.update kind (p ++ [c]) (some false))
  else (false, kind)

section kinds
variable {kind : Path → Option Bool} {p q : Path} {c : CString} {oflags : Nat}

theorem mkdirAt_old (h : kind q ≠ none) : (mkdirAt kind p c).2 q = kind q := by
  unfold mkdirAt
  split_ifs with hused hdir
  · rfl
  · have hne : q ≠ p ++ [c] := fun heq => hused (heq ▸ h)
    exact Function.update_of_ne hne _ _
  · rfl

theorem mkdirAt_new (h : kind q = none) : (mkdirAt kind p c).2 q ≠ some false := by
  unfold mkdirAt
  split_ifs
  · simp [h]
  · by_cases heq : q = p ++ [c]
    · simp [heq]
    · simp [Function.update_of_ne heq, h]
  · simp [h]

theorem openAt_old (h : kind q ≠ none) : (openAt kind p c oflags).2 q = kind q := by
  unfold openAt
  split_ifs with hused hcreat
  · rfl
  · have hne : q ≠ p ++ [c] := fun heq => hused (heq ▸ h)
    exact Function.update_of_ne hne _ _
  · rfl

theorem openAt_new (h : kind q = none) (hfile : (openAt kind p c oflags).2 q = some false) :
    q = p ++ [c] ∧ oflags &&& Vfs.oCreat ≠ 0 := by
  unfold openAt at hfile
  split_ifs at hfile with hused hcreat
  · simp [h] at hfile
  · refine ⟨?_, hcreat⟩
    by_contra hne
    simp [Function.update_of_ne hne, h] at hfile
  · simp [h] at hfile

theorem openAt_there (h : (openAt kind p c oflags).1 = true) : (openAt kind p c oflags).2 (p ++ [c]) ≠ none := by
  unfold openAt at h ⊢
  split_ifs at h ⊢ with hused
  · exact hused
  · simp

end kinds

section calls
variable {V : CString → Prop} {N N' : Names} {fs fs' : Fs} {p q : Path} {c : CString} {s : Vfs.State}

theorem Fs.SameFiles.size (h : fs.SameFiles fs') (i : Nat) : (fs'.inodes i).size = (fs.inodes i).size := by
  obtain ⟨k, hk⟩ := h i
  rw [hk]

theorem Fs.SameFiles.fMap (h : fs.SameFiles fs') (i : Nat) : (fs'.inodes i).fMap = (fs.inodes i).fMap := by
  obtain ⟨k, hk⟩ := h i
  rw [hk]

theorem Names.Grown.same (hN : N'.Sound) (h : N'.Shows fs') (hnames : ∀ x ∈ N.nodes, V x.name)
    (hnodes : N'.nodes = N.nodes) (hsame : fs.SameFiles fs') : N.Grown V fs N' fs' ∧ N'.kind = N.kind := by
  refine ⟨⟨hN, h, hnodes ▸ hnames, fun q _ => ?_, hsame.size, fun i _ => hsame.fMap i⟩, Names.kind_congr hnodes⟩
  rw [(Names.same_tree hnodes).2.1]

theorem Names.Grown.added {x : Node} {fs₁ : Fs} (hN : (N'.add x).Sound) (h : (N'.add x).Shows fs')
    (hnames : ∀ x ∈ N.nodes, V x.name) (hnodes : N'.nodes = N.nodes) (hsame : fs.SameFiles fs₁)
    (hnext : fs₁.next = fs.next) (hx : V x.name) (hold : fs₁.SameOld fs')
    (hsize : (fs'.inodes fs₁.next).size = (fs₁.inodes fs₁.next).size) : N.Grown V fs (N'.add x) fs' := by
  obtain ⟨hpaths, hinode, -⟩ := Names.same_tree hnodes
  refine ⟨hN, h, fun y hy => ?_, fun q hq => ?_, fun i => ?_, fun i hi => ?_⟩
  · rcases List.mem_append.mp hy with hy | hy
    · exact hnames y (hnodes ▸ hy)
    · rw [List.mem_singleton.mp hy]
      exact hx
  · rw [Names.add_inode_old (hpaths ▸ hq), hinode]
  · by_cases hi : i = fs₁.next
    · rw [hi, hsize, hsame.size]
    · obtain ⟨k, hk⟩ := hold i hi
      rw [hk, ← hsame.size i]
  · obtain ⟨k, hk⟩ := hold i (hnext ▸ hi)
    rw [hk, ← hsame.fMap i]

/-- References do not count here. -/
theorem Names.Grown.counts {fs'' : Fs} (h : N.Grown V fs N' fs') (hshows : N'.Shows fs'')
    (hsame : fs'.SameFiles fs'') : N.Grown V fs N' fs'' where
  sound := h.sound
  shows := hshows
  names := h.names
  inode := h.inode
  size := fun i => (hsame.size i).trans (h.size i)
  fMap := fun i hi => (hsame.fMap i).trans (h.fMap i hi)

/-- A lookup of a path, by what there is on its way. -/
theorem lookup_kind (flags : Nat) (hfree : PrefixFree V) (hplain : ∀ c, V c → Plain c) (hN : N.Sound)
    (h : N.Shows fs) (hnames : ∀ x ∈ N.nodes, V x.name) (hp : ∀ e ∈ p ++ [c], V e)
    (hways : ∀ q, q <+: p → N.kind q ≠ some false) :
    ∃ N' w r, N.walk [] [] (p ++ [c]) = some (N', w) ∧ vfsLookup fs (joinPath (p ++ [c])) flags = some r ∧
      Walks flags fs N N' w r ∧
      (N.kind (p ++ [c]) ≠ none → w = .found p (p ++ [c])) ∧
      (N.kind (p ++ [c]) = none → N.kind p = some true → w = .missing p true) ∧
      (N.kind (p ++ [c]) = none → N.kind p ≠ some true → ∃ d, w = .missing d false) := by
  have hpc : ∀ e ∈ p ++ [c], Plain e := fun e he => hplain e (hp e he)
  have hlookup := vfsLookup_shows flags hN h (joinPath_head p c)
    (by rw [components_joinPath hpc]; exact hpc)
  rw [components_joinPath hpc] at hlookup
  have hexact := @Names.Sound.walk_exact V N [] [] (p ++ [c]) hN hfree hnames hp
  have hwalk : ∃ w, kindWalk N.kind [] [] (p ++ [c]) = some w ∧
      (N.kind (p ++ [c]) ≠ none → w = .found p (p ++ [c])) ∧
      (N.kind (p ++ [c]) = none → N.kind p = some true → w = .missing p true) ∧
      (N.kind (p ++ [c]) = none → N.kind p ≠ some true → ∃ d, w = .missing d false) := by
    by_cases hnone : N.kind (p ++ [c]) = none
    · have hroot : N.kind [] = some true := Names.kind_true.mpr (by simp [Names.isDirectory])
      obtain ⟨d, last, hw, hiff, hd⟩ := @Names.Sound.kindWalk_missing N [] [] (p ++ [c]) hN hroot (by simp)
        hnone (by rw [List.dropLast_concat]; exact hways)
      rw [List.nil_append, List.dropLast_concat] at hiff hd
      refine ⟨_, hw, fun hsome => absurd hnone hsome, fun _ hdir => ?_, fun _ hdir => ⟨d, ?_⟩⟩
      · rw [hiff.mpr hdir, hd (hiff.mpr hdir)]
      · rw [Bool.eq_false_iff.mpr fun hlast => hdir (hiff.mp hlast)]
    · have hw := @Names.Sound.kindWalk_found N [] [] (p ++ [c]) hN hnone (by simp)
      rw [List.nil_append, List.dropLast_concat] at hw
      exact ⟨_, hw, fun _ => rfl, fun hn => absurd hn hnone, fun hn => absurd hn hnone⟩
  obtain ⟨w, hw, hcases⟩ := hwalk
  rw [hw] at hexact
  obtain ⟨⟨N', w'⟩, hwalk, rfl⟩ := Option.map_eq_some_iff.mp hexact
  rw [hwalk] at hlookup
  obtain ⟨r, hr, hwalks⟩ := hlookup
  exact ⟨N', w', r, hwalk, hr, hwalks, hcases⟩

theorem vfsMkdir_kind (hs : s.rootFs = some fs) (hfree : PrefixFree V) (hplain : ∀ c, V c → Plain c)
    (hN : N.Sound) (h : N.Shows fs) (hnames : ∀ x ∈ N.nodes, V x.name) (hp : ∀ e ∈ p ++ [c], V e)
    (hshort : c.length < ramfsMaxFilename) (hways : ∀ q, q <+: p → N.kind q ≠ some false) (mode : Nat) :
    ∃ N' fs', Vfs.vfsMkdir s (joinPath (p ++ [c])) mode = some ((mkdirAt N.kind p c).1, s.setFs fs') ∧
      N.Grown V fs N' fs' ∧ N'.kind = (mkdirAt N.kind p c).2 := by
  have hc : Plain c := hplain c (hp c (by simp))
  obtain ⟨N', w, r, hwalk, hr, ⟨hanswer, hshows, hsame⟩, hfound, hmissing, hlost⟩ :=
    lookup_kind lookupParent hfree hplain hN h hnames hp hways
  obtain ⟨hsound, hnodes⟩ := Names.walk_keeps hN hwalk
  obtain ⟨hpaths, hinode, hdirs⟩ := Names.same_tree hnodes
  by_cases hdir : N.kind p = some true
  · -- the lookup has come to the directory
    have hparent : w.parent = some p := by
      by_cases hnone : N.kind (p ++ [c]) = none
      · rw [hmissing hnone hdir]
        rfl
      · rw [hfound hnone]
        rfl
    rw [Walked.answer_some hparent] at hanswer
    obtain ⟨hcode, hres⟩ := Prod.mk.inj hanswer
    have hdir' : N'.isDirectory p = true := by
      rw [hdirs]
      exact Names.kind_true.mp hdir
    rw [vfsMkdir_found hs hr hcode hres, lastName_joinPath hc.no_slash, ← hinode, mkdir_shows hshows hdir' hc,
      hpaths]
    by_cases hnone : N.kind (p ++ [c]) = none
    · have hnew : p ++ [c] ∉ N'.paths := by
        rw [hpaths]
        exact Names.kind_none.mp hnone
      have hnext : r.fs.next = fs.next := by rw [hshows.next_eq, hpaths, h.next_eq]
      rw [if_neg (Names.kind_none.mp hnone), if_neg (Nat.not_le.mpr hshort), mkdirAt, if_neg (not_not.mpr hnone),
        if_pos hdir]
      refine ⟨N'.add ⟨p, c, true⟩, _, rfl, Names.Grown.counts (Names.Grown.added (hsound.add hdir' hc hnew) ?shows
        hnames hnodes hsame hnext (hp c (by simp)) ((Fs.SameFiles.refl r.fs).grow rfl) ?size)
        (Names.Shows.inoDeref ?shows _) (.inoDeref _ _), ?made⟩
      case shows =>
        exact Names.Shows.grow (x := ⟨p, c, true⟩) hsound hshows hdir' hnew (typed_mode mode sIfdir (by decide)) rfl
      case size => simp [Fs.grow, Fs.freshInode]
      case made =>
        rw [Names.kind_add hnew, Names.kind_congr hnodes]
        rfl
    · have hused : p ++ [c] ∈ N.paths := not_not.mp (mt Names.kind_none.mpr hnone)
      rw [if_pos hused, mkdirAt, if_pos hnone]
      obtain ⟨hgrown, hkind⟩ := Names.Grown.same hsound (hshows.inoDeref (N'.inode p)) hnames hnodes
        (hsame.trans (.inoDeref _ _))
      exact ⟨N', _, rfl, hgrown, hkind⟩
  · -- a component is missing on the way
    have hnone : N.kind (p ++ [c]) = none := by
      by_contra hsome
      exact hdir (hN.kind_parent hsome)
    obtain ⟨d, rfl⟩ := hlost hnone hdir
    rw [Walked.answer_none rfl] at hanswer
    obtain ⟨hcode, -⟩ := Prod.mk.inj hanswer
    have hne : r.code ≠ 0 := by
      rw [hcode]
      decide
    obtain ⟨hgrown, hkind⟩ := Names.Grown.same hsound hshows hnames hnodes hsame
    refine ⟨N', r.fs, ?_, hgrown, ?_⟩
    · simp only [Vfs.vfsMkdir, hs, hr, Option.bind_eq_bind, Option.bind_some, if_pos hne]
      rw [hcode, mkdirAt, if_neg (not_not.mpr hnone), if_neg hdir]
    · rw [hkind, mkdirAt, if_neg (not_not.mpr hnone), if_neg hdir]

theorem vfsOpen_kind (hs : s.rootFs = some fs) (hfree : PrefixFree V) (hplain : ∀ c, V c → Plain c)
    (hN : N.Sound) (h : N.Shows fs) (hnames : ∀ x ∈ N.nodes, V x.name) (hp : ∀ e ∈ p ++ [c], V e)
    (hshort : c.length < ramfsMaxFilename) (hways : ∀ q, q <+: p → N.kind q ≠ some false) (mach : Vfs.Machine)
    {oflags : Nat} (hmake : N.kind (p ++ [c]) = none → oflags &&& Vfs.oCreat ≠ 0 → N.kind p = some true)
    (mode : Nat) :
    ∃ N' fs', Vfs.vfsOpen mach s (joinPath (p ++ [c])) oflags mode =
        some (if (openAt N.kind p c oflags).1 then
          (some s.nextFile, Vfs.openFile mach s fs' (N'.inode (p ++ [c])) oflags) else (none, s.setFs fs')) ∧
      N.Grown V fs N' fs' ∧ N'.kind = (openAt N.kind p c oflags).2 ∧
      (N.kind (p ++ [c]) = none → oflags &&& Vfs.oCreat ≠ 0 → N'.inode (p ++ [c]) = fs.next ∧
        (fs'.inodes fs.next).fMap = ⟨[none, none], 2⟩) := by
  have hpc : ∀ e ∈ p ++ [c], Plain e := fun e he => hplain e (hp e he)
  obtain ⟨N', w, r, hwalk, hr, ⟨hanswer, hshows, hsame⟩, hfound, hmissing, hlost⟩ :=
    lookup_kind 0 hfree hplain hN h hnames hp hways
  obtain ⟨hsound, hnodes⟩ := Names.walk_keeps hN hwalk
  obtain ⟨hpaths, hinode, -⟩ := Names.same_tree hnodes
  have hopened : ∀ {M : Names} {fs' : Fs}, M.Sound → M.Shows fs' → M.kind (p ++ [c]) ≠ none →
      Vfs.openInode fs (joinPath (p ++ [c])) oflags mode = some (some (M.inode (p ++ [c])), fs') →
      Vfs.vfsOpen mach s (joinPath (p ++ [c])) oflags mode =
        some (some s.nextFile, Vfs.openFile mach s fs' (M.inode (p ++ [c])) oflags) := by
    intro M fs' hM hMshows hsome hopen
    have hmem : p ++ [c] ∈ M.paths := not_not.mp (mt Names.kind_none.mpr hsome)
    have hne : M.inode (p ++ [c]) ≠ fs'.root := by
      rw [hMshows.root_eq, ← M.inode_nil, ne_eq, Names.inode_inj hmem]
      simp
    rw [Initramfs.vfsOpen_eq hs hopen (Initramfs.inoType_of_shows hMshows hmem), if_pos hne]
  by_cases hnone : N.kind (p ++ [c]) = none
  · by_cases hcreat : oflags &&& Vfs.oCreat ≠ 0
    · -- the file is made by a second lookup
      have hdir := hmake hnone hcreat
      obtain rfl := hmissing hnone hdir
      have hopen := openInode_shows hN h hpc hcreat mode
      rw [hwalk] at hopen
      obtain ⟨fs₁, hshows₁, hsame₁, hopen⟩ := hopen
      have hkind : N'.kind = N.kind := Names.kind_congr hnodes
      obtain ⟨N₂, w, -, hwalk₂, -, -, -, hmissing₂, -⟩ := lookup_kind 0 hfree hplain hsound hshows₁
        (hnodes ▸ hnames) hp (hkind ▸ hways)
      obtain rfl := hmissing₂ (hkind ▸ hnone) (hkind ▸ hdir)
      obtain ⟨-, hnodes₂⟩ := Names.walk_keeps hsound hwalk₂
      obtain ⟨hpaths₂, -, -⟩ := Names.same_tree hnodes₂
      have hunused : p ++ [c] ∉ N'.paths := by
        rw [hpaths]
        exact Names.kind_none.mp hnone
      have hmakes : N'.make p c false = some (N₂.add ⟨p, c, false⟩) := by
        simp [Names.make, hwalk₂, Walked.parent, hunused, Nat.not_le.mpr hshort]
      have hmade := createFile_shows hsound hshows₁ hpc mode
      rw [hmakes] at hmade
      obtain ⟨fs₂, hcreate, hsound₂, hshows₂, hnew⟩ := hmade
      have hnext : fs₁.next = fs.next := by rw [hshows₁.next_eq, hpaths, h.next_eq]
      have hfresh : (⟨p, c, false⟩ : Node).path ∉ N₂.paths := by
        rw [hpaths₂]
        exact hunused
      have hat : (N₂.add ⟨p, c, false⟩).kind = Function.update N.kind (p ++ [c]) (some false) := by
        rw [Names.kind_add hfresh, Names.kind_congr hnodes₂, hkind]
        rfl
      have hino : (N₂.add ⟨p, c, false⟩).inode (p ++ [c]) = fs.next := by
        rw [← hnext, hshows₁.next_eq, ← hpaths₂]
        exact Names.add_inode_new hfresh
      refine ⟨_, fs₂, ?_, .added hsound₂ hshows₂ hnames (hnodes₂.trans hnodes) hsame₁ hnext (hp c (by simp))
        hnew.old hnew.size_eq, ?_, fun _ _ => ⟨hino, hnext ▸ hnew.map_eq⟩⟩
      · rw [hopened hsound₂ hshows₂ (by rw [hat]; simp) (by rw [hopen, hcreate, hino, hnext]), openAt,
          if_neg (not_not.mpr hnone), if_pos hcreat]
        rfl
      · rw [hat, openAt, if_neg (not_not.mpr hnone), if_pos hcreat]
    · have hfail : r.code ≠ 0 ∧ r.res = none := by
        obtain ⟨d, last, rfl⟩ : ∃ d last, w = .missing d last := by
          by_cases hdir : N.kind p = some true
          · exact ⟨p, true, hmissing hnone hdir⟩
          · obtain ⟨d, hd⟩ := hlost hnone hdir
            exact ⟨d, false, hd⟩
        obtain ⟨hcode, hres⟩ : r.code = -enoent ∧ r.res = none := by
          simpa [Walked.answer, LookupResult.answer] using hanswer
        rw [hcode]
        exact ⟨by decide, hres⟩
      have hopen : Vfs.openInode fs (joinPath (p ++ [c])) oflags mode = some (none, r.fs) := by
        simp only [Vfs.openInode, hr, Option.bind_eq_bind, Option.bind_some, if_pos hfail, hcreat, false_and,
          if_false]
      obtain ⟨hgrown, hkind⟩ := Names.Grown.same hsound hshows hnames hnodes hsame
      refine ⟨N', r.fs, ?_, hgrown, ?_, fun _ hyes => absurd hyes hcreat⟩
      · rw [openAt, if_neg (not_not.mpr hnone), if_neg hcreat]
        simp [Vfs.vfsOpen, hs, hopen]
      · rw [hkind, openAt, if_neg (not_not.mpr hnone), if_neg hcreat]
  · obtain rfl := hfound hnone
    obtain ⟨hcode, hres⟩ : r.code = 0 ∧ r.res = some (N.inode (p ++ [c])) := by
      simpa [Walked.answer, LookupResult.answer] using hanswer
    have hopen : Vfs.openInode fs (joinPath (p ++ [c])) oflags mode = some (some (N'.inode (p ++ [c])), r.fs) := by
      simp [Vfs.openInode, hr, hcode, hres, hinode]
    obtain ⟨hgrown, hkind⟩ := Names.Grown.same hsound hshows hnames hnodes hsame
    refine ⟨N', r.fs, ?_, hgrown, ?_, fun h' => absurd h' hnone⟩
    · rw [hopened hsound hshows (by rw [hkind]; exact hnone) hopen, openAt, if_pos hnone]
      rfl
    · rw [hkind, openAt, if_pos hnone]

end calls
end Lucix.Ramfs
