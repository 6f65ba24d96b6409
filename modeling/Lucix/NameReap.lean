import Lucix.Ramfs
import Lucix.ListHead
import Lucix.Execution

/-!
# The name cache on its links, `fs/namecache.c`

The list of cached names is the ring of `struct list_head` through the entry objects.
Objects are numbered in the order in which `name_cache_slab` hands them out; giving one
back does not write to it. `fs_name_cache_reap` gives every entry back and leaves all of
them on the list.
-/
namespace Lucix.Caches
open Ring Ramfs Execution

/-- A pointer to a list node: the head of the list, an entry, or a poison pointer. -/
inductive CacheNode where
  | head
  | entry (i : Nat)
  | poison1
  | poison2
  deriving DecidableEq, Repr

/-- The macro `MAX_NAME`. -/
def maxName : Nat := 255

/-- The list, the fields of the entries, the counts of the inodes, how many objects were handed out
and which were given back, the last one first. -/
structure NameCache where
  links : Links CacheNode
  parent : Nat → Nat
  name : Nat → CString
  ino : Nat → Nat
  refcnt : Nat → Nat
  next : Nat
  freed : List Nat

def NameCache.inoRef (s : NameCache) (i : Nat) : NameCache :=
  { s with refcnt := Function.update s.refcnt i ((s.refcnt i + 1) % 2 ^ 32) }

def NameCache.inoDeref (s : NameCache) (i : Nat) : NameCache :=
  { s with refcnt := Function.update s.refcnt i ((s.refcnt i + 2 ^ 32 - 1) % 2 ^ 32) }

def fsNameCacheInit (refcnt : Nat → Nat) : NameCache where
  links := ⟨fun _ => .head, fun _ => .head⟩
  parent := fun _ => 0
  name := fun _ => []
  ino := fun _ => 0
  refcnt := refcnt
  next := 0
  freed := []

/-- The function `fs_name_cache_add_inode`; `none` when the name does not fit into the entry. -/
def fsNameCacheAddInode (s : NameCache) (parent : Nat) (name : CString) (ino : Nat) : Option NameCache :=
  if maxName < name.length then none
  else
    let entry := s.next
    let s := ({ s with next := s.next + 1 }.inoRef ino).inoRef parent
    some { s with
      parent := Function.update s.parent entry parent
      ino := Function.update s.ino entry ino
      name := Function.update s.name entry name
      links := listAdd s.links (.entry entry) .head }

/-- The loop `list_for_each` up to the first entry that passes a test; `none` when it leaves the
list. -/
def scan (links : Links CacheNode) (test : Nat → Bool) : Nat → CacheNode → Option (Option Nat)
  | 0, _ => none
  | fuel + 1, pos =>
      match pos with
      | .head => some none
      | .entry i => if test i then some (some i) else scan links test fuel (links.next pos)
      | _ => none

def fsNameCacheFastLookup (s : NameCache) (parent : Nat) (name : CString) : Option (Option Nat × NameCache) :=
  (scan s.links (fun i => decide (s.parent i = parent) && sameBytes (s.name i) name) (s.next + 1)
    (s.links.next .head)).map fun found =>
      match found with
      | some i => (some (s.ino i), s.inoRef (s.ino i))
      | none => (none, s)

/-- The body of the loop of `fs_name_cache_reap`. -/
def NameCache.giveBack (s : NameCache) (i : Nat) : NameCache :=
  { (s.inoDeref (s.ino i)).inoDeref (s.parent i) with freed := i :: s.freed }

/-- The loop of `fs_name_cache_reap` with the cursor `pos` and the saved node `tmp`. -/
def reapNames : Nat → NameCache → CacheNode → CacheNode → Option NameCache
  | 0, _, _, _ => none
  | fuel + 1, s, pos, tmp =>
      match pos with
      | .head => some s
      | .entry i =>
          let s := s.giveBack i
          reapNames fuel s tmp (s.links.next tmp)
      | _ => none

def fsNameCacheReap (s : NameCache) : Option NameCache :=
  reapNames (s.next + 1) s (s.links.next .head) (s.links.next (s.links.next .head))

structure NameCall where
  parent : Nat
  name : CString
  ino : Nat

def addStep (s : NameCache) (c : NameCall) : Option NameCache := fsNameCacheAddInode s c.parent c.name c.ino

/-! ### The list of a cache -/

/-- The entries `xs` are on the list, in this order, and all of them were handed out. -/
structure NameCache.Lists (s : NameCache) (xs : List Nat) : Prop where
  ring : s.links.IsRing .head (xs.map .entry)
  below : ∀ i ∈ xs, i < s.next
  few : xs.length ≤ s.next

/-- The list as `fs_name_cache_fast_lookup` reads it. -/
def NameCache.entries (s : NameCache) (xs : List Nat) : List NameEntry :=
  xs.map fun i => ⟨s.parent i, s.name i, s.ino i⟩

section lists
variable {s : NameCache} {xs pre rest : List Nat} {i fuel : Nat}

theorem ring_next_entry {links : Links CacheNode} (hr : links.IsRing .head ((pre ++ i :: rest).map .entry)) :
    links.next (.entry i) = ((rest.map .entry).head?).getD .head := by
  rw [List.map_append, List.map_cons] at hr
  have hseg := (Links.seg_append.mp hr.seg).2
  cases rest with
  | nil => exact hseg.1
  | cons j rest => exact hseg.1.1

theorem ring_first {links : Links CacheNode} (hr : links.IsRing .head (xs.map .entry)) :
    links.next .head = ((xs.map .entry).head?).getD .head := by
  cases xs with
  | nil => exact hr.seg.1
  | cons i xs => exact hr.next_head

theorem scan_ring (pre : List Nat) {links : Links CacheNode} {test : Nat → Bool}
    (hr : links.IsRing .head ((pre ++ rest).map .entry)) (hfuel : rest.length < fuel) :
    scan links test fuel (((rest.map .entry).head?).getD .head) = some (rest.find? test) := by
  induction rest generalizing pre fuel with
  | nil =>
      obtain ⟨fuel, rfl⟩ := Nat.exists_eq_add_of_le' hfuel
      rfl
  | cons i rest ih =>
      obtain ⟨fuel, rfl⟩ := Nat.exists_eq_add_of_le' (Nat.zero_lt_of_lt hfuel)
      rw [List.map_cons, List.head?_cons, Option.getD_some, scan]
      by_cases htest : test i = true
      · simp [htest]
      · simp only [htest, Bool.false_eq_true, if_false, List.find?_cons]
        rw [ring_next_entry hr]
        apply ih (pre ++ [i])
        · rwa [List.append_assoc, List.singleton_append]
        · simpa using hfuel

/-- The next object is on no list, and with it in front the objects of a list are the older ones. -/
theorem fresh_entry {n : Nat} (hbelow : ∀ i ∈ xs, i < n) :
    CacheNode.entry n ∉ CacheNode.head :: xs.map .entry ∧ ∀ i ∈ n :: xs, i < n + 1 := by
  constructor
  · simp only [List.mem_cons, reduceCtorEq, List.mem_map, CacheNode.entry.injEq, exists_eq_right, false_or]
    exact fun hmem => Nat.lt_irrefl _ (hbelow _ hmem)
  · intro i hi
    rcases List.mem_cons.mp hi with rfl | hi
    · exact Nat.lt_succ_self _
    · exact Nat.lt_succ_of_lt (hbelow i hi)

theorem NameCache.Lists.add (h : s.Lists xs) {s' : NameCache} {parent ino : Nat} {name : CString}
    (hadd : fsNameCacheAddInode s parent name ino = some s') :
    s'.Lists (s.next :: xs) ∧ s'.next = s.next + 1 ∧
      s'.entries (s.next :: xs) = ⟨parent, name, ino⟩ :: s.entries xs := by
  unfold fsNameCacheAddInode at hadd
  split_ifs at hadd
  obtain rfl := Option.some.inj hadd
  obtain ⟨hfresh, hbelow⟩ := fresh_entry h.below
  refine ⟨⟨listAdd_ring h.ring hfresh, hbelow, Nat.succ_le_succ h.few⟩, rfl, ?_⟩
  rw [NameCache.entries, List.map_cons]
  congr 1
  · simp [NameCache.inoRef]
  · apply List.map_congr_left
    intro i hi
    have hne : i ≠ s.next := Nat.ne_of_lt (h.below i hi)
    simp [NameCache.inoRef, hne]

/-- The lookup reads the list of names, as `Ramfs.fsNameCacheFastLookup` does. -/
theorem fastLookup_entries (h : s.Lists xs) (parent : Nat) (name : CString) :
    (fsNameCacheFastLookup s parent name).map Prod.fst =
      some (((s.entries xs).find? fun e => decide (e.parent = parent) && sameBytes e.name name).map
        NameEntry.ino) := by
  rw [fsNameCacheFastLookup, ring_first h.ring, scan_ring [] h.ring (Nat.lt_succ_of_le h.few),
    NameCache.entries, List.find?_map]
  simp only [Function.comp_def]
  cases xs.find? fun i => decide (s.parent i = parent) && sameBytes (s.name i) name <;> rfl

theorem init_lists (refcnt : Nat → Nat) : (fsNameCacheInit refcnt).Lists [] :=
  ⟨Links.isRing_nil.mpr ⟨rfl, rfl⟩, by simp, Nat.zero_le _⟩

/-- A run of additions: the list has the names, the newest first. -/
theorem run_adds {calls : List NameCall} (h : s.Lists xs) {s' : NameCache} (hrun : run addStep s calls = some s') :
    ∃ ys, s'.Lists (ys ++ xs) ∧ ys.length = calls.length ∧
      s'.entries (ys ++ xs) = (calls.map fun c => ⟨c.parent, c.name, c.ino⟩).reverse ++ s.entries xs := by
  induction calls generalizing s xs with
  | nil =>
      obtain rfl := Option.some.inj hrun
      exact ⟨[], h, rfl, rfl⟩
  | cons c calls ih =>
      obtain ⟨s₁, hadd, hrest⟩ := Option.bind_eq_some_iff.mp hrun
      obtain ⟨hlists, -, hentries⟩ := h.add hadd
      obtain ⟨ys, hys, hlen, hall⟩ := ih hlists hrest
      refine ⟨ys ++ [s.next], ?_, by simp [hlen], ?_⟩
      · rwa [List.append_assoc, List.singleton_append]
      · rw [List.append_assoc, List.singleton_append, hall, hentries]
        simp

end lists

/-! ### Reaping -/

/-- How many of the entries name an inode, as `ino` or as `parent`. -/
def NameCache.uses (s : NameCache) (xs : List Nat) (k : Nat) : Nat :=
  xs.countP (fun i => decide (s.ino i = k)) + xs.countP (fun i => decide (s.parent i = k))

/-- What reaping the list `xs` should do. -/
structure ReapMeets (s : NameCache) (xs : List Nat) (s' : NameCache) : Prop where
  ends : fsNameCacheReap s = some s'
  emptied : listEmpty s'.links .head = true
  returned : s'.freed.Perm (xs ++ s.freed)
  counts : ∀ k, (s'.refcnt k + s.uses xs k) % 2 ^ 32 = s.refcnt k % 2 ^ 32
  misses : ∀ parent name, (fsNameCacheFastLookup s' parent name).map Prod.fst = some none
  again : fsNameCacheReap s' = some s'

section reaping
variable {s : NameCache} {xs pre rest : List Nat} {i fuel : Nat}

theorem reapNames_ring (pre : List Nat) (hr : s.links.IsRing .head ((pre ++ rest).map .entry)) (hfuel : rest.length < fuel) :
    reapNames fuel s (((rest.map .entry).head?).getD .head)
        (s.links.next (((rest.map .entry).head?).getD .head)) = some (rest.foldl NameCache.giveBack s) := by
  induction rest generalizing pre fuel s with
  | nil =>
      obtain ⟨fuel, rfl⟩ := Nat.exists_eq_add_of_le' hfuel
      rfl
  | cons i rest ih =>
      obtain ⟨fuel, rfl⟩ := Nat.exists_eq_add_of_le' (Nat.zero_lt_of_lt hfuel)
      rw [List.map_cons, List.head?_cons, Option.getD_some, reapNames, ring_next_entry hr]
      apply ih (pre ++ [i]) (s := s.giveBack i)
      · rwa [List.append_assoc, List.singleton_append]
      · simpa using hfuel

theorem giveBack_uses (s : NameCache) (i : Nat) (xs : List Nat) (k : Nat) :
    (s.giveBack i).uses xs k = s.uses xs k := rfl

theorem giveBack_refcnt (s : NameCache) (i : Nat) :
    (s.giveBack i).refcnt = ((s.inoDeref (s.ino i)).inoDeref (s.parent i)).refcnt := by
  rw [NameCache.giveBack]

@[simp] theorem giveBack_links (s : NameCache) (i : Nat) : (s.giveBack i).links = s.links := rfl

theorem foldl_giveBack_links (xs : List Nat) (s : NameCache) :
    (xs.foldl NameCache.giveBack s).links = s.links := by
  induction xs generalizing s with
  | nil => rfl
  | cons i xs ih => rw [List.foldl_cons, ih, giveBack_links]

theorem foldl_giveBack_freed (xs : List Nat) (s : NameCache) :
    (xs.foldl NameCache.giveBack s).freed = xs.reverse ++ s.freed := by
  induction xs generalizing s with
  | nil => rfl
  | cons i xs ih =>
      rw [List.foldl_cons, ih, List.reverse_cons, List.append_assoc]
      rfl

theorem inoDeref_refcnt (s : NameCache) (i : Nat) :
    (s.inoDeref i).refcnt = Function.update s.refcnt i ((s.refcnt i + 2 ^ 32 - 1) % 2 ^ 32) := rfl

theorem inoDeref_count (s : NameCache) (i k : Nat) :
    ((s.inoDeref i).refcnt k + if i = k then 1 else 0) % 2 ^ 32 = s.refcnt k % 2 ^ 32 := by
  have hwrap : ∀ n : Nat, ((n + 2 ^ 32 - 1) % 2 ^ 32 + 1) % 2 ^ 32 = n % 2 ^ 32 := by omega
  rw [inoDeref_refcnt]
  by_cases hk : i = k
  · subst hk
    rw [Function.update_self, if_pos rfl]
    exact hwrap _
  · rw [Function.update_of_ne (Ne.symm hk), if_neg hk, Nat.add_zero]

theorem giveBack_count (s : NameCache) (i k : Nat) :
    ((s.giveBack i).refcnt k + s.uses [i] k) % 2 ^ 32 = s.refcnt k % 2 ^ 32 := by
  have hino := inoDeref_count s (s.ino i) k
  have hparent := inoDeref_count (s.inoDeref (s.ino i)) (s.parent i) k
  have huses : s.uses [i] k = (if s.ino i = k then 1 else 0) + if s.parent i = k then 1 else 0 := by
    simp [NameCache.uses, List.countP_singleton]
  rw [huses, giveBack_refcnt]
  generalize ((s.inoDeref (s.ino i)).inoDeref (s.parent i)).refcnt k = last at *
  generalize (s.inoDeref (s.ino i)).refcnt k = middle at *
  generalize s.refcnt k = first at *
  omega

theorem foldl_giveBack_counts (xs : List Nat) (s : NameCache) (k : Nat) :
    ((xs.foldl NameCache.giveBack s).refcnt k + s.uses xs k) % 2 ^ 32 = s.refcnt k % 2 ^ 32 := by
  induction xs generalizing s with
  | nil => simp [NameCache.uses]
  | cons i xs ih =>
      have hsplit : s.uses (i :: xs) k = s.uses [i] k + (s.giveBack i).uses xs k := by
        rw [giveBack_uses]
        simp only [NameCache.uses, List.countP_cons, List.countP_nil]
        omega
      have hrest := ih (s.giveBack i)
      have hfirst := giveBack_count s i k
      rw [List.foldl_cons, hsplit]
      generalize (xs.foldl NameCache.giveBack (s.giveBack i)).refcnt k = last at *
      generalize (s.giveBack i).refcnt k = middle at *
      generalize s.refcnt k = first at *
      omega

/-- Reaping ends, gives every entry back once and drops the references, but does not touch the
list. -/
theorem reap_spec (h : s.Lists xs) : ∃ s', fsNameCacheReap s = some s' ∧ s'.links = s.links ∧
    s'.freed = xs.reverse ++ s.freed ∧
    ∀ k, (s'.refcnt k + s.uses xs k) % 2 ^ 32 = s.refcnt k % 2 ^ 32 := by
  refine ⟨xs.foldl NameCache.giveBack s, ?_, foldl_giveBack_links xs s, foldl_giveBack_freed xs s,
    foldl_giveBack_counts xs s⟩
  rw [fsNameCacheReap, ring_first h.ring]
  exact reapNames_ring [] h.ring (Nat.lt_succ_of_le h.few)

theorem reapMeets_iff (h : s.Lists xs) : (∃ s', ReapMeets s xs s') ↔ xs = [] := by
  obtain ⟨s', hreap, hlinks, hfreed, hcounts⟩ := reap_spec h
  constructor
  · rintro ⟨s'', hmeets⟩
    obtain rfl := Option.some.inj (hreap.symm.trans hmeets.ends)
    have hempty := hmeets.emptied
    rw [hlinks, listEmpty_iff h.ring] at hempty
    exact List.map_eq_nil_iff.mp hempty
  · rintro rfl
    have hsame : fsNameCacheReap s = some s := by
      rw [fsNameCacheReap, ring_first h.ring]
      exact reapNames_ring [] h.ring (Nat.lt_succ_of_le h.few)
    refine ⟨s, hsame, (listEmpty_iff h.ring).mpr rfl, List.Perm.refl _, ?_, ?_, hsame⟩
    · simp [NameCache.uses]
    · intro parent name
      rw [fastLookup_entries h]
      rfl

theorem calls_of_reaped {refcnt : Nat → Nat} {calls : List NameCall}
    (hrun : run addStep (fsNameCacheInit refcnt) calls = some s) {s' : NameCache} (hxs : s.Lists xs)
    (hmeets : ReapMeets s xs s') : calls = [] := by
  obtain ⟨ys, hlists, hlen, -⟩ := run_adds (init_lists refcnt) hrun
  rw [List.append_nil] at hlists
  obtain rfl := (reapMeets_iff hxs).mp ⟨s', hmeets⟩
  have hempty := (hlists.ring.empty_iff).mp (hxs.ring.empty_iff.mpr rfl)
  rw [List.map_eq_nil_iff] at hempty
  rw [hempty] at hlen
  exact List.length_eq_zero_iff.mp hlen.symm

end reaping

/-- The list that `fs_name_cache_add_inode` builds is reaped as it should exactly when nothing was
added. -/
theorem name_cache_reaped_iff (refcnt : Nat → Nat) (calls : List NameCall) (s : NameCache)
    (hrun : run addStep (fsNameCacheInit refcnt) calls = some s) :
    (∃ xs s', s.Lists xs ∧ ReapMeets s xs s') ↔ calls = [] := by
  constructor
  · rintro ⟨xs, s', hxs, hmeets⟩
    exact calls_of_reaped hrun hxs hmeets
  · rintro rfl
    obtain rfl := Option.some.inj hrun
    obtain ⟨s', hmeets⟩ := (reapMeets_iff (init_lists refcnt)).mpr rfl
    exact ⟨[], s', init_lists refcnt, hmeets⟩

/-- The empty cache is reaped as it should. -/
theorem empty_cache_reaped : run addStep (fsNameCacheInit fun _ => 1) [] = some (fsNameCacheInit fun _ => 1) ∧
    ∃ xs s', (fsNameCacheInit fun _ => 1).Lists xs ∧ ReapMeets (fsNameCacheInit fun _ => 1) xs s' :=
  ⟨rfl, (name_cache_reaped_iff (fun _ => 1) [] _ rfl).mpr rfl⟩

/-- The name `a` for the inode 1 in the directory 0. -/
def oneName : NameCall := ⟨0, [⟨97, by decide⟩], 1⟩

/-- A second reap gives the only entry back again. -/
theorem reaped_name_given_back_twice :
    ((run addStep (fsNameCacheInit fun _ => 1) [oneName]).bind fsNameCacheReap).bind
        (fun s => (fsNameCacheReap s).map NameCache.freed) = some [0, 0] ∧
    ¬ ∀ (refcnt : Nat → Nat) (calls : List NameCall) (s : NameCache),
      run addStep (fsNameCacheInit refcnt) calls = some s → ∃ xs s', s.Lists xs ∧ ReapMeets s xs s' := by
  refine ⟨by decide +kernel, fun hall => ?_⟩
  obtain ⟨s, hrun⟩ : ∃ s, run addStep (fsNameCacheInit fun _ => 1) [oneName] = some s := ⟨_, rfl⟩
  obtain ⟨xs, s', hxs, hmeets⟩ := hall _ _ s hrun
  cases calls_of_reaped hrun hxs hmeets

end Lucix.Caches
