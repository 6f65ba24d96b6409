import Lucix.NameReap

/-!
# The inode cache on its links, `fs/inocache.c`

`ino_cache_reap` walks the list with `list_for_each`, which reads the link of a node
after the body has run; the body takes an unused inode's node off the list and leaves
a poison pointer in that link.
-/
namespace Lucix.Caches
open Ring Execution

/-- The list, the fields of the entries, number and count of the inodes, how many entries were handed
out, and the entries and inodes that were given back, the last one first. -/
structure InoCache where
  links : Links CacheNode
  sb : Nat → Nat
  ino : Nat → Nat
  id : Nat → Nat
  refcnt : Nat → Nat
  next : Nat
  freedEntries : List Nat
  freedInodes : List Nat

def inoCacheInit (id refcnt : Nat → Nat) : InoCache where
  links := ⟨fun _ => .head, fun _ => .head⟩
  sb := fun _ => 0
  ino := fun _ => 0
  id := id
  refcnt := refcnt
  next := 0
  freedEntries := []
  freedInodes := []

def inoCacheInsert (s : InoCache) (sb ino : Nat) : InoCache :=
  { s with
    next := s.next + 1
    ino := Function.update s.ino s.next ino
    sb := Function.update s.sb s.next sb
    links := listAdd s.links (.entry s.next) .head }

/-- The function `ino_cache_get`; `none` when it leaves the list. -/
def inoCacheGet (s : InoCache) (sb inodeNumber : Nat) : Option (Option Nat) :=
  (scan s.links (fun i => decide (s.id (s.ino i) = inodeNumber) && decide (s.sb i = sb)) (s.next + 1)
    (s.links.next .head)).map fun found => found.map s.ino

/-- A node is taken off the list, and its inode and its entry are given back. -/
def InoCache.remove (s : InoCache) (i : Nat) : InoCache :=
  { s with
    links := listDel s.links (.entry i) .poison1 .poison2
    freedInodes := s.ino i :: s.freedInodes
    freedEntries := i :: s.freedEntries }

/-- A run of the loop: the entries whose link it followed, what it left, and whether it ended by
reading through a poison pointer. -/
structure ReapRun where
  followed : List Nat
  final : InoCache
  fault : Bool

def reapInodes : Nat → InoCache → CacheNode → Option ReapRun
  | 0, _, _ => none
  | fuel + 1, s, pos =>
      match pos with
      | .head => some ⟨[], s, false⟩
      | .entry i =>
          let s := if s.refcnt (s.ino i) ≠ 0 then s else s.remove i
          (reapInodes fuel s (s.links.next pos)).map fun r => { r with followed := i :: r.followed }
      | _ => some ⟨[], s, true⟩

def inoCacheReap (s : InoCache) : Option ReapRun := reapInodes (s.next + 1) s (s.links.next .head)

structure InodeCall where
  sb : Nat
  ino : Nat

def insertAll (s : InoCache) (calls : List InodeCall) : InoCache :=
  calls.foldl (fun s c => inoCacheInsert s c.sb c.ino) s

/-! ### The list of a cache -/

structure InoCache.Lists (s : InoCache) (xs : List Nat) : Prop where
  ring : s.links.IsRing .head (xs.map .entry)
  below : ∀ i ∈ xs, i < s.next
  few : xs.length ≤ s.next

/-- The inode of the entry is in use. -/
def InoCache.Used (s : InoCache) (i : Nat) : Prop := s.refcnt (s.ino i) ≠ 0

instance (s : InoCache) : DecidablePred s.Used := fun _ => inferInstanceAs (Decidable (_ ≠ _))

/-- What reaping the list `xs` should do. -/
structure InodesMeet (s : InoCache) (xs : List Nat) (r : ReapRun) : Prop where
  ends : inoCacheReap s = some r ∧ r.fault = false
  follows : ∀ i ∈ r.followed, i ∈ xs ∧ s.Used i
  kept : r.final.links.IsRing .head ((xs.filter fun i => decide (s.Used i)).map .entry)
  entries : r.final.freedEntries.Perm ((xs.filter fun i => decide (¬ s.Used i)) ++ s.freedEntries)
  inodes : r.final.freedInodes.Perm
    (((xs.filter fun i => decide (¬ s.Used i)).map s.ino).dedup ++ s.freedInodes)
  answers : ∀ sb inodeNumber i, inoCacheGet s sb inodeNumber = some (some i) → s.refcnt i ≠ 0 →
    inoCacheGet r.final sb inodeNumber = some (some i)
  removed : ∀ sb inodeNumber i, inoCacheGet r.final sb inodeNumber = some (some i) → s.refcnt i ≠ 0

section lists
variable {s : InoCache} {xs pre rest : List Nat} {fuel : Nat}

theorem init_inodes (id refcnt : Nat → Nat) : (inoCacheInit id refcnt).Lists [] :=
  ⟨Links.isRing_nil.mpr ⟨rfl, rfl⟩, by simp, Nat.zero_le _⟩

theorem InoCache.Lists.insert (h : s.Lists xs) (sb ino : Nat) :
    (inoCacheInsert s sb ino).Lists (s.next :: xs) := by
  obtain ⟨hfresh, hbelow⟩ := fresh_entry h.below
  exact ⟨listAdd_ring h.ring hfresh, hbelow, Nat.succ_le_succ h.few⟩

/-- A run of insertions: the entries of the list stand for the calls. -/
theorem insertAll_lists (h : s.Lists xs) (calls : List InodeCall) :
    ∃ ys, (insertAll s calls).Lists (ys ++ xs) ∧ (insertAll s calls).refcnt = s.refcnt ∧
      (ys ++ xs).map (insertAll s calls).ino = (calls.map InodeCall.ino).reverse ++ xs.map s.ino := by
  induction calls generalizing s xs with
  | nil => exact ⟨[], h, rfl, rfl⟩
  | cons c calls ih =>
      obtain ⟨ys, hlists, hcounts, hinodes⟩ := ih (h.insert c.sb c.ino)
      have hnew : (s.next :: xs).map (inoCacheInsert s c.sb c.ino).ino = c.ino :: xs.map s.ino := by
        rw [List.map_cons, inoCacheInsert]
        congr 1
        · simp
        · apply List.map_congr_left
          intro i hi
          simp [Nat.ne_of_lt (h.below i hi)]
      refine ⟨ys ++ [s.next], ?_, hcounts, ?_⟩
      · rwa [List.append_assoc, List.singleton_append]
      · rw [List.append_assoc, List.singleton_append]
        refine hinodes.trans ?_
        rw [hnew]
        simp

theorem reapInodes_used (pre : List Nat) (hr : s.links.IsRing .head ((pre ++ rest).map .entry))
    (hused : ∀ i ∈ rest, s.Used i) (hfuel : rest.length < fuel) :
    reapInodes fuel s (((rest.map .entry).head?).getD .head) = some ⟨rest, s, false⟩ := by
  induction rest generalizing pre fuel with
  | nil =>
      obtain ⟨fuel, rfl⟩ := Nat.exists_eq_add_of_le' hfuel
      rfl
  | cons i rest ih =>
      obtain ⟨fuel, rfl⟩ := Nat.exists_eq_add_of_le' (Nat.zero_lt_of_lt hfuel)
      have hi : s.refcnt (s.ino i) ≠ 0 := hused i List.mem_cons_self
      rw [List.map_cons, List.head?_cons, Option.getD_some, reapInodes]
      simp only [if_pos hi]
      have hring : s.links.IsRing .head ((pre ++ [i] ++ rest).map .entry) := by
        rwa [List.append_assoc, List.singleton_append]
      rw [ring_next_entry hr, ih (pre ++ [i]) hring (fun j hj => hused j (List.mem_cons_of_mem i hj))
        (by simpa using hfuel)]
      rfl

/-- The first unused inode sends the loop through the poison pointer. -/
theorem reapInodes_unused (pre : List Nat) (hr : s.links.IsRing .head ((pre ++ rest).map .entry))
    {i : Nat} (hi : i ∈ rest) (hunused : ¬ s.Used i) (hfuel : rest.length < fuel) :
    ∃ r, reapInodes fuel s (((rest.map .entry).head?).getD .head) = some r ∧ r.fault = true := by
  induction rest generalizing pre fuel with
  | nil => exact absurd hi List.not_mem_nil
  | cons j rest ih =>
      obtain ⟨fuel, rfl⟩ := Nat.exists_eq_add_of_le' (Nat.zero_lt_of_lt hfuel)
      rw [List.map_cons, List.head?_cons, Option.getD_some, reapInodes]
      by_cases hj : s.refcnt (s.ino j) ≠ 0
      · have hmem : i ∈ rest := by
          rcases List.mem_cons.mp hi with rfl | hmem
          · exact absurd hj hunused
          · exact hmem
        have hring : s.links.IsRing .head ((pre ++ [j] ++ rest).map .entry) := by
          rwa [List.append_assoc, List.singleton_append]
        obtain ⟨r, hr', hfault⟩ := ih (pre ++ [j]) hring hmem (Nat.succ_lt_succ_iff.mp hfuel)
        simp only [if_pos hj]
        rw [ring_next_entry hr, hr']
        exact ⟨_, rfl, hfault⟩
      · have hpoison : (s.remove j).links.next (.entry j) = .poison1 := by
          simp [InoCache.remove, listDel]
        simp only [if_neg hj, hpoison]
        obtain ⟨fuel, rfl⟩ : ∃ k, fuel = k + 1 :=
          Nat.exists_eq_add_of_le' (Nat.zero_lt_of_lt (Nat.succ_lt_succ_iff.mp hfuel))
        exact ⟨_, rfl, rfl⟩

theorem inoCacheGet_used (h : s.Lists xs) (hused : ∀ i ∈ xs, s.Used i) {sb inodeNumber i : Nat}
    (hget : inoCacheGet s sb inodeNumber = some (some i)) : s.refcnt i ≠ 0 := by
  rw [inoCacheGet, ring_first h.ring, scan_ring [] h.ring (Nat.lt_succ_of_le h.few), Option.map_some,
    Option.some.injEq] at hget
  obtain ⟨j, hj, rfl⟩ := Option.map_eq_some_iff.mp hget
  exact hused j (List.mem_of_find?_eq_some hj)

theorem inodesMeet_iff (h : s.Lists xs) : (∃ r, InodesMeet s xs r) ↔ ∀ i ∈ xs, s.Used i := by
  have hfuel : xs.length < s.next + 1 := Nat.lt_succ_of_le h.few
  constructor
  · rintro ⟨r, hmeets⟩
    by_contra hnot
    push Not at hnot
    obtain ⟨i, hi, hunused⟩ := hnot
    obtain ⟨r', hrun, hfault⟩ := reapInodes_unused [] h.ring hi hunused hfuel
    rw [← ring_first h.ring] at hrun
    obtain ⟨hends, hok⟩ := hmeets.ends
    obtain rfl := Option.some.inj (hrun.symm.trans hends)
    cases hfault.symm.trans hok
  · intro hused
    have hrun := reapInodes_used [] h.ring hused hfuel
    rw [← ring_first h.ring] at hrun
    have hkept : (xs.filter fun i => decide (s.Used i)) = xs := by
      rw [List.filter_eq_self]
      exact fun i hi => decide_eq_true (hused i hi)
    have hgone : (xs.filter fun i => decide (¬ s.Used i)) = [] := by
      rw [List.filter_eq_nil_iff]
      intro i hi
      simpa using hused i hi
    refine ⟨⟨xs, s, false⟩, ⟨hrun, rfl⟩, fun i hi => ⟨hi, hused i hi⟩, ?_, ?_, ?_, ?_, ?_⟩
    · rw [hkept]
      exact h.ring
    · rw [hgone]
      exact List.Perm.refl _
    · rw [hgone]
      exact List.Perm.refl _
    · exact fun _ _ _ hget _ => hget
    · exact fun _ _ _ hget => inoCacheGet_used h hused hget

theorem InoCache.Lists.unique {ys : List Nat} (h : s.Lists xs) (h' : s.Lists ys) : xs = ys := by
  have hfew : (xs.map CacheNode.entry).length < s.next + 1 := by simpa using Nat.lt_succ_of_le h.few
  have hfew' : (ys.map CacheNode.entry).length < s.next + 1 := by simpa using Nat.lt_succ_of_le h'.few
  have hwalk := h.ring.walk hfew
  have hwalk' := h'.ring.walk hfew'
  have hsame := Option.some.inj (hwalk.symm.trans hwalk')
  exact List.map_injective_iff.mpr (fun i j hij => CacheNode.entry.inj hij) hsame

end lists

/-- The list that `ino_cache_insert` builds is reaped as it should exactly when every inode on it is
in use. -/
theorem inode_cache_reaped_iff (id refcnt : Nat → Nat) (calls : List InodeCall) :
    (∃ xs r, (insertAll (inoCacheInit id refcnt) calls).Lists xs ∧
      InodesMeet (insertAll (inoCacheInit id refcnt) calls) xs r) ↔ ∀ c ∈ calls, refcnt c.ino ≠ 0 := by
  obtain ⟨ys, hlists, hcounts, hinodes⟩ := insertAll_lists (init_inodes id refcnt) calls
  rw [List.append_nil] at hlists
  have hused : (∀ i ∈ ys, (insertAll (inoCacheInit id refcnt) calls).Used i) ↔ ∀ c ∈ calls, refcnt c.ino ≠ 0 := by
    have hall : (∀ n ∈ ys.map (insertAll (inoCacheInit id refcnt) calls).ino, refcnt n ≠ 0) ↔
        ∀ n ∈ calls.map InodeCall.ino, refcnt n ≠ 0 := by
      rw [List.append_nil, List.map_nil, List.append_nil] at hinodes
      rw [hinodes]
      simp only [List.mem_reverse]
    simp only [List.forall_mem_map] at hall
    rw [← hall]
    simp only [InoCache.Used, hcounts]
    rfl
  rw [← hused, ← inodesMeet_iff hlists]
  constructor
  · rintro ⟨xs, r, hxs, hmeets⟩
    obtain rfl := hxs.unique hlists
    exact ⟨r, hmeets⟩
  · rintro ⟨r, hmeets⟩
    exact ⟨ys, r, hlists, hmeets⟩

/-- One unused inode on the list: the loop removes it and then reads through the poison pointer. -/
theorem unused_inode_faults :
    (inoCacheReap (insertAll (inoCacheInit id fun _ => 0) [⟨0, 1⟩])).map ReapRun.fault = some true ∧
    ¬ ∀ (id refcnt : Nat → Nat) (calls : List InodeCall), ∃ xs r,
      (insertAll (inoCacheInit id refcnt) calls).Lists xs ∧
        InodesMeet (insertAll (inoCacheInit id refcnt) calls) xs r := by
  have hfault : (inoCacheReap (insertAll (inoCacheInit id fun _ => 0) [⟨0, 1⟩])).map ReapRun.fault = some true := by
    decide +kernel
  refine ⟨hfault, fun hall => ?_⟩
  obtain ⟨xs, r, -, hmeets⟩ := hall id (fun _ => 0) [⟨0, 1⟩]
  obtain ⟨hends, hok⟩ := hmeets.ends
  rw [hends, Option.map_some, hok] at hfault
  cases hfault

end Lucix.Caches
