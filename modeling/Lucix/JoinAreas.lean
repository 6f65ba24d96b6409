import Lucix.GapSearch
import Lucix.PageFault
import Lucix.ListHead

/-! The loop of `try_join` on the links of the area list. `list_for_each_safe` saves the
next node before the body runs, and a join takes just that node off the list; so the
first join is followed by a visit to a node that is no longer there, whose links are
the poison pointers. -/
namespace Lucix.Mm
open Ring PageTable

/-- A pointer to a list node: the head of the list, an area, or a poison pointer. -/
inductive AreaNode where
  | head
  | area (i : Nat)
  | poison1
  | poison2
  deriving DecidableEq, Repr

/-- The links of the list, the areas, the counts of open files by their address and the areas that
were given back to `vm_area_cache`. -/
structure AreaList where
  links : Links AreaNode
  area : Nat → VmArea
  refcnt : Nat → Nat
  freed : List Nat

/-- The call `file_unref` on the file of an area, if it has one. -/
def AreaList.fileUnref (s : AreaList) (file : Option File) : AreaList :=
  match file with
  | none => s
  | some f => { s with refcnt := Function.update s.refcnt f.addr (pred32 (s.refcnt f.addr)) }

/-- The body of the loop on two neighbours. -/
def AreaList.joinPair (s : AreaList) (current next : Nat) : AreaList :=
  if (s.area current).Joins (s.area next) then
    let s := { s with
      area := Function.update s.area current { s.area current with endAddr := (s.area next).endAddr } }
    let s := s.fileUnref (s.area next).file
    { s with
      links := listDel s.links (.area next) .poison1 .poison2
      freed := next :: s.freed }
  else s

/-- A run of the loop: the areas that it visited, what it left, and whether it ended by following a
poison pointer. -/
structure JoinRun where
  visited : List Nat
  final : AreaList
  fault : Bool

/-- The loop with the cursor `pos` and the saved node `n`. -/
def tryJoinLoop : Nat → AreaList → AreaNode → AreaNode → Option JoinRun
  | 0, _, _, _ => none
  | fuel + 1, s, pos, n =>
      match pos with
      | .head => some ⟨[], s, false⟩
      | .area current =>
          match s.links.next pos with
          | .head => some ⟨[current], s, false⟩
          | .area next =>
              let s := s.joinPair current next
              (tryJoinLoop fuel s n (s.links.next n)).map fun r =>
                { r with visited := current :: r.visited }
          | _ => some ⟨[current], s, true⟩
      | _ => some ⟨[], s, true⟩

/-- The function `try_join` on a list of `n` areas. -/
def tryJoinList (s : AreaList) (n : Nat) : Option JoinRun :=
  tryJoinLoop (n + 1) s (s.links.next .head) (s.links.next (s.links.next .head))

/-- The list `xs` of areas as a list of the records. -/
def AreaList.areas (s : AreaList) (xs : List Nat) : List VmArea := xs.map s.area

/-- The areas are sorted and disjoint. -/
structure Sorted (areas : List VmArea) : Prop where
  nonempty : ∀ a ∈ areas, a.start < a.endAddr
  sorted : areas.Pairwise fun a b => a.endAddr ≤ b.start

/-- What `find_vma_for_address` says about an address: the file and the page of it that is mapped
there, and how. -/
def mappedAt (areas : List VmArea) (addr : Nat) : Option (Option File × Nat × Prot × VmFlags × VmOps) :=
  (findVmaForAddress addr areas).map fun a =>
    (a.file, (addr - a.start) / pageSize + a.fpgOff, a.prot, a.flags, a.vmOps)

/-- What `try_join` should do with the list `xs`: it ends, visits only areas that stay on the list,
keeps the order and what is mapped at every address; a merged area has its length, and each area
that is gone has dropped one reference to its file. -/
structure JoinMeets (s : AreaList) (xs : List Nat) (r : JoinRun) (ys : List Nat) : Prop where
  ends : tryJoinList s xs.length = some r ∧ r.fault = false
  ring : r.final.links.IsRing .head (ys.map .area)
  visits : ∀ i ∈ r.visited, i ∈ ys
  sorted : Sorted (s.areas xs) → Sorted (r.final.areas ys)
  mapped : ∀ addr, mappedAt (r.final.areas ys) addr = mappedAt (s.areas xs) addr
  lengths : ∀ i ∈ ys, r.final.area i ≠ s.area i →
    (r.final.area i).length = (r.final.area i).endAddr - (r.final.area i).start
  counts : ∀ f, r.final.refcnt f +
    (xs.filter fun i => decide (i ∉ ys ∧ (s.area i).file.map File.addr = some f)).length = s.refcnt f

/-- No two neighbours meet the condition of the join. -/
def NoneJoin (areas : List VmArea) : Prop := areas.IsChain fun a b => ¬ a.Joins b

section loop
variable {s : AreaList} {pre rest : List Nat} {c d fuel : Nat}

theorem joinPair_not (h : ¬ (s.area c).Joins (s.area d)) : s.joinPair c d = s := if_neg h

theorem fileUnref_links (file : Option File) : (s.fileUnref file).links = s.links := by
  cases file <;> rfl

theorem fileUnref_area (file : Option File) : (s.fileUnref file).area = s.area := by
  cases file <;> rfl

theorem joinPair_links (h : (s.area c).Joins (s.area d)) :
    (s.joinPair c d).links = listDel s.links (.area d) .poison1 .poison2 := by
  rw [AreaList.joinPair, if_pos h]
  dsimp only
  rw [fileUnref_links]

theorem joinPair_area (h : (s.area c).Joins (s.area d)) :
    (s.joinPair c d).area =
      Function.update s.area c { s.area c with endAddr := (s.area d).endAddr } := by
  rw [AreaList.joinPair, if_pos h]
  dsimp only
  rw [fileUnref_area]

theorem listDel_next {α : Type*} [DecidableEq α] (L : Links α) (x p q : α) :
    (listDel L x p q).next x = p := by
  simp [listDel]

theorem ring_next_last (hr : s.links.IsRing .head ((pre ++ [c]).map .area)) :
    s.links.next (.area c) = .head := by
  rw [List.map_append] at hr
  exact (Links.seg_append.mp hr.seg).2.1

theorem ring_next (hr : s.links.IsRing .head ((pre ++ c :: d :: rest).map .area)) :
    s.links.next (.area c) = .area d := by
  rw [List.map_append] at hr
  exact (Links.seg_append.mp hr.seg).2.1.1

theorem listDel_ring {L : Links AreaNode} {ys zs : List AreaNode} {x : AreaNode}
    (hr : L.IsRing .head (ys ++ x :: zs)) (p q : AreaNode) :
    (listDel L x p q).IsRing .head (ys ++ zs) := by
  have hne : ∀ n ∈ AreaNode.head :: (ys ++ zs), n ≠ x := by
    rintro n hn rfl
    have hnd := hr.nodup
    simp only [List.nodup_cons, List.nodup_middle, List.mem_append, List.mem_cons, not_or] at hnd hn
    rcases hn with rfl | hn | hn
    · exact hnd.1.2.1 rfl
    · exact hnd.2.1.1 hn
    · exact hnd.2.1.2 hn
  refine hr.remove.congr (fun n hn => ?_) fun n hn => ?_
  · simp only [listDel, Links.setPrev_next, Links.setNext_next, if_neg (hne n hn)]
    rfl
  · simp only [listDel, Links.setPrev_prev, Links.setNext_prev, if_neg (hne n hn)]
    rfl

theorem joinPair_areas (hnodup : (pre ++ c :: d :: rest).Nodup) (h : (s.area c).Joins (s.area d)) :
    (s.joinPair c d).areas (pre ++ c :: rest) =
      s.areas pre ++ { s.area c with endAddr := (s.area d).endAddr } :: s.areas rest := by
  have hc : ∀ i ∈ pre ++ rest, i ≠ c := by
    rintro i hi rfl
    have hnd := (List.nodup_middle.mp hnodup)
    exact (List.nodup_cons.mp hnd).1 (by
      rcases List.mem_append.mp hi with hi | hi
      · exact List.mem_append_left _ hi
      · exact List.mem_append_right _ (List.mem_cons_of_mem _ hi))
  have hsame : ∀ xs : List Nat, (∀ i ∈ xs, i ≠ c) →
      xs.map (Function.update s.area c { s.area c with endAddr := (s.area d).endAddr }) = xs.map s.area :=
    fun xs hxs => List.map_congr_left fun i hi => Function.update_of_ne (hxs i hi) _ _
  rw [AreaList.areas, joinPair_area h, List.map_append, List.map_cons, Function.update_self,
    hsame pre fun i hi => hc i (List.mem_append_left _ hi),
    hsame rest fun i hi => hc i (List.mem_append_right _ hi)]
  rfl

/-- Two areas that join are one afterwards, and the loop follows the poison in the other. -/
theorem tryJoinLoop_joins (hr : s.links.IsRing .head ((pre ++ c :: d :: rest).map .area))
    (hjoin : (s.area c).Joins (s.area d)) :
    tryJoinLoop (fuel + 2) s (.area c) (s.links.next (.area c)) = some ⟨[c, d], s.joinPair c d, true⟩ ∧
      (s.joinPair c d).links.IsRing .head ((pre ++ c :: rest).map .area) ∧
      (s.joinPair c d).areas (pre ++ c :: rest) =
        s.areas pre ++ (tryJoin (s.areas (c :: d :: rest))).1 ∧ d ∉ pre ++ c :: rest := by
  have hnext := ring_next hr
  have hnodup : (pre ++ c :: d :: rest).Nodup := List.Nodup.of_map _ (List.nodup_cons.mp hr.nodup).2
  have hpoison : (s.joinPair c d).links.next (.area d) = .poison1 := by
    rw [joinPair_links hjoin, listDel_next]
  refine ⟨?_, ?_, ?_, ?_⟩
  · simp only [tryJoinLoop, hnext, hpoison, Option.map_some]
  · rw [List.map_append, List.map_cons, List.map_cons, List.append_cons] at hr
    have hring := listDel_ring hr .poison1 .poison2
    rw [List.append_assoc, List.singleton_append, ← List.map_cons, ← List.map_append] at hring
    rwa [joinPair_links hjoin]
  · rw [joinPair_areas hnodup hjoin]
    simp only [AreaList.areas, List.map_cons, tryJoin, if_pos hjoin]
  · rw [List.append_cons, List.nodup_middle] at hnodup
    simpa using (List.nodup_cons.mp hnodup).1

theorem tryJoinLoop_apart (hr : s.links.IsRing .head ((pre ++ c :: d :: rest).map .area))
    (hjoin : ¬ (s.area c).Joins (s.area d)) :
    tryJoinLoop (fuel + 1) s (.area c) (s.links.next (.area c)) =
      (tryJoinLoop fuel s (.area d) (s.links.next (.area d))).map fun r =>
        { r with visited := c :: r.visited } := by
  simp only [tryJoinLoop, ring_next hr, joinPair_not hjoin]


/-- From area `c` on the loop visits every area as long as no two join; the first join is the end of
it, at the area that it has just taken off. -/
theorem tryJoinLoop_spec (hr : s.links.IsRing .head ((pre ++ c :: rest).map .area))
    (hfuel : rest.length < fuel) :
    (NoneJoin (s.areas (c :: rest)) ∧
      tryJoinLoop fuel s (.area c) (s.links.next (.area c)) = some ⟨c :: rest, s, false⟩) ∨
    (¬ NoneJoin (s.areas (c :: rest)) ∧ ∃ r ys,
      tryJoinLoop fuel s (.area c) (s.links.next (.area c)) = some r ∧ r.fault = true ∧
      r.final.links.IsRing .head ((pre ++ ys).map .area) ∧
      r.final.areas (pre ++ ys) = s.areas pre ++ (tryJoin (s.areas (c :: rest))).1 ∧
      ∃ i ∈ r.visited, i ∉ pre ++ ys) := by
  induction rest generalizing pre c fuel with
  | nil =>
      left
      obtain ⟨fuel, rfl⟩ := Nat.exists_eq_add_of_lt hfuel
      have hnext := ring_next_last hr
      refine ⟨List.isChain_singleton _, ?_⟩
      rw [tryJoinLoop]
      simp only [hnext]
  | cons d rest ih =>
      obtain ⟨fuel, rfl⟩ : ∃ k, fuel = k + 1 := ⟨fuel - 1, by omega⟩
      by_cases hjoin : (s.area c).Joins (s.area d)
      · right
        obtain ⟨fuel, rfl⟩ : ∃ k, fuel = k + 1 := ⟨fuel - 1, by simp at hfuel; omega⟩
        obtain ⟨hcall, hring, hareas, hd⟩ := tryJoinLoop_joins hr hjoin
        refine ⟨?_, _, c :: rest, hcall, rfl, hring, hareas, d, by simp, hd⟩
        intro hnone
        exact (List.isChain_cons_cons.mp hnone).1 hjoin
      · rw [tryJoinLoop_apart hr hjoin]
        rw [List.append_cons] at hr
        have hjoined : (tryJoin (s.areas (c :: d :: rest))).1 =
            s.area c :: (tryJoin (s.areas (d :: rest))).1 := by
          simp only [AreaList.areas, List.map_cons, tryJoin, if_neg hjoin]
        rcases ih hr (by simp at hfuel; omega) with
          ⟨hnone, hcall⟩ | ⟨hnot, r, ys, hcall, hfault, hring, hareas, hgone⟩
        · left
          refine ⟨List.isChain_cons_cons.mpr ⟨hjoin, hnone⟩, ?_⟩
          rw [hcall]
          rfl
        · right
          refine ⟨fun hnone => hnot (List.isChain_cons_cons.mp hnone).2,
            { r with visited := c :: r.visited }, c :: ys, ?_, hfault, ?_, ?_, ?_⟩
          · rw [hcall]
            rfl
          · rwa [List.append_cons]
          · rw [List.append_cons, hareas, hjoined]
            simp [AreaList.areas]
          · obtain ⟨i, hi, hout⟩ := hgone
            refine ⟨i, List.mem_cons_of_mem _ hi, ?_⟩
            rwa [List.append_cons]

end loop

/-- On every list of areas `try_join` does what it should exactly when it joins nothing. -/
theorem join_meets_iff (s : AreaList) (xs : List Nat) (hr : s.links.IsRing .head (xs.map .area)) :
    (∃ r ys, JoinMeets s xs r ys) ↔ NoneJoin (s.areas xs) := by
  have hunchanged : tryJoinList s xs.length = some ⟨xs, s, false⟩ → ∃ r ys, JoinMeets s xs r ys := by
    intro hcall
    refine ⟨⟨xs, s, false⟩, xs, ⟨hcall, rfl⟩, hr, fun i hi => hi, id, fun _ => rfl,
      fun i _ hne => absurd rfl hne, fun f => ?_⟩
    have hnone : (xs.filter fun i => decide (i ∉ xs ∧ (s.area i).file.map File.addr = some f)) = [] := by
      rw [List.filter_eq_nil_iff]
      intro i hi
      simp [hi]
    rw [hnone]
    rfl
  cases xs with
  | nil =>
      have hhead : s.links.next .head = .head := hr.seg.1
      refine iff_of_true (hunchanged ?_) List.isChain_nil
      simp only [tryJoinList, hhead, tryJoinLoop]
  | cons c rest =>
      have hhead : s.links.next .head = .area c := hr.next_head
      have hloop : tryJoinList s (c :: rest).length =
          tryJoinLoop ((c :: rest).length + 1) s (.area c) (s.links.next (.area c)) := by
        rw [tryJoinList, hhead]
      rcases @tryJoinLoop_spec s [] rest c ((c :: rest).length + 1) hr (by simp) with
        ⟨hnone, hcall⟩ | ⟨hnot, r, ys, hcall, hfault, -⟩
      · exact iff_of_true (hunchanged (hloop.trans hcall)) hnone
      · refine iff_of_false ?_ hnot
        rintro ⟨r', ys', hmeets⟩
        have hends := hmeets.ends
        rw [hloop, hcall, Option.some.injEq] at hends
        obtain ⟨rfl, hok⟩ := hends
        rw [hfault] at hok
        contradiction

/-- A list of two areas. -/
def twoAreas (first second : VmArea) : AreaList where
  links := {
    next := fun
      | .head => .area 0
      | .area 0 => .area 1
      | _ => .head
    prev := fun
      | .head => .area 1
      | .area 1 => .area 0
      | _ => .head }
  area := fun i => if i = 0 then first else second
  refcnt := fun _ => 0
  freed := []

theorem twoAreas_ring (first second : VmArea) :
    (twoAreas first second).links.IsRing .head ([0, 1].map .area) :=
  ⟨⟨⟨rfl, rfl⟩, ⟨rfl, rfl⟩, ⟨rfl, rfl⟩⟩, by decide⟩

/-- Two areas with a page between them are left alone. -/
theorem join_meets_apart : ∃ r ys,
    JoinMeets (twoAreas (plainArea 0x400000 0x401000) (plainArea 0x402000 0x403000)) [0, 1] r ys := by
  refine (join_meets_iff _ _ (twoAreas_ring _ _)).mpr ?_
  refine List.isChain_cons_cons.mpr ⟨by decide, List.isChain_singleton _⟩

/-- Two anonymous areas that touch: the loop goes on to the second one after it was taken off the
list and freed. -/
theorem touching_areas_fault : ¬ ∀ (s : AreaList) (xs : List Nat),
    s.links.IsRing .head (xs.map .area) → Sorted (s.areas xs) → ∃ r ys, JoinMeets s xs r ys := by
  intro h
  obtain ⟨r, ys, hmeets⟩ := h
    (twoAreas (plainArea 0x400000 0x401000) (plainArea 0x401000 0x402000)) [0, 1] (twoAreas_ring _ _)
    ⟨by decide, by decide⟩
  have hfault : (tryJoinList (twoAreas (plainArea 0x400000 0x401000) (plainArea 0x401000 0x402000))
      2).map JoinRun.fault = some true := by decide
  have hends := hmeets.ends
  rw [show [0, 1].length = 2 from rfl] at hends
  rw [hends.1, Option.map_some, hends.2] at hfault
  contradiction

end Lucix.Mm
