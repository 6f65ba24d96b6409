import Lucix.PageTable
import Lucix.Execution

/-! What mapping one page does to the tables of a process. Below the user half of a
top-level table the tables are labelled by the process and the indices that lead to
them, so no table belongs to two processes or two slots; `cpu_mm_map_page` changes
exactly the leaf entry of its page. -/
namespace Lucix.PageTable
open RadixTable Execution

/-! ### Index and frame arithmetic -/

theorem shifted_mask (x k n m : Nat) (hm : m >>> k = 2 ^ n - 1) : (x &&& m) >>> k = x / 2 ^ k % 2 ^ n := by
  rw [Nat.shiftRight_and_distrib, hm, Nat.and_two_pow_sub_one_eq_mod, Nat.shiftRight_eq_div_pow]

theorem pml4FromVa_eq (va : Nat) : pml4FromVa va = va / 2 ^ 39 % 2 ^ 9 :=
  shifted_mask va 39 9 _ (by decide)

theorem pdptFromVa_eq (va : Nat) : pdptFromVa va = va / 2 ^ 30 % 2 ^ 9 :=
  shifted_mask va 30 9 _ (by decide)

theorem pdetFromVa_eq (va : Nat) : pdetFromVa va = va / 2 ^ 21 % 2 ^ 9 :=
  shifted_mask va 21 9 _ (by decide)

theorem pteFromVa_eq (va : Nat) : pteFromVa va = va / 2 ^ 12 % 2 ^ 9 :=
  shifted_mask va 12 9 _ (by decide)

theorem pageFrame_eq (x : Nat) : pageFrame x = x / 2 ^ 12 % 2 ^ 36 * 2 ^ 12 := by
  have hhigh : pageFrame x / 2 ^ 12 = x / 2 ^ 12 % 2 ^ 36 := by
    rw [← Nat.shiftRight_eq_div_pow]
    exact shifted_mask x 12 36 _ (by decide)
  have hlow : pageFrame x % 2 ^ 12 = 0 := by
    rw [← Nat.and_two_pow_sub_one_eq_mod, pageFrame, Nat.and_assoc]
    exact Nat.and_zero x
  have hsplit := Nat.div_add_mod (pageFrame x) (2 ^ 12)
  rw [hhigh, hlow] at hsplit
  rw [← hsplit]
  ring

theorem pageFrame_eq_iff (va va' : Nat) : pageFrame va = pageFrame va' ↔
    pml4FromVa va = pml4FromVa va' ∧ pdptFromVa va = pdptFromVa va' ∧
      pdetFromVa va = pdetFromVa va' ∧ pteFromVa va = pteFromVa va' := by
  simp only [pageFrame_eq, pml4FromVa_eq, pdptFromVa_eq, pdetFromVa_eq, pteFromVa_eq]
  omega

theorem pageFrame_of_page {p : Nat} (halign : p % 2 ^ 12 = 0) (hlt : p < 2 ^ 48) : pageFrame p = p := by
  rw [pageFrame_eq]
  omega

theorem pageFrame_pageFrame (x : Nat) : pageFrame (pageFrame x) = pageFrame x := by
  rw [pageFrame, pageFrame, Nat.and_assoc]
  rfl

theorem pageFrame_or (x : Nat) {flags : Nat} (hflags : pageFrame flags = 0) :
    pageFrame (pageFrame x ||| flags) = pageFrame x := by
  have hor : pageFrame (pageFrame x ||| flags) = pageFrame (pageFrame x) ||| pageFrame flags :=
    Nat.and_or_distrib_right _ _ _
  rw [hor, hflags, Nat.or_zero, pageFrame_pageFrame]

theorem frame_or_and (x flags : Nat) {bit : Nat} (hbit : pageFrame bit = 0) :
    (pageFrame x ||| flags) &&& bit = flags &&& bit := by
  have hzero : pageFrame x &&& bit = 0 := by
    rw [pageFrame, Nat.and_assoc, Nat.and_comm 0x0000fffffffff000 bit]
    exact (congrArg (x &&& ·) hbit).trans (Nat.and_zero x)
  rw [Nat.and_or_distrib_right, hzero, Nat.zero_or]

theorem pa2va_va2pa (va : Nat) : pa2va (va2pa va) = va := by
  simp [va2pa, pa2va]

/-! ### Entries as links -/

/-- The flags of an entry that links to a table. -/
def linkFlags : Nat := presentFlag ||| rwFlag ||| userFlag

def entryFormat : Format Nat Nat where
  empty := 0
  link := fun u => pageFrame (va2pa u) ||| linkFlags
  target := fun w => if w &&& presentFlag = 0 then none else some (pa2va (pageFrame w))
  Valid := fun u => pageFrame (va2pa u) = va2pa u
  target_empty := by simp
  target_link := by
    intro u hu
    have hpresent : (pageFrame (va2pa u) ||| linkFlags) &&& presentFlag = linkFlags &&& presentFlag :=
      frame_or_and _ _ (by decide)
    have hframe : pageFrame (pageFrame (va2pa u) ||| linkFlags) = va2pa u := by
      rw [pageFrame_or _ (by decide), hu]
    rw [hpresent, hframe, pa2va_va2pa]
    rfl

section tableAt
variable {pages : Nat → Nat} {s : Tables} {t i : Nat}

/-- The block at the upper levels is the library's `descend`. -/
theorem tableAt_eq (pages : Nat → Nat) (s : Tables) (t i : Nat) :
    s.tableAt pages t i =
      ((descend entryFormat s.mem t i (pages s.next)).1,
        ⟨(descend entryFormat s.mem t i (pages s.next)).2,
          if s.mem t i &&& presentFlag = 0 then s.next + 1 else s.next⟩) := by
  unfold Tables.tableAt RadixTable.descend
  by_cases hpresent : s.mem t i &&& presentFlag = 0
  · have htarget : entryFormat.target (s.mem t i) = none := if_pos hpresent
    rw [htarget]
    simp only [hpresent, if_true, Tables.allocPage, Tables.set, clear, Nat.or_assoc]
    rfl
  · have htarget : entryFormat.target (s.mem t i) = some (pa2va (pageFrame (s.mem t i))) :=
      if_neg hpresent
    rw [htarget]
    simp only [hpresent, if_false]

theorem forWhile_once {σ : Type} {cond : σ → Bool} {body : Nat → σ → σ} {n i : Nat} {s : σ}
    (hstart : cond s = true) (hstop : cond (body i s) = false) :
    forWhile cond body (n + 1) i s = body i s := by
  rw [forWhile, if_pos hstart]
  cases n with
  | zero => rfl
  | succ n => rw [forWhile, if_neg (by simp [hstop])]

/-- The table that a path leads to, its tables allocated on the way. -/
def Tables.tableOn (pages : Nat → Nat) (s : Tables) (t : Nat) : List Nat → Nat × Tables
  | [] => (t, s)
  | i :: path => (s.tableAt pages t i).2.tableOn pages (s.tableAt pages t i).1 path

/-- The indices that lead to the table with the leaf entry of an address. -/
def vaPath (vaddr : Nat) : List Nat := [pml4FromVa vaddr, pdptFromVa vaddr, pdetFromVa vaddr]

/-- The loop state in which no page has been mapped yet. -/
def MapLoop.start (s : Tables) (vaddr : Nat) : MapLoop :=
  ⟨s, 0, pdptFromVa vaddr, pdetFromVa vaddr, pteFromVa vaddr⟩

/-- The entry of the page that comes after `k` others. -/
def MapArgs.entry (a : MapArgs) (k : Nat) : Nat :=
  pageFrame (wrap64 (a.physAddr + k * a.pgsize)) ||| presentFlag ||| rwFlag |||
    if a.prot.user then userFlag else 0

/-- The first `n` entries of a range, from an index of its table on. -/
def Tables.setEntries (s : Tables) (table i : Nat) (entry : Nat → Nat) : Nat → Tables
  | 0 => s
  | n + 1 => (s.setEntries table i entry n).set table (i + n) (entry n)

/-- Setting one leaf entry, its tables allocated on the way. -/
def Tables.setLeaf (pages : Nat → Nat) (s : Tables) (pgtable vaddr entry : Nat) : Tables :=
  (s.tableOn pages pgtable (vaPath vaddr)).2.set (s.tableOn pages pgtable (vaPath vaddr)).1
    (pteFromVa vaddr) entry

section within
variable {a : MapArgs}

theorem forWhile_first (hsome : 0 < a.numPages) {body : Nat → MapLoop → MapLoop}
    {i : Nat} {s : MapLoop} (hi : i < 512) (hzero : s.pageCount = 0)
    (hbody : (body i s).pageCount = a.numPages) : forWhile a.more body (512 - i) i s = body i s := by
  obtain ⟨n, hn⟩ : ∃ n, 512 - i = n + 1 := ⟨511 - i, by omega⟩
  rw [hn]
  apply forWhile_once
  · simp [MapArgs.more, hsome, hzero]
  · simp [MapArgs.more, hbody]

theorem forWhile_mapPte {s : Tables} {pte i pdpti pdeti ptei fuel k : Nat}
    (hk : k ≤ a.numPages) (hfuel : a.numPages - k ≤ fuel) :
    forWhile a.more (mapPte a pte) fuel (i + k) ⟨s.setEntries pte i a.entry k, k, pdpti, pdeti, ptei⟩ =
      ⟨s.setEntries pte i a.entry a.numPages, a.numPages, pdpti, pdeti, ptei⟩ := by
  induction fuel generalizing k with
  | zero =>
      obtain rfl : k = a.numPages := by omega
      rfl
  | succ fuel ih =>
      by_cases hmore : k < a.numPages
      · have hbody : mapPte a pte (i + k) ⟨s.setEntries pte i a.entry k, k, pdpti, pdeti, ptei⟩ =
            ⟨s.setEntries pte i a.entry (k + 1), k + 1, pdpti, pdeti, ptei⟩ := rfl
        rw [forWhile, if_pos (by simpa [MapArgs.more] using hmore), hbody, Nat.add_assoc]
        exact ih (by omega) (by omega)
      · obtain rfl : k = a.numPages := by omega
        rw [forWhile, if_neg (by simp [MapArgs.more])]

variable (pages : Nat → Nat) {vaddr : Nat} (hsmall : a.big = false) (hsome : 0 < a.numPages)
  (hfit : pteFromVa vaddr + a.numPages ≤ 512)
include hsmall hsome hfit

theorem mapPdet_within (s : Tables) (pdet : Nat) :
    mapPdet pages a pdet (pdetFromVa vaddr) (MapLoop.start s vaddr) =
      ⟨(s.tableOn pages pdet [pdetFromVa vaddr]).2.setEntries
          (s.tableOn pages pdet [pdetFromVa vaddr]).1 (pteFromVa vaddr) a.entry a.numPages,
        a.numPages, pdptFromVa vaddr, pdetFromVa vaddr, 0⟩ := by
  have hloop := @forWhile_mapPte a (s.tableAt pages pdet (pdetFromVa vaddr)).2
    (s.tableAt pages pdet (pdetFromVa vaddr)).1 (pteFromVa vaddr) (pdptFromVa vaddr)
    (pdetFromVa vaddr) (pteFromVa vaddr) (512 - pteFromVa vaddr) 0 (by omega) (by omega)
  unfold mapPdet
  rw [if_neg (by simp [hsmall])]
  simp only [MapLoop.start]
  rw [Nat.add_zero] at hloop
  exact congrArg (fun s : MapLoop => { s with ptei := 0 }) hloop

theorem mapPdpt_within (s : Tables) (pdpt : Nat) :
    mapPdpt pages a pdpt (pdptFromVa vaddr) (MapLoop.start s vaddr) =
      ⟨(s.tableOn pages pdpt [pdptFromVa vaddr, pdetFromVa vaddr]).2.setEntries
          (s.tableOn pages pdpt [pdptFromVa vaddr, pdetFromVa vaddr]).1 (pteFromVa vaddr)
          a.entry a.numPages,
        a.numPages, pdptFromVa vaddr, 0, 0⟩ := by
  have hpdet : pdetFromVa vaddr < 512 := pdetFromVa_eq vaddr ▸ Nat.mod_lt _ (by norm_num)
  have hbody := mapPdet_within pages hsmall hsome hfit (s.tableAt pages pdpt (pdptFromVa vaddr)).2
    (s.tableAt pages pdpt (pdptFromVa vaddr)).1
  unfold mapPdpt
  simp only [MapLoop.start] at hbody ⊢
  rw [forWhile_first hsome hpdet rfl (congrArg MapLoop.pageCount hbody), hbody]
  rfl

theorem mapPml4_within (s : Tables) (pml4 : Nat) :
    mapPml4 pages a pml4 (pml4FromVa vaddr) (MapLoop.start s vaddr) =
      ⟨(s.tableOn pages pml4 (vaPath vaddr)).2.setEntries (s.tableOn pages pml4 (vaPath vaddr)).1
          (pteFromVa vaddr) a.entry a.numPages,
        a.numPages, 0, 0, 0⟩ := by
  have hpdpt : pdptFromVa vaddr < 512 := pdptFromVa_eq vaddr ▸ Nat.mod_lt _ (by norm_num)
  have hbody := mapPdpt_within pages hsmall hsome hfit (s.tableAt pages pml4 (pml4FromVa vaddr)).2
    (s.tableAt pages pml4 (pml4FromVa vaddr)).1
  unfold mapPml4
  simp only [MapLoop.start] at hbody ⊢
  rw [forWhile_first hsome hpdpt rfl (congrArg MapLoop.pageCount hbody), hbody]
  rfl

end within

/-- Mapping a range inside one page table goes down three levels and writes its entries. -/
theorem mapContiguous_within (pages : Nat → Nat) (s : Tables) (pgtable : Nat) {physAddr vaddr size : Nat}
    {prot : Prot} (hsize : pml4FromVa size = 0)
    (hsome : 0 < (MapArgs.mk physAddr size false prot).numPages)
    (hfit : pteFromVa vaddr + (MapArgs.mk physAddr size false prot).numPages ≤ 512) :
    mapContiguous pages s pgtable physAddr vaddr size false prot =
      some ((s.tableOn pages pgtable (vaPath vaddr)).2.setEntries
        (s.tableOn pages pgtable (vaPath vaddr)).1 (pteFromVa vaddr)
        (MapArgs.mk physAddr size false prot).entry (MapArgs.mk physAddr size false prot).numPages) := by
  have hlt : pml4FromVa vaddr < 512 := pml4FromVa_eq vaddr ▸ Nat.mod_lt _ (by norm_num)
  have hbody := mapPml4_within pages rfl hsome hfit s pgtable
  unfold mapContiguous
  simp only [hsize, Nat.add_zero, if_pos hlt, forWhile, if_true]
  exact congrArg some (congrArg MapLoop.tables hbody)

/-- The entry that maps a page. -/
def pteEntry (physAddr : Nat) (prot : Prot) : Nat :=
  pageFrame (wrap64 physAddr) ||| presentFlag ||| rwFlag ||| if prot.user then userFlag else 0

theorem cpuMmMapPage_eq (pages : Nat → Nat) (physAddr vaddr : Nat) (prot : Prot) (s : Tables)
    (pgtable : Nat) :
    cpuMmMapPage pages s pgtable physAddr vaddr prot =
      some (s.setLeaf pages pgtable vaddr (pteEntry physAddr prot)) := by
  have hlt : pteFromVa vaddr < 512 := pteFromVa_eq vaddr ▸ Nat.mod_lt _ (by norm_num)
  have hone : (MapArgs.mk physAddr pageSize false prot).numPages = 1 := by
    simp [MapArgs.numPages, MapArgs.pgsize, pageSize]
  have hentry : (MapArgs.mk physAddr pageSize false prot).entry 0 = pteEntry physAddr prot := by
    simp [MapArgs.entry, pteEntry]
  rw [cpuMmMapPage, mapContiguous_within pages s pgtable (by decide) (by omega) (by omega), hone]
  simp only [Tables.setEntries, Nat.add_zero, hentry]
  rfl

end tableAt

/-! ### Tables with owners -/

/-- A position: the top-level table and the indices that lead from it. -/
abbrev Pos := Nat × List Nat

/-- The first `limit` pages that `alloc_pages` returns are different pages of physical memory. -/
structure Supply (pages : Nat → Nat) (limit : Nat) : Prop where
  valid : ∀ k < limit, entryFormat.Valid (pages k)
  different : ∀ k < limit, ∀ l < limit, pages k = pages l → k = l

/-- Not a page that `alloc_pages` can still hand out. -/
def Settled (pages : Nat → Nat) (limit : Nat) (s : Tables) (u : Nat) : Prop :=
  ∀ k, s.next ≤ k → k < limit → u ≠ pages k

/-- Every table has its position, and the pages still to be handed out have none. -/
structure Owned (pages : Nat → Nat) (limit : Nat) (S : Shape Pos Nat) (s : Tables)
    (pos : Nat → Option Pos) : Prop where
  labelled : Labelled entryFormat S s.mem pos
  settled : ∀ u p, pos u = some p → Settled pages limit s u

/-- Positions, paths and leaf words are kept, and new positions are those of new pages. -/
structure Grows (pages : Nat → Nat) (limit : Nat) (S : Shape Pos Nat) (s : Tables)
    (pos : Nat → Option Pos) (s' : Tables) (pos' : Nat → Option Pos) : Prop where
  labels : ∀ u q, pos u = some q → pos' u = some q
  reaches : ∀ u q path v, pos u = some q → S.Inner q path →
    reach entryFormat s.mem u path = some v → reach entryFormat s'.mem u path = some v
  leaves : ∀ u q path j, pos u = some q → S.Full q path →
    leaf entryFormat s'.mem u path j = leaf entryFormat s.mem u path j
  later : s.next ≤ s'.next
  old : ∀ u q, pos' u = some q → Settled pages limit s u → pos u = some q

section owned
variable {pages : Nat → Nat} {limit : Nat} {S : Shape Pos Nat} {s s' s'' : Tables}
  {pos pos' pos'' : Nat → Option Pos} {t i u j : Nat} {p : Pos}

theorem Settled.later (h : Settled pages limit s u) (hlater : s.next ≤ s'.next) :
    Settled pages limit s' u := by
  intro k hk hlt
  exact h k (hlater.trans hk) hlt

theorem Owned.none_of_fresh (h : Owned pages limit S s pos) (hroom : s.next < limit) :
    pos (pages s.next) = none := by
  cases hpos : pos (pages s.next) with
  | none => rfl
  | some p => exact absurd rfl (h.settled _ p hpos s.next (Nat.le_refl _) hroom)

theorem Grows.trans (h : Grows pages limit S s pos s' pos') (h' : Grows pages limit S s' pos' s'' pos'') :
    Grows pages limit S s pos s'' pos'' where
  labels := fun u q hu => h'.labels u q (h.labels u q hu)
  reaches := fun u q path v hu hpath hv =>
    h'.reaches u q path v (h.labels u q hu) hpath (h.reaches u q path v hu hpath hv)
  leaves := fun u q path j hu hpath =>
    (h'.leaves u q path j (h.labels u q hu) hpath).trans (h.leaves u q path j hu hpath)
  later := h.later.trans h'.later
  old := fun u q hu hold => h.old u q (h'.old u q hu (hold.later h.later)) hold

theorem tableAt_next (pages : Nat → Nat) (s : Tables) (t i : Nat) :
    (s.tableAt pages t i).2.next = if entryFormat.target (s.mem t i) = none then s.next + 1 else s.next := by
  rw [tableAt_eq]
  simp [entryFormat]

theorem tableAt_later (pages : Nat → Nat) (s : Tables) (t i : Nat) :
    s.next ≤ (s.tableAt pages t i).2.next := by
  rw [tableAt_next]
  split_ifs <;> omega

theorem Supply.settled_tableAt (hp : Supply pages limit) (hroom : (s.tableAt pages t i).2.next ≤ limit)
    (hnone : entryFormat.target (s.mem t i) = none) :
    Settled pages limit (s.tableAt pages t i).2 (pages s.next) := by
  rw [tableAt_next, if_pos hnone] at hroom
  intro k hk hlt hsame
  rw [tableAt_next, if_pos hnone] at hk
  have := hp.different s.next (by omega) k hlt hsame
  omega

theorem Owned.tableAt (hp : Supply pages limit) (h : Owned pages limit S s pos) (ht : pos t = some p)
    (hi : S.inner p i) (hroom : (s.tableAt pages t i).2.next ≤ limit) :
    ∃ pos', Owned pages limit S (s.tableAt pages t i).2 pos' ∧
      Grows pages limit S s pos (s.tableAt pages t i).2 pos' ∧
      pos' (s.tableAt pages t i).1 = some (S.below p i) ∧
      reach entryFormat (s.tableAt pages t i).2.mem t [i] = some (s.tableAt pages t i).1 := by
  have hlt : entryFormat.target (s.mem t i) = none → s.next < limit := by
    intro hnone
    rw [tableAt_next, if_pos hnone] at hroom
    omega
  have hfresh : entryFormat.target (s.mem t i) = none →
      pos (pages s.next) = none ∧ entryFormat.Valid (pages s.next) := by
    intro hnone
    exact ⟨h.none_of_fresh (hlt hnone), hp.valid _ (hlt hnone)⟩
  have hlater := tableAt_later pages s t i
  have hpage := fun hnone => hp.settled_tableAt hroom hnone
  obtain ⟨pos', hlabelled, hpos, hlink, hkeep, hnone⟩ := h.labelled.descend ht hi hfresh
  have hold : ∀ u q, pos' u = some q → pos u = some q ∨
      u = pages s.next ∧ entryFormat.target (s.mem t i) = none := by
    intro u q hu
    cases hpos' : pos u with
    | some q' => exact .inl ((hkeep u q' hpos').symm.trans hu)
    | none =>
        right
        by_contra hne
        rw [hnone u hpos' (by tauto)] at hu
        contradiction
  refine ⟨pos', ⟨?_, ?_⟩, ⟨hkeep, ?_, ?_, hlater, ?_⟩, ?_, ?_⟩
  · rw [tableAt_eq]
    exact hlabelled
  · intro u q hu
    rcases hold u q hu with hu' | ⟨rfl, htarget⟩
    · exact (h.settled u q hu').later hlater
    · exact hpage htarget
  · intro u q path v hu hpath hv
    rw [tableAt_eq]
    exact h.labelled.reach_descend (fun htarget => (hfresh htarget).1) hu hpath hv
  · intro u q path j hu hpath
    rw [tableAt_eq]
    exact h.labelled.leaf_descend ht hi hfresh hu hpath j
  · intro u q hu hsettled
    rcases hold u q hu with hu' | ⟨rfl, htarget⟩
    · exact hu'
    · exact absurd rfl (hsettled s.next (Nat.le_refl _) (hlt htarget))
  · rw [tableAt_eq]
    exact hpos
  · rw [tableAt_eq]
    dsimp only
    rw [reach, hlink, entryFormat.target_link _ (hlabelled.valid _ _ hpos)]
    rfl

/-- Only the entry itself and the page that is handed out can change. -/
theorem tableAt_frame (hroom : (s.tableAt pages t i).2.next ≤ limit) (hu : Settled pages limit s u)
    (hne : u ≠ t ∨ j ≠ i) : (s.tableAt pages t i).2.mem u j = s.mem u j := by
  rw [tableAt_next] at hroom
  rw [tableAt_eq]
  apply descend_frame _ hne
  intro hnone
  rw [if_pos hnone] at hroom
  exact hu s.next (Nat.le_refl _) (by omega)

theorem tableOn_later (pages : Nat → Nat) (s : Tables) (t : Nat) (path : List Nat) :
    s.next ≤ (s.tableOn pages t path).2.next := by
  induction path generalizing s t with
  | nil => exact Nat.le_refl _
  | cons i path ih => exact (tableAt_later pages s t i).trans (ih _ _)

/-- Going down a path of links: the table at its end is found there, and only words on the way
change. -/
theorem Owned.tableOn (hp : Supply pages limit) (h : Owned pages limit S s pos) (ht : pos t = some p)
    {path : List Nat} (hpath : S.Inner p path) (hroom : (s.tableOn pages t path).2.next ≤ limit) :
    ∃ pos', Owned pages limit S (s.tableOn pages t path).2 pos' ∧
      Grows pages limit S s pos (s.tableOn pages t path).2 pos' ∧
      pos' (s.tableOn pages t path).1 = some (S.at p path) ∧
      reach entryFormat (s.tableOn pages t path).2.mem t path = some (s.tableOn pages t path).1 ∧
      ∀ u j, Settled pages limit s u → (∀ q, pos u = some q → ¬ S.On p path q j) →
        (s.tableOn pages t path).2.mem u j = s.mem u j := by
  induction path generalizing s t p pos with
  | nil =>
      refine ⟨pos, h, ⟨?_, ?_, ?_, Nat.le_refl _, ?_⟩, ht, rfl, ?_⟩
      · exact fun _ _ hu => hu
      · exact fun _ _ _ _ _ _ hv => hv
      · exact fun _ _ _ _ _ _ => rfl
      · exact fun _ _ hu _ => hu
      · exact fun _ _ _ _ => rfl
  | cons i path ih =>
      have hroom₁ := (tableOn_later pages _ _ path).trans hroom
      obtain ⟨pos₁, hown₁, hgrow₁, hpos₁, hreach₁⟩ := h.tableAt hp ht hpath.1 hroom₁
      obtain ⟨pos₂, hown₂, hgrow₂, hpos₂, hreach₂, hframe₂⟩ := ih hown₁ hpos₁ hpath.2 hroom
      refine ⟨pos₂, hown₂, hgrow₁.trans hgrow₂, hpos₂, ?_, ?_⟩
      · have hfirst := hgrow₂.reaches t p [i] _ (hgrow₁.labels t p ht) ⟨hpath.1, trivial⟩ hreach₁
        rw [← List.singleton_append, reach_append]
        exact (congrArg (Option.bind · _) hfirst).trans hreach₂
      · intro u j hsettled hnot
        -- a table on the way is not new if it is `u`, so `u` had its position before
        have hbelow : ∀ q, pos₁ u = some q → ¬ S.On (S.below p i) path q j := by
          intro q hu hon
          exact hnot q (hgrow₁.old u q hu hsettled) (.inr hon)
        have hentry : u ≠ t ∨ j ≠ i := by
          by_contra hsame
          obtain ⟨rfl, rfl⟩ : u = t ∧ j = i := by tauto
          exact hnot p ht (.inl ⟨rfl, rfl⟩)
        exact (hframe₂ u j (hsettled.later hgrow₁.later) hbelow).trans
          (tableAt_frame hroom₁ hsettled hentry)

/-- Setting a leaf entry: positions are kept, the entry is found at its place, every other leaf
entry is as before, and so is every word that is not on the way. -/
theorem Owned.setLeaf (hp : Supply pages limit) (h : Owned pages limit S s pos) {pgtable : Nat}
    (hpt : pos pgtable = some p) {vaddr : Nat} (hfull : S.Full p (vaPath vaddr)) {entry : Nat}
    (hroom : (s.setLeaf pages pgtable vaddr entry).next ≤ limit) :
    ∃ pos', Owned pages limit S (s.setLeaf pages pgtable vaddr entry) pos' ∧
      (∀ u q, pos u = some q → pos' u = some q) ∧
      (∀ u q, pos' u = some q → Settled pages limit s u → pos u = some q) ∧
      leaf entryFormat (s.setLeaf pages pgtable vaddr entry).mem pgtable (vaPath vaddr)
        (pteFromVa vaddr) = entry ∧
      (∀ u q path j, pos u = some q → S.Full q path →
        S.at q path ≠ S.at p (vaPath vaddr) ∨ j ≠ pteFromVa vaddr →
        leaf entryFormat (s.setLeaf pages pgtable vaddr entry).mem u path j =
          leaf entryFormat s.mem u path j) ∧
      ∀ u j, Settled pages limit s u → (∀ q, pos u = some q → ¬ S.On p (vaPath vaddr) q j ∧
          (q ≠ S.at p (vaPath vaddr) ∨ j ≠ pteFromVa vaddr)) →
        (s.setLeaf pages pgtable vaddr entry).mem u j = s.mem u j := by
  obtain ⟨hinner, hleaf⟩ := hfull
  unfold Tables.setLeaf at hroom ⊢
  obtain ⟨pos', hown, hgrow, hpos, hreach, hframe⟩ := h.tableOn hp hpt hinner hroom
  generalize s.tableOn pages pgtable (vaPath vaddr) = r at *
  refine ⟨pos', ⟨hown.labelled.store hpos (hleaf _) entry, hown.settled⟩, hgrow.labels, hgrow.old, ?_, ?_, ?_⟩
  · refine (hown.labelled.leaf_store hpos (hleaf _) entry (hgrow.labels _ _ hpt) hinner _).trans ?_
    rw [if_pos ⟨hreach, rfl⟩]
  · intro u q path j hu hpath hne
    have hu' := hgrow.labels u q hu
    refine (hown.labelled.leaf_store hpos (hleaf _) entry hu' hpath.1 j).trans ?_
    rw [if_neg, hgrow.leaves u q path j hu hpath]
    rintro ⟨hsame, rfl⟩
    have hat := hown.labelled.reach_pos hu' hpath.1 hsame
    rw [hpos, Option.some.injEq] at hat
    exact hne.elim (fun hne => hne hat.symm) fun hne => hne rfl
  · intro u j hsettled hnot
    have hentry : u ≠ r.1 ∨ j ≠ pteFromVa vaddr := by
      by_contra hsame
      obtain ⟨rfl, rfl⟩ : u = r.1 ∧ j = pteFromVa vaddr := by tauto
      have := (hnot _ (hgrow.old _ _ hpos hsettled)).2
      tauto
    exact (store_of_ne hentry).trans (hframe u j hsettled fun q hq => (hnot q hq).1)

theorem create_mem {kernelPgtable : Nat} (hne : kernelPgtable ≠ pages s.next) (u : Nat) :
    (cpuMmCreatePageTable pages s kernelPgtable).2.mem u =
      if u = pages s.next then s.mem kernelPgtable else s.mem u := by
  unfold cpuMmCreatePageTable Tables.allocPage
  by_cases hu : u = pages s.next
  · rw [if_pos hu, hu]
    simp [hne]
  · rw [if_neg hu]
    simp [hu]

/-- A new process table is the root of a tree; the entries that it copies are links there. -/
theorem Owned.create (hp : Supply pages limit) (h : Owned pages limit S s pos) (hroom : s.next < limit)
    {kernelPgtable : Nat} (hne : kernelPgtable ≠ pages s.next)
    (hcopied : ∀ i, S.inner (pages s.next, []) i → entryFormat.target (s.mem kernelPgtable i) = none ∨
      ∃ v, s.mem kernelPgtable i = entryFormat.link v ∧ pos v = some (S.below (pages s.next, []) i)) :
    Owned pages limit S (cpuMmCreatePageTable pages s kernelPgtable).2
      (Function.update pos (pages s.next) (some (pages s.next, []))) := by
  have hfresh : pos (pages s.next) = none := h.none_of_fresh hroom
  have hentries : ∀ w r, entryFormat.target w = none ∨
      (∃ v, w = entryFormat.link v ∧ pos v = some r) → entryFormat.target w = none ∨
      ∃ v, w = entryFormat.link v ∧
        Function.update pos (pages s.next) (some (pages s.next, [])) v = some r := by
    rintro w r (hnone | ⟨v, hlink, hv⟩)
    · exact .inl hnone
    · refine .inr ⟨v, hlink, ?_⟩
      rw [Function.update_of_ne (ne_of_pos hv hfresh), hv]
  refine ⟨⟨?_, ?_⟩, ?_⟩
  · intro t q ht
    by_cases hnew : t = pages s.next
    · exact hnew ▸ hp.valid _ hroom
    · rw [Function.update_of_ne hnew] at ht
      exact h.labelled.valid t q ht
  · intro t q i ht hi
    rw [create_mem hne]
    by_cases hnew : t = pages s.next
    · subst hnew
      rw [Function.update_self] at ht
      obtain rfl := Option.some.inj ht
      rw [if_pos rfl]
      exact hentries _ _ (hcopied i hi)
    · rw [Function.update_of_ne hnew] at ht
      rw [if_neg hnew]
      exact hentries _ _ (h.labelled.entries t q i ht hi)
  · intro u q hu
    by_cases hnew : u = pages s.next
    · intro k hk hlt hsame
      have hk' : s.next + 1 ≤ k := hk
      have := hp.different s.next hroom k hlt (hnew ▸ hsame)
      omega
    · rw [Function.update_of_ne hnew] at hu
      exact (h.settled u q hu).later (Nat.le_succ _)

end owned

/-! ### Translations -/

/-- The leaf entry of an address. -/
def leafEntry (s : Tables) (pgtable vaddr : Nat) : Nat :=
  leaf entryFormat s.mem pgtable (vaPath vaddr) (pteFromVa vaddr)

section translation
variable {S : Shape Pos Nat} {s : Tables} {pos : Nat → Option Pos} {p : Pos} {pgtable vaddr : Nat}

theorem target_none_iff (w : Nat) : entryFormat.target w = none ↔ w &&& presentFlag = 0 := by
  simp [entryFormat]

theorem target_some {w u : Nat} (h : entryFormat.target w = some u) :
    w &&& presentFlag ≠ 0 ∧ pa2va (pageFrame w) = u := by
  by_cases hpresent : w &&& presentFlag = 0
  · rw [(target_none_iff w).mpr hpresent] at h
    contradiction
  · simp only [entryFormat, if_neg hpresent, Option.some.injEq] at h
    exact ⟨hpresent, h⟩

/-- The walk of the kernel reads the leaf entry. -/
theorem getPhys_eq (h : Labelled entryFormat S s.mem pos) (hpt : pos pgtable = some p)
    (hfull : S.Full p (vaPath vaddr)) :
    cpuMmGetPhysAddress s pgtable vaddr =
      if leafEntry s pgtable vaddr &&& presentFlag = 0 then 0xfff
      else pageFrame (leafEntry s pgtable vaddr) := by
  obtain ⟨⟨h4, h3, h2, -⟩, -⟩ := hfull
  unfold cpuMmGetPhysAddress leafEntry vaPath
  dsimp only
  cases ht₁ : entryFormat.target (s.mem pgtable (pml4FromVa vaddr)) with
  | none =>
      rw [if_pos ((target_none_iff _).mp ht₁), leaf_cons_none ht₁]
      rfl
  | some pdpt =>
      obtain ⟨hpresent₁, hpdpt⟩ := target_some ht₁
      have hpos₁ := (h.target hpt h4 ht₁).2
      rw [if_neg hpresent₁, hpdpt, leaf_cons_some ht₁]
      cases ht₂ : entryFormat.target (s.mem pdpt (pdptFromVa vaddr)) with
      | none =>
          rw [if_pos ((target_none_iff _).mp ht₂), leaf_cons_none ht₂]
          rfl
      | some pdet =>
          obtain ⟨hpresent₂, hpdet⟩ := target_some ht₂
          have hpos₂ := (h.target hpos₁ h3 ht₂).2
          rw [if_neg hpresent₂, hpdet, leaf_cons_some ht₂]
          cases ht₃ : entryFormat.target (s.mem pdet (pdetFromVa vaddr)) with
          | none =>
              rw [if_pos ((target_none_iff _).mp ht₃), leaf_cons_none ht₃]
              rfl
          | some pte =>
              obtain ⟨hpresent₃, hpte⟩ := target_some ht₃
              have hsmall : s.mem pdet (pdetFromVa vaddr) &&& pdetPageSize = 0 := by
                rw [(h.target hpos₂ h2 ht₃).1]
                exact frame_or_and _ _ (by decide)
              rw [if_neg hpresent₃, hpte, if_neg (not_not_intro hsmall), leaf_cons_some ht₃]
              rfl

end translation

end Lucix.PageTable
