import Lucix.MapView
import Lucix.RadixWalk

/-! The walk of the processor through the tables of `arch/x86_64/paging.c`, for 4 KiB
pages and for the large pages that bit 7 of an entry marks. A physical address has 52
bits there and 48 in `PAGE_FRAME`; tables are pages that the kernel can address, so
for links the two agree. -/
namespace Lucix.PageTable
open RadixWalk (Slot Coding Tree walk)
open RadixTable (store store_self store_of_ne)

/-- The frame of an entry for the processor. -/
def hwFrame (entry : Nat) : Nat := entry &&& 0x000ffffffffff000

/-- A page of `2 ^ bits` bytes. The bits of its frame above the attribute bit 12 are reserved. -/
def hwLarge (entry bits va : Nat) : Option Nat :=
  if hwFrame entry % 2 ^ bits / 2 ^ 13 ≠ 0 then none
  else some (hwFrame entry / 2 ^ bits * 2 ^ bits + va % 2 ^ bits)

/-- The physical address for an address, none for a page fault. Bit 7 is reserved at the top
level. -/
def hwTranslate (s : Tables) (pgtable va : Nat) : Option Nat :=
  let entry := s.mem pgtable (va / 2 ^ 39 % 2 ^ 9)
  if entry &&& presentFlag = 0 then none else
  if entry &&& pdetPageSize ≠ 0 then none else
  let entry := s.mem (pa2va (hwFrame entry)) (va / 2 ^ 30 % 2 ^ 9)
  if entry &&& presentFlag = 0 then none else
  if entry &&& pdetPageSize ≠ 0 then hwLarge entry 30 va else
  let entry := s.mem (pa2va (hwFrame entry)) (va / 2 ^ 21 % 2 ^ 9)
  if entry &&& presentFlag = 0 then none else
  if entry &&& pdetPageSize ≠ 0 then hwLarge entry 21 va else
  let entry := s.mem (pa2va (hwFrame entry)) (va / 2 ^ 12 % 2 ^ 9)
  if entry &&& presentFlag = 0 then none else some (hwFrame entry + va % 2 ^ 12)

/-! ### Frames -/

theorem hwFrame_eq (w : Nat) : hwFrame w = w / 2 ^ 12 % 2 ^ 40 * 2 ^ 12 := by
  have hhigh : hwFrame w / 2 ^ 12 = w / 2 ^ 12 % 2 ^ 40 := by
    rw [← Nat.shiftRight_eq_div_pow]
    exact shifted_mask w 12 40 _ (by decide)
  have hlow : hwFrame w % 2 ^ 12 = 0 := by
    rw [← Nat.and_two_pow_sub_one_eq_mod, hwFrame, Nat.and_assoc]
    exact Nat.and_zero w
  have hsplit := Nat.div_add_mod (hwFrame w) (2 ^ 12)
  rw [hhigh, hlow] at hsplit
  rw [← hsplit]
  ring

/-- For an entry of 48 bits the two frames are the same. -/
theorem hwFrame_of_lt {w : Nat} (h : w < 2 ^ 48) : hwFrame w = pageFrame w := by
  rw [hwFrame_eq, pageFrame_eq]
  omega

theorem pageFrame_hwFrame (w : Nat) : pageFrame (hwFrame w) = pageFrame w := by
  rw [pageFrame, hwFrame, Nat.and_assoc]
  rfl

theorem frame_or_lt (x : Nat) {flags : Nat} (h : flags < 2 ^ 12) : pageFrame x ||| flags < 2 ^ 48 := by
  apply Nat.or_lt_two_pow
  · rw [pageFrame_eq]
    omega
  · exact lt_trans h (by norm_num)

/-! ### Entries -/

def hwCoding : Coding Nat Nat Nat where
  read := fun level w =>
    if w &&& presentFlag = 0 then .absent
    else if level = 0 ∨ w &&& pdetPageSize ≠ 0 then .value w
    else .table (pa2va (hwFrame w))
  empty := 0
  link := fun u => pageFrame (va2pa u) ||| linkFlags
  Valid := fun u => pageFrame (va2pa u) = va2pa u
  read_empty := by simp
  read_link := by
    intro n u hu
    have hpresent : ¬ (pageFrame (va2pa u) ||| linkFlags) &&& presentFlag = 0 := by
      rw [frame_or_and _ _ (by decide)]
      decide
    have hsmall : (pageFrame (va2pa u) ||| linkFlags) &&& pdetPageSize = 0 := by
      rw [frame_or_and _ _ (by decide)]
      decide
    have hframe : hwFrame (pageFrame (va2pa u) ||| linkFlags) = va2pa u := by
      rw [hwFrame_of_lt (frame_or_lt _ (by decide)), pageFrame_or _ (by decide), hu]
    simp [hpresent, hsmall, hframe, pa2va_va2pa]

section reading
variable {level w u : Nat}

theorem read_absent_iff : hwCoding.read level w = .absent ↔ w &&& presentFlag = 0 := by
  simp only [hwCoding]
  split_ifs with h h' <;> simp [h]

theorem read_table (h : hwCoding.read level w = .table u) :
    ¬ w &&& presentFlag = 0 ∧ w &&& pdetPageSize = 0 ∧ u = pa2va (hwFrame w) := by
  simp only [hwCoding] at h
  split_ifs at h with hpresent hvalue
  rw [not_or, not_not] at hvalue
  exact ⟨hpresent, hvalue.2, (Slot.table.inj h).symm⟩

theorem read_value {x : Nat} (h : hwCoding.read level w = .value x) :
    x = w ∧ ¬ w &&& presentFlag = 0 ∧ (level = 0 ∨ w &&& pdetPageSize ≠ 0) := by
  simp only [hwCoding] at h
  split_ifs at h with hpresent hvalue
  exact ⟨(Slot.value.inj h).symm, hpresent, hvalue⟩

section walking
variable {mem : Nat → Nat → Nat} {t i : Nat} {q : List Nat}

theorem walk_absent (h : mem t i &&& presentFlag = 0) : walk hwCoding mem t (i :: q) = none := by
  rw [RadixWalk.walk_cons, read_absent_iff.mpr h]

theorem walk_value (h : ¬ mem t i &&& presentFlag = 0) (hend : q = [] ∨ mem t i &&& pdetPageSize ≠ 0) :
    walk hwCoding mem t (i :: q) = some (mem t i, q) := by
  rw [← List.length_eq_zero_iff] at hend
  rw [RadixWalk.walk_cons]
  simp only [hwCoding, if_neg h, if_pos hend]

theorem walk_table (h : ¬ mem t i &&& presentFlag = 0) (hq : q ≠ []) (hsize : ¬ mem t i &&& pdetPageSize ≠ 0) :
    walk hwCoding mem t (i :: q) = walk hwCoding mem (pa2va (hwFrame (mem t i))) q := by
  rw [ne_eq, ← List.length_eq_zero_iff] at hq
  rw [RadixWalk.walk_cons]
  simp only [hwCoding, if_neg h, if_neg (not_or.mpr ⟨hq, hsize⟩)]

end walking

/-- The kernel finds a linked table where the processor does. -/
theorem read_table_frame (h : hwCoding.read level w = .table u) (hu : hwCoding.Valid u) :
    pa2va (pageFrame w) = u := by
  obtain ⟨-, -, rfl⟩ := read_table h
  have hframe : pageFrame (hwFrame w) = hwFrame w := by
    simpa only [hwCoding, va2pa_pa2va] using hu
  rw [← hframe, pageFrame_hwFrame]

end reading

/-! ### Walks by page number -/

/-- What the processor finds for the page with this number. -/
def walkAt (s : Tables) (pgtable x : Nat) : Option (Nat × List Nat) :=
  walk hwCoding s.mem pgtable (pagePath x ++ [x % 2 ^ 9])

/-- The address that an entry gives, by the number of indices it leaves unused. -/
def hwAddress (va entry : Nat) : List Nat → Option Nat
  | [] => some (hwFrame entry + va % 2 ^ 12)
  | [_] => hwLarge entry 21 va
  | [_, _] => hwLarge entry 30 va
  | _ => none

theorem hwTranslate_eq (s : Tables) (pgtable va : Nat) :
    hwTranslate s pgtable va =
      (walkAt s pgtable (pageIndex va)).bind fun r => hwAddress va r.1 r.2 := by
  have hpath : pagePath (pageIndex va) ++ [pageIndex va % 2 ^ 9] =
      [va / 2 ^ 39 % 2 ^ 9, va / 2 ^ 30 % 2 ^ 9, va / 2 ^ 21 % 2 ^ 9, va / 2 ^ 12 % 2 ^ 9] := by
    simp only [pagePath, pageIndex, List.cons_append, List.nil_append, List.cons.injEq, and_true]
    omega
  rw [walkAt, hpath, hwTranslate]
  dsimp only
  split_ifs with h₄ hs₄ h₃ hs₃ h₂ hs₂ h₁
  · rw [walk_absent h₄]
    rfl
  · rw [walk_value h₄ (.inr hs₄)]
    rfl
  · rw [walk_table h₄ (by simp) hs₄, walk_absent h₃]
    rfl
  · rw [walk_table h₄ (by simp) hs₄, walk_value h₃ (.inr hs₃)]
    rfl
  · rw [walk_table h₄ (by simp) hs₄, walk_table h₃ (by simp) hs₃, walk_absent h₂]
    rfl
  · rw [walk_table h₄ (by simp) hs₄, walk_table h₃ (by simp) hs₃, walk_value h₂ (.inr hs₂)]
    rfl
  · rw [walk_table h₄ (by simp) hs₄, walk_table h₃ (by simp) hs₃, walk_table h₂ (by simp) hs₂,
      walk_absent h₁]
    rfl
  · rw [walk_table h₄ (by simp) hs₄, walk_table h₃ (by simp) hs₃, walk_table h₂ (by simp) hs₂,
      walk_value h₁ (.inl rfl)]
    rfl

/-! ### Trees of tables -/

/-- The tables below `pgtable` form a tree of four levels, and no page that is still to be handed
out is one of them. -/
structure Rooted (pages : Nat → Nat) (limit pgtable : Nat) (s : Tables)
    (pos : Nat → Option (List Nat)) : Prop where
  tree : Tree hwCoding 4 s.mem pos
  root : pos pgtable = some []
  settled : ∀ u p, pos u = some p → Settled pages limit s u

/-- A page that is no table of the tree and that is not handed out any more. -/
structure Apart (pages : Nat → Nat) (limit : Nat) (s : Tables) (pos : Nat → Option (List Nat)) (u : Nat) :
    Prop where
  unplaced : pos u = none
  settled : Settled pages limit s u

/-- The table that indices lead to. -/
def tableOf (s : Tables) (pgtable : Nat) (path : List Nat) : Option Nat :=
  RadixWalk.reach hwCoding s.mem 4 pgtable path

section rooted
variable {pages : Nat → Nat} {limit pgtable : Nat} {s : Tables} {pos : Nat → Option (List Nat)}
  {p q : List Nat} {t i w : Nat}

theorem Rooted.pos_of_tableOf (h : Rooted pages limit pgtable s pos) (ht : tableOf s pgtable p = some t) :
    pos t = some p := h.tree.reach_pos h.root ht

theorem length_pagePath (x : Nat) : (pagePath x ++ [x % 2 ^ 9]).length = 4 := rfl

theorem tableOf_append {u : Nat} (ht : tableOf s pgtable p = some t)
    (hread : hwCoding.read (4 - p.length - 1) (s.mem t i) = .table u) :
    tableOf s pgtable (p ++ [i]) = some u := by
  rw [tableOf, RadixWalk.reach_append, show RadixWalk.reach hwCoding s.mem 4 pgtable p = some t from ht,
    Option.bind_some, RadixWalk.reach, hread]
  rfl

theorem tableAt_absent (pages : Nat → Nat) (h : s.mem t i &&& presentFlag = 0) :
    s.tableAt pages t i =
      (pages s.next, ⟨RadixWalk.attach hwCoding s.mem t i (pages s.next), s.next + 1⟩) := by
  unfold Tables.tableAt
  rw [if_pos h]
  simp only [Tables.allocPage, Tables.set, Nat.or_assoc]
  rfl

theorem tableAt_present (pages : Nat → Nat) (h : ¬ s.mem t i &&& presentFlag = 0) :
    s.tableAt pages t i = (pa2va (pageFrame (s.mem t i)), s) := by
  unfold Tables.tableAt
  rw [if_neg h]

/-- The block at the upper levels changes no walk and keeps the tables where they are; it goes
down to the table behind the entry unless the entry maps a large page. -/
structure Descends (pages : Nat → Nat) (limit pgtable : Nat) (pos : Nat → Option (List Nat)) (s : Tables)
    (p : List Nat) (t i : Nat) (next : Nat × Tables) : Prop where
  rooted : ∃ pos', Rooted pages limit pgtable next.2 pos' ∧
    ∀ u, Apart pages limit s pos u → Apart pages limit next.2 pos' u
  walks : ∀ x, walkAt next.2 pgtable x = walkAt s pgtable x
  tables : ∀ q u, tableOf s pgtable q = some u → tableOf next.2 pgtable q = some u
  below : (∀ x, hwCoding.read (4 - p.length - 1) (s.mem t i) ≠ .value x) →
    tableOf next.2 pgtable (p ++ [i]) = some next.1

theorem Rooted.tableAt (hp : Supply pages limit) (h : Rooted pages limit pgtable s pos)
    (ht : tableOf s pgtable p = some t) (hlevel : p.length < 3)
    (hroom : (s.tableAt pages t i).2.next ≤ limit) :
    Descends pages limit pgtable pos s p t i (s.tableAt pages t i) := by
  have hpos := h.pos_of_tableOf ht
  cases hread : hwCoding.read (4 - p.length - 1) (s.mem t i) with
  | absent =>
      have hnot := read_absent_iff.mp hread
      rw [tableAt_absent pages hnot] at hroom ⊢
      have hlt : s.next < limit := hroom
      have hfresh : pos (pages s.next) = none := by
        cases hpos' : pos (pages s.next) with
        | none => rfl
        | some r => exact absurd rfl (h.settled _ r hpos' s.next (Nat.le_refl _) hlt)
      have hvalid : hwCoding.Valid (pages s.next) := hp.valid s.next hlt
      have habsent : hwCoding.read (4 - 1 - p.length) (s.mem t i) = .absent := read_absent_iff.mpr hnot
      have htables : ∀ q u, tableOf s pgtable q = some u →
          RadixWalk.reach hwCoding (RadixWalk.attach hwCoding s.mem t i (pages s.next)) 4 pgtable q = some u :=
        fun q u hu => h.tree.reach_attach hpos hfresh habsent h.root hu
      refine ⟨⟨_, ⟨h.tree.attach hpos hfresh hvalid (by omega), ?_, ?_⟩, ?_⟩, ?_, htables, fun _ => ?_⟩
      · rw [Function.update_of_ne (RadixWalk.ne_of_pos h.root hfresh), h.root]
      · intro u r hr k hk hklt
        by_cases hu : u = pages s.next
        · rw [hu]
          intro heq
          have hkeq := hp.different s.next hlt k hklt heq
          dsimp only at hk
          omega
        · rw [Function.update_of_ne hu] at hr
          exact h.settled u r hr k (by dsimp only at hk; omega) hklt
      · intro u hu
        refine ⟨?_, hu.settled.later (Nat.le_succ _)⟩
        rw [Function.update_of_ne (hu.settled s.next (Nat.le_refl _) hlt), hu.unplaced]
      · intro x
        exact h.tree.walk_attach hpos hfresh hvalid habsent (by omega) h.root (length_pagePath x)
      · refine tableOf_append (htables p t ht) ?_
        obtain ⟨n, hn⟩ : ∃ n, 4 - p.length - 1 = n + 1 := ⟨2 - p.length, by omega⟩
        dsimp only
        rw [RadixWalk.attach_self, hn]
        exact hwCoding.read_link n _ hvalid
  | table u =>
      have hlevel' : 4 - p.length - 1 = 4 - 1 - p.length := by omega
      have hu := h.tree.below t p i u hpos (hlevel' ▸ hread)
      have hpresent := (read_table hread).1
      rw [tableAt_present pages hpresent, read_table_frame hread (h.tree.valid u _ hu)]
      exact ⟨⟨pos, h, fun _ hu => hu⟩, fun _ => rfl, fun _ _ hq => hq, fun _ => tableOf_append ht hread⟩
  | value x =>
      have hpresent := (read_value hread).2.1
      rw [tableAt_present pages hpresent]
      exact ⟨⟨pos, h, fun _ hu => hu⟩, fun _ => rfl, fun _ _ hq => hq, fun hno => absurd hread (hno x)⟩

theorem Rooted.set (h : Rooted pages limit pgtable s pos) (ht : tableOf s pgtable p = some t)
    (hlevel : p.length < 4) (hvalue : hwCoding.read (4 - p.length - 1) w = .value w) :
    Rooted pages limit pgtable (s.set t i w) pos ∧
      (∀ q, p.length + (q.length + 1) = 4 → walk hwCoding (s.set t i w).mem pgtable (p ++ i :: q) = some (w, q)) ∧
      (∀ q, q.length = 4 → ¬ p ++ [i] <+: q →
        walk hwCoding (s.set t i w).mem pgtable q = walk hwCoding s.mem pgtable q) ∧
      ∀ q u, ¬ p ++ [i] <+: q → tableOf s pgtable q = some u →
        tableOf (s.set t i w) pgtable q = some u := by
  have hpos := h.pos_of_tableOf ht
  have hvalue' : hwCoding.read (4 - 1 - p.length) w = .value w := by
    rwa [Nat.sub_right_comm] at hvalue
  have hsame : ∀ p', pos t = some p' → p' = p :=
    fun p' hp' => Option.some.inj (hp'.symm.trans hpos)
  have htree : Tree hwCoding 4 (store s.mem t i w) pos :=
    h.tree.store fun p' hp' => by rw [hsame p' hp', hvalue']
  refine ⟨⟨htree, h.root, h.settled⟩, ?_, ?_, ?_⟩
  · intro q hlen
    have hq : q.length = 4 - p.length - 1 := by omega
    exact h.tree.walk_store_self h.root ht hlen (hq ▸ hvalue)
  · intro q hlen hne
    apply h.tree.walk_store_of_ne h.root (by simpa using hlen)
    intro p' hp'
    rwa [hsame p' hp', List.nil_append]
  · intro q u hne hu
    rw [← hu]
    apply h.tree.reach_store_of_ne h.root
    intro p' hp'
    rwa [hsame p' hp', List.nil_append]

theorem Rooted.set_apart (h : Rooted pages limit pgtable s pos) (hu : pos t = none) :
    Rooted pages limit pgtable (s.set t i w) pos ∧
      (∀ x, walkAt (s.set t i w) pgtable x = walkAt s pgtable x) ∧
      ∀ q, tableOf (s.set t i w) pgtable q = tableOf s pgtable q := by
  have hno : ∀ p, ¬ pos t = some p := by
    intro p hp
    rw [hu] at hp
    contradiction
  have htree : Tree hwCoding 4 (store s.mem t i w) pos :=
    h.tree.store (x := 0) fun p hp => absurd hp (hno p)
  refine ⟨⟨htree, h.root, h.settled⟩, fun x => ?_, fun q => ?_⟩
  · exact h.tree.walk_store_of_ne h.root (by rw [length_pagePath]; rfl) fun p hp => absurd hp (hno p)
  · exact h.tree.reach_store_of_ne h.root fun p hp => absurd hp (hno p)

open Classical in
/-- Only the tables that indices lead to need a position. -/
theorem Rooted.prune (h : Rooted pages limit pgtable s pos) :
    ∃ pos', Rooted pages limit pgtable s pos' ∧ ∀ u, (∀ q, tableOf s pgtable q ≠ some u) → pos' u = none := by
  refine ⟨fun u => if ∃ q, tableOf s pgtable q = some u then pos u else none, ⟨⟨?_, ?_⟩, ?_, ?_⟩, ?_⟩
  · intro t p ht
    split_ifs at ht
    exact h.tree.valid t p ht
  · intro t p i u ht hread
    split_ifs at ht with hfound
    obtain ⟨q, hq⟩ := hfound
    obtain rfl : q = p := Option.some.inj ((h.pos_of_tableOf hq).symm.trans ht)
    have hnext : tableOf s pgtable (q ++ [i]) = some u := by
      apply tableOf_append hq
      rwa [Nat.sub_right_comm]
    rw [if_pos ⟨_, hnext⟩]
    exact h.tree.below t q i u ht hread
  · rw [if_pos ⟨[], rfl⟩]
    exact h.root
  · intro u p hu
    split_ifs at hu
    exact h.settled u p hu
  · intro u hno
    exact if_neg (not_exists.mpr hno)

/-- A new top-level table. -/
def newRoot (pages : Nat → Nat) (mem : Nat → Nat → Nat) : Tables := ((⟨mem, 0⟩ : Tables).allocPage pages).2

theorem newRoot_empty (pages : Nat → Nat) (mem : Nat → Nat → Nat) (i : Nat) :
    (newRoot pages mem).mem (pages 0) i = 0 := by
  simp [newRoot, Tables.allocPage]

theorem newRoot_rooted (hp : Supply pages limit) (hroom : 0 < limit) (mem : Nat → Nat → Nat) :
    Rooted pages limit (pages 0) (newRoot pages mem) fun u => if u = pages 0 then some [] else none where
  tree := by
    constructor
    · intro t p ht
      split_ifs at ht with htable
      rw [htable]
      exact hp.valid 0 hroom
    · intro t p i u ht hread
      split_ifs at ht with htable
      rw [htable, newRoot_empty] at hread
      exact absurd rfl (read_table hread).1
  root := if_pos rfl
  settled := by
    intro u p hu k hk hlt heq
    split_ifs at hu with htable
    have hzero := hp.different 0 hroom k hlt (htable.symm.trans heq)
    have hone : 1 ≤ k := hk
    omega

theorem walkAt_newRoot (pages : Nat → Nat) (mem : Nat → Nat → Nat) (x : Nat) :
    walkAt (newRoot pages mem) (pages 0) x = none :=
  RadixWalk.walk_of_cleared (newRoot_empty pages mem) _

end rooted

end Lucix.PageTable
