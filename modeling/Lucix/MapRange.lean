import Lucix.PageTableMap

/-! What the loops of `map_contiguous` keep: tables stay at their positions, a link is
never overwritten, and only the entries that the range goes through change. -/
namespace Lucix.PageTable
open RadixTable Execution

/-- Tables keep their positions and links, and only the words in `W` may change. -/
structure Extends (pages : Nat → Nat) (limit : Nat) (S : Shape Pos Nat) (W : Pos → Nat → Prop)
    (s : Tables) (pos : Nat → Option Pos) (s' : Tables) (pos' : Nat → Option Pos) : Prop where
  labels : ∀ u q, pos u = some q → pos' u = some q
  old : ∀ u q, pos' u = some q → Settled pages limit s u → pos u = some q
  later : s.next ≤ s'.next
  links : ∀ u q i, pos u = some q → S.inner q i → entryFormat.target (s.mem u i) ≠ none →
    s'.mem u i = s.mem u i
  frame : ∀ u j, Settled pages limit s u → (∀ q, pos u = some q → ¬ W q j) → s'.mem u j = s.mem u j

section
variable {pages : Nat → Nat} {limit : Nat} {S : Shape Pos Nat} {W : Pos → Nat → Prop}
  {s s' s'' : Tables} {pos pos' pos'' : Nat → Option Pos} {t i : Nat} {q : Pos}

theorem Extends.refl (s : Tables) (pos : Nat → Option Pos) : Extends pages limit S W s pos s pos where
  labels := fun _ _ hu => hu
  old := fun _ _ hu _ => hu
  later := Nat.le_refl _
  links := fun _ _ _ _ _ _ => rfl
  frame := fun _ _ _ _ => rfl

theorem Extends.trans (h : Extends pages limit S W s pos s' pos')
    (h' : Extends pages limit S W s' pos' s'' pos'') : Extends pages limit S W s pos s'' pos'' where
  labels := fun u q hu => h'.labels u q (h.labels u q hu)
  old := fun u q hu hsettled => h.old u q (h'.old u q hu (hsettled.later h.later)) hsettled
  later := h.later.trans h'.later
  links := by
    intro u q i hu hi hlink
    have hsame := h.links u q i hu hi hlink
    rw [h'.links u q i (h.labels u q hu) hi (hsame ▸ hlink), hsame]
  frame := by
    intro u j hsettled hW
    rw [h'.frame u j (hsettled.later h.later) fun q hq => hW q (h.old u q hq hsettled),
      h.frame u j hsettled hW]

theorem Owned.tableAt_extends (hp : Supply pages limit) (h : Owned pages limit S s pos)
    (ht : pos t = some q) (hi : S.inner q i) (hW : W q i)
    (hroom : (s.tableAt pages t i).2.next ≤ limit) :
    ∃ pos', Owned pages limit S (s.tableAt pages t i).2 pos' ∧
      Extends pages limit S W s pos (s.tableAt pages t i).2 pos' ∧
      pos' (s.tableAt pages t i).1 = some (S.below q i) := by
  obtain ⟨pos', hown, hgrow, hpos, -⟩ := h.tableAt hp ht hi hroom
  refine ⟨pos', hown, ⟨hgrow.labels, hgrow.old, hgrow.later, ?_, ?_⟩, hpos⟩
  · intro u r j hu hj hlink
    by_cases hsame : u = t ∧ j = i
    · obtain ⟨rfl, rfl⟩ := hsame
      obtain ⟨v, hv⟩ := Option.ne_none_iff_exists'.mp hlink
      rw [tableAt_eq]
      dsimp only
      rw [descend_of_some hv]
    · exact tableAt_frame hroom (h.settled u r hu) (not_and_or.mp hsame)
  · intro u j hsettled hnot
    apply tableAt_frame hroom hsettled
    by_contra hsame
    obtain ⟨rfl, rfl⟩ : u = t ∧ j = i := by tauto
    exact hnot q ht hW

theorem Owned.set_extends (h : Owned pages limit S s pos) (ht : pos t = some q) (hi : ¬ S.inner q i)
    (hW : W q i) (entry : Nat) :
    Owned pages limit S (s.set t i entry) pos ∧ Extends pages limit S W s pos (s.set t i entry) pos := by
  refine ⟨⟨h.labelled.store ht hi entry, h.settled⟩, fun _ _ hu => hu, fun _ _ hu _ => hu, Nat.le_refl _,
    ?_, ?_⟩
  · intro u r j hu hj _
    exact store_of_ne (entry_ne hu hj ht hi)
  · intro u j _ hnot
    apply store_of_ne
    by_contra hsame
    obtain ⟨rfl, rfl⟩ : u = t ∧ j = i := by tauto
    exact hnot q ht hW

theorem forWhile_later {cond : MapLoop → Bool} {body : Nat → MapLoop → MapLoop}
    (hbody : ∀ i s, s.tables.next ≤ (body i s).tables.next) (n i : Nat) (s : MapLoop) :
    s.tables.next ≤ (forWhile cond body n i s).tables.next := by
  induction n generalizing i s with
  | zero => exact Nat.le_refl _
  | succ n ih =>
      rw [forWhile]
      split
      · exact (hbody i s).trans (ih _ _)
      · exact Nat.le_refl _

theorem forWhile_extends {cond : MapLoop → Bool} {body : Nat → MapLoop → MapLoop} {n i : Nat}
    {s : MapLoop} (hlater : ∀ i s, s.tables.next ≤ (body i s).tables.next)
    (hbody : ∀ j, i ≤ j → j < i + n → ∀ s pos, Owned pages limit S s.tables pos → pos t = some q →
      (body j s).tables.next ≤ limit → ∃ pos', Owned pages limit S (body j s).tables pos' ∧
        Extends pages limit S W s.tables pos (body j s).tables pos')
    (h : Owned pages limit S s.tables pos) (ht : pos t = some q)
    (hroom : (forWhile cond body n i s).tables.next ≤ limit) :
    ∃ pos', Owned pages limit S (forWhile cond body n i s).tables pos' ∧
      Extends pages limit S W s.tables pos (forWhile cond body n i s).tables pos' := by
  induction n generalizing i s pos with
  | zero => exact ⟨pos, h, .refl _ _⟩
  | succ n ih =>
      rw [forWhile] at hroom ⊢
      split at hroom
      case isFalse hstop =>
        rw [if_neg hstop]
        exact ⟨pos, h, .refl _ _⟩
      case isTrue hmore =>
        rw [if_pos hmore]
        obtain ⟨pos₁, hown₁, hext₁⟩ := hbody i (Nat.le_refl _) (by omega) s pos h ht
          ((forWhile_later hlater n (i + 1) (body i s)).trans hroom)
        obtain ⟨pos₂, hown₂, hext₂⟩ := ih (fun j hj hjn => hbody j (by omega) (by omega)) hown₁
          (hext₁.labels _ _ ht) hroom
        exact ⟨pos₂, hown₂, hext₁.trans hext₂⟩

/-! ### The four levels -/

/-- A table of leaf entries that may change. -/
def LeafTable (S : Shape Pos Nat) (W : Pos → Nat → Prop) (q : Pos) : Prop := ∀ j, ¬ S.inner q j ∧ W q j

/-- A table at the PDET level: its entries are leaves for big pages and links otherwise. -/
def PdetTable (S : Shape Pos Nat) (W : Pos → Nat → Prop) (big : Bool) (q : Pos) : Prop :=
  ∀ j, W q j ∧ if big then ¬ S.inner q j else S.inner q j ∧ LeafTable S W (S.below q j)

def PdptTable (S : Shape Pos Nat) (W : Pos → Nat → Prop) (big : Bool) (q : Pos) : Prop :=
  ∀ j, W q j ∧ S.inner q j ∧ PdetTable S W big (S.below q j)

variable {a : MapArgs}

theorem mapPte_later (a : MapArgs) (pte j : Nat) (s : MapLoop) :
    s.tables.next ≤ (mapPte a pte j s).tables.next := Nat.le_refl _

theorem mapPdet_later (pages : Nat → Nat) (a : MapArgs) (pdet j : Nat) (s : MapLoop) :
    s.tables.next ≤ (mapPdet pages a pdet j s).tables.next := by
  unfold mapPdet
  split
  · exact Nat.le_refl _
  · exact (tableAt_later pages s.tables pdet j).trans (forWhile_later (mapPte_later a _) _ _
      { s with tables := (s.tables.tableAt pages pdet j).2 })

theorem mapPdpt_later (pages : Nat → Nat) (a : MapArgs) (pdpt j : Nat) (s : MapLoop) :
    s.tables.next ≤ (mapPdpt pages a pdpt j s).tables.next :=
  (tableAt_later pages s.tables pdpt j).trans
    (forWhile_later (mapPdet_later pages a _) _ _ { s with tables := (s.tables.tableAt pages pdpt j).2 })

theorem mapPml4_later (pages : Nat → Nat) (a : MapArgs) (pml4 j : Nat) (s : MapLoop) :
    s.tables.next ≤ (mapPml4 pages a pml4 j s).tables.next :=
  (tableAt_later pages s.tables pml4 j).trans
    (forWhile_later (mapPdpt_later pages a _) _ _ { s with tables := (s.tables.tableAt pages pml4 j).2 })

theorem level_extends (hp : Supply pages limit) {cond : MapLoop → Bool} {body : Nat → Nat → MapLoop → MapLoop}
    {s : MapLoop} {n k : Nat} (hlater : ∀ u j s, s.tables.next ≤ (body u j s).tables.next)
    (hbody : ∀ u j s pos, Owned pages limit S s.tables pos → pos u = some (S.below q i) →
      (body u j s).tables.next ≤ limit → ∃ pos', Owned pages limit S (body u j s).tables pos' ∧
        Extends pages limit S W s.tables pos (body u j s).tables pos')
    (h : Owned pages limit S s.tables pos) (ht : pos t = some q) (hi : S.inner q i) (hW : W q i)
    (hroom : (forWhile cond (body (s.tables.tableAt pages t i).1) n k
      { s with tables := (s.tables.tableAt pages t i).2 }).tables.next ≤ limit) :
    ∃ pos', Owned pages limit S (forWhile cond (body (s.tables.tableAt pages t i).1) n k
        { s with tables := (s.tables.tableAt pages t i).2 }).tables pos' ∧
      Extends pages limit S W s.tables pos (forWhile cond (body (s.tables.tableAt pages t i).1) n k
        { s with tables := (s.tables.tableAt pages t i).2 }).tables pos' := by
  have hroom₁ := (forWhile_later (hlater _) n k { s with tables := (s.tables.tableAt pages t i).2 }).trans
    hroom
  obtain ⟨pos₁, hown₁, hext₁, hpos₁⟩ := h.tableAt_extends hp ht hi hW hroom₁
  obtain ⟨pos₂, hown₂, hext₂⟩ := forWhile_extends (hlater _) (fun j _ _ s pos => hbody _ j s pos)
    hown₁ hpos₁ hroom
  exact ⟨pos₂, hown₂, hext₁.trans hext₂⟩

theorem mapPte_extends (hq : LeafTable S W q) {s : MapLoop} (j : Nat)
    (h : Owned pages limit S s.tables pos) (ht : pos t = some q) :
    ∃ pos', Owned pages limit S (mapPte a t j s).tables pos' ∧
      Extends pages limit S W s.tables pos (mapPte a t j s).tables pos' :=
  ⟨pos, h.set_extends ht (hq j).1 (hq j).2 _⟩

theorem mapPdet_extends (hp : Supply pages limit) (hq : PdetTable S W a.big q) {s : MapLoop} (j : Nat)
    (h : Owned pages limit S s.tables pos) (ht : pos t = some q)
    (hroom : (mapPdet pages a t j s).tables.next ≤ limit) :
    ∃ pos', Owned pages limit S (mapPdet pages a t j s).tables pos' ∧
      Extends pages limit S W s.tables pos (mapPdet pages a t j s).tables pos' := by
  obtain ⟨hW, hj⟩ := hq j
  unfold mapPdet at hroom ⊢
  by_cases hbig : a.big = true
  · rw [if_pos hbig] at hj ⊢
    exact ⟨pos, h.set_extends ht hj hW _⟩
  · rw [if_neg hbig] at hj hroom ⊢
    exact level_extends hp (mapPte_later a)
      (fun _ j _ _ hown hu _ => mapPte_extends hj.2 j hown hu) h ht hj.1 hW hroom

theorem mapPdpt_extends (hp : Supply pages limit) (hq : PdptTable S W a.big q) {s : MapLoop} (j : Nat)
    (h : Owned pages limit S s.tables pos) (ht : pos t = some q)
    (hroom : (mapPdpt pages a t j s).tables.next ≤ limit) :
    ∃ pos', Owned pages limit S (mapPdpt pages a t j s).tables pos' ∧
      Extends pages limit S W s.tables pos (mapPdpt pages a t j s).tables pos' := by
  obtain ⟨hW, hj, hbelow⟩ := hq j
  exact level_extends hp (mapPdet_later pages a)
    (fun _ j _ _ hown hu hroom => mapPdet_extends hp hbelow j hown hu hroom) h ht hj hW hroom

theorem mapPml4_extends (hp : Supply pages limit) (hW : W q i) (hi : S.inner q i)
    (hbelow : PdptTable S W a.big (S.below q i)) {s : MapLoop}
    (h : Owned pages limit S s.tables pos) (ht : pos t = some q)
    (hroom : (mapPml4 pages a t i s).tables.next ≤ limit) :
    ∃ pos', Owned pages limit S (mapPml4 pages a t i s).tables pos' ∧
      Extends pages limit S W s.tables pos (mapPml4 pages a t i s).tables pos' :=
  level_extends hp (mapPdpt_later pages a)
    (fun _ j _ _ hown hu hroom => mapPdpt_extends hp hbelow j hown hu hroom) h ht hi hW hroom

theorem mapContiguous_later {pgtable physAddr vaddr size : Nat} {big : Bool} {prot : Prot}
    (hmap : mapContiguous pages s pgtable physAddr vaddr size big prot = some s') : s.next ≤ s'.next := by
  unfold mapContiguous at hmap
  dsimp only at hmap
  split at hmap
  case isFalse => contradiction
  case isTrue =>
    obtain rfl := Option.some.inj hmap
    exact forWhile_later (mapPml4_later pages _ pgtable) _ _ ⟨s, 0, _, _, _⟩

/-- Mapping a range keeps every table at its position and every link, and changes only words
that the range goes through. -/
theorem mapContiguous_extends (hp : Supply pages limit) {pgtable physAddr vaddr size : Nat} {big : Bool}
    {prot : Prot} (h : Owned pages limit S s pos) (ht : pos pgtable = some q)
    (hslots : ∀ i, pml4FromVa vaddr ≤ i → i ≤ pml4FromVa vaddr + pml4FromVa size →
      W q i ∧ S.inner q i ∧ PdptTable S W big (S.below q i))
    (hmap : mapContiguous pages s pgtable physAddr vaddr size big prot = some s')
    (hroom : s'.next ≤ limit) :
    ∃ pos', Owned pages limit S s' pos' ∧ Extends pages limit S W s pos s' pos' := by
  unfold mapContiguous at hmap
  dsimp only at hmap
  split at hmap
  case isFalse => contradiction
  case isTrue =>
    obtain rfl := Option.some.inj hmap
    refine forWhile_extends (mapPml4_later pages _ pgtable) ?_ h ht hroom
    intro i hlow hhigh s pos hown hpos hroom'
    obtain ⟨hW, hi, hbelow⟩ := hslots i hlow (by omega)
    exact mapPml4_extends hp hW hi hbelow hown hpos hroom'

/-! ### How many pages a mapping takes -/

theorem tableAt_takes (pages : Nat → Nat) (s : Tables) (t i : Nat) :
    (s.tableAt pages t i).2.next ≤ s.next + 1 := by
  rw [tableAt_next]
  split_ifs <;> omega

theorem forWhile_takes {cond : MapLoop → Bool} {body : Nat → MapLoop → MapLoop} {c : Nat}
    (hbody : ∀ i s, (body i s).tables.next ≤ s.tables.next + c) (n i : Nat) (s : MapLoop) :
    (forWhile cond body n i s).tables.next ≤ s.tables.next + n * c := by
  induction n generalizing i s with
  | zero => exact Nat.le_add_right _ _
  | succ n ih =>
      rw [forWhile]
      split
      · have hfirst := hbody i s
        have hrest := ih (i + 1) (body i s)
        rw [Nat.succ_mul]
        omega
      · exact Nat.le_add_right _ _

theorem mapPdet_takes (pages : Nat → Nat) (a : MapArgs) (pdet j : Nat) (s : MapLoop) :
    (mapPdet pages a pdet j s).tables.next ≤ s.tables.next + 1 := by
  unfold mapPdet
  split
  · exact Nat.le_add_right _ _
  · have hloop := @forWhile_takes a.more (mapPte a (s.tables.tableAt pages pdet j).1) 0
      (fun _ _ => Nat.le_refl _) (512 - s.ptei) s.ptei { s with tables := (s.tables.tableAt pages pdet j).2 }
    exact (hloop.trans (by rw [Nat.mul_zero, Nat.add_zero])).trans (tableAt_takes pages s.tables pdet j)

theorem mapPdpt_takes (pages : Nat → Nat) (a : MapArgs) (pdpt j : Nat) (s : MapLoop) :
    (mapPdpt pages a pdpt j s).tables.next ≤ s.tables.next + 513 := by
  have hloop := @forWhile_takes a.more _ 1 (mapPdet_takes pages a (s.tables.tableAt pages pdpt j).1)
    (512 - s.pdeti) s.pdeti { s with tables := (s.tables.tableAt pages pdpt j).2 }
  have htable := tableAt_takes pages s.tables pdpt j
  refine hloop.trans ?_
  dsimp only
  omega

theorem mapPml4_takes (pages : Nat → Nat) (a : MapArgs) (pml4 j : Nat) (s : MapLoop) :
    (mapPml4 pages a pml4 j s).tables.next ≤ s.tables.next + 262657 := by
  have hloop := @forWhile_takes a.more _ 513 (mapPdpt_takes pages a (s.tables.tableAt pages pml4 j).1)
    (512 - s.pdpti) s.pdpti { s with tables := (s.tables.tableAt pages pml4 j).2 }
  have htable := tableAt_takes pages s.tables pml4 j
  refine hloop.trans ?_
  dsimp only
  omega

theorem mapContiguous_takes {pgtable physAddr vaddr size : Nat} {big : Bool} {prot : Prot}
    (hmap : mapContiguous pages s pgtable physAddr vaddr size big prot = some s') :
    s'.next ≤ s.next + (pml4FromVa size + 1) * 262657 := by
  unfold mapContiguous at hmap
  dsimp only at hmap
  split at hmap
  case isFalse => contradiction
  case isTrue =>
    obtain rfl := Option.some.inj hmap
    exact forWhile_takes (mapPml4_takes pages _ pgtable) _ _ ⟨s, 0, _, _, _⟩

end

end Lucix.PageTable
