import Lucix.MapRange

/-! Where the loops of `map_contiguous` put small pages. The pages of an address space
are numbered; a table with its tables shows a leaf entry for each number, and mapping a
range overwrites the entries of consecutive numbers. -/
namespace Lucix.PageTable
open RadixTable Execution

/-- The number of the page of an address, in the 48 bits that are translated. -/
def pageIndex (vaddr : Nat) : Nat := vaddr / 2 ^ 12 % 2 ^ 36

/-- The indices that lead to the table with the leaf entry of a page. -/
def pagePath (x : Nat) : List Nat := [x / 2 ^ 27, x / 2 ^ 18 % 2 ^ 9, x / 2 ^ 9 % 2 ^ 9]

/-- The leaf entry of a page. -/
def viewOf (s : Tables) (pgtable x : Nat) : Nat := leaf entryFormat s.mem pgtable (pagePath x) (x % 2 ^ 9)

theorem leafEntry_eq_viewOf (s : Tables) (pgtable vaddr : Nat) :
    leafEntry s pgtable vaddr = viewOf s pgtable (pageIndex vaddr) := by
  have hpath : vaPath vaddr = pagePath (pageIndex vaddr) := by
    simp only [vaPath, pagePath, pageIndex, pml4FromVa_eq, pdptFromVa_eq, pdetFromVa_eq, List.cons.injEq,
      and_true]
    omega
  have hpte : pteFromVa vaddr = pageIndex vaddr % 2 ^ 9 := by
    rw [pteFromVa_eq, pageIndex]
    omega
  rw [leafEntry, viewOf, hpath, hpte]

/-- The top-level slots `K` have tables with small pages, each at a position of its own. -/
structure Region (S : Shape Pos Nat) (p : Pos) (K : Nat → Prop) : Prop where
  full : ∀ i j k, K i → S.Full p [i, j, k]
  apart : ∀ i j k i' j' k', K i → K i' → S.at p [i, j, k] = S.at p [i', j', k'] → [i, j, k] = [i', j', k']

/-- The first `count` pages from `start` on show the entries of the mapping, the others what they
showed before. -/
structure Shows (pages : Nat → Nat) (limit : Nat) (S : Shape Pos Nat) (p : Pos) (K : Nat → Prop)
    (pgtable : Nat) (a : MapArgs) (start : Nat) (old : Nat → Nat) (s : MapLoop)
    (pos : Nat → Option Pos) : Prop where
  owned : Owned pages limit S s.tables pos
  root : pos pgtable = some p
  count : s.pageCount ≤ a.numPages
  view : ∀ x, K (x / 2 ^ 27) → viewOf s.tables pgtable x =
    if start ≤ x ∧ x < start + s.pageCount then a.entry (x - start) else old x

/-- Tables that a path leads to are still found there. -/
def Kept (S : Shape Pos Nat) (p : Pos) (pgtable : Nat) (s s' : Tables) : Prop :=
  ∀ path u, S.Inner p path → reach entryFormat s.mem pgtable path = some u →
    reach entryFormat s'.mem pgtable path = some u

/-- The page at an index of each level. -/
def pageAt (i j k l : Nat) : Nat := ((i * 2 ^ 9 + j) * 2 ^ 9 + k) * 2 ^ 9 + l

theorem pagePath_pageAt {i j k l : Nat} (hj : j < 2 ^ 9) (hk : k < 2 ^ 9) (hl : l < 2 ^ 9) :
    pagePath (pageAt i j k l) = [i, j, k] ∧ pageAt i j k l % 2 ^ 9 = l := by
  constructor
  · simp only [pagePath, pageAt, List.cons.injEq, and_true]
    omega
  · rw [pageAt]
    omega

theorem eq_pageAt {x i j k l : Nat} (hpath : pagePath x = [i, j, k]) (hl : x % 2 ^ 9 = l) :
    x = pageAt i j k l := by
  simp only [pagePath, List.cons.injEq, and_true] at hpath
  rw [pageAt]
  omega

section loops
variable {pages : Nat → Nat} {limit : Nat} {S : Shape Pos Nat} {p : Pos} {K : Nat → Prop}
  {pgtable : Nat} {a : MapArgs} {start : Nat} {old : Nat → Nat} {s : MapLoop} {pos : Nat → Option Pos}
  {t i j k l : Nat} {path : List Nat}

theorem Kept.refl (s : Tables) : Kept S p pgtable s s := fun _ _ _ hreach => hreach

theorem Kept.trans {s s' s'' : Tables} (h : Kept S p pgtable s s') (h' : Kept S p pgtable s' s'') :
    Kept S p pgtable s s'' := fun path u hpath hreach => h' path u hpath (h path u hpath hreach)

theorem Shows.tableAt (hp : Supply pages limit) (hK : Region S p K)
    (h : Shows pages limit S p K pgtable a start old s pos)
    (hreach : reach entryFormat s.tables.mem pgtable path = some t) (hpath : S.Inner p path)
    (hinner : S.inner (S.at p path) i) (hroom : (s.tables.tableAt pages t i).2.next ≤ limit) :
    ∃ pos', Shows pages limit S p K pgtable a start old
        { s with tables := (s.tables.tableAt pages t i).2 } pos' ∧
      Kept S p pgtable s.tables (s.tables.tableAt pages t i).2 ∧
      reach entryFormat (s.tables.tableAt pages t i).2.mem pgtable (path ++ [i]) =
        some (s.tables.tableAt pages t i).1 := by
  have ht := h.owned.labelled.reach_pos h.root hpath hreach
  obtain ⟨pos', hown, hgrow, hpos, hlink⟩ := h.owned.tableAt hp ht hinner hroom
  refine ⟨pos', ⟨hown, hgrow.labels _ _ h.root, h.count, ?_⟩, ?_, ?_⟩
  · intro x hx
    rw [← h.view x hx]
    exact hgrow.leaves _ _ _ _ h.root (hK.full _ _ _ hx)
  · intro path' u hpath' hreach'
    exact hgrow.reaches _ _ _ _ h.root hpath' hreach'
  · rw [reach_append, hgrow.reaches _ _ _ _ h.root hpath hreach]
    exact hlink

theorem Shows.mapPte (hK : Region S p K) (h : Shows pages limit S p K pgtable a start old s pos)
    (hslot : K i) (hreach : reach entryFormat s.tables.mem pgtable [i, j, k] = some t)
    (hj : j < 2 ^ 9) (hk : k < 2 ^ 9) (hl : l < 2 ^ 9) (hmore : s.pageCount < a.numPages)
    (hat : start + s.pageCount = pageAt i j k l) :
    Shows pages limit S p K pgtable a start old (mapPte a t l s) pos ∧
      Kept S p pgtable s.tables (mapPte a t l s).tables := by
  obtain ⟨hinner, hleaf⟩ := hK.full i j k hslot
  have ht := h.owned.labelled.reach_pos h.root hinner hreach
  refine ⟨⟨⟨h.owned.labelled.store ht (hleaf l) _, h.owned.settled⟩, h.root, hmore, ?_⟩, ?_⟩
  · intro x hx
    have hfull := hK.full (x / 2 ^ 27) (x / 2 ^ 18 % 2 ^ 9) (x / 2 ^ 9 % 2 ^ 9) hx
    have hstore := h.owned.labelled.leaf_store ht (hleaf l)
      (a.frame s ||| presentFlag ||| rwFlag ||| if a.prot.user then userFlag else 0) h.root hfull.1
      (x % 2 ^ 9)
    refine hstore.trans ?_
    by_cases hsame : x = pageAt i j k l
    · -- this is the page of the entry
      obtain ⟨hpath, hlow⟩ := pagePath_pageAt (i := i) hj hk hl
      rw [← hsame] at hpath hlow
      have hin : start ≤ x ∧ x < start + (s.pageCount + 1) := by omega
      have hk' : x - start = s.pageCount := by omega
      have hreach' : reach entryFormat s.tables.mem pgtable
          [x / 2 ^ 27, x / 2 ^ 18 % 2 ^ 9, x / 2 ^ 9 % 2 ^ 9] = some t := by
        rw [← hreach, ← hpath]
        rfl
      rw [if_pos ⟨hreach', hlow⟩]
      refine Eq.trans ?_ (if_pos hin).symm
      rw [hk']
      rfl
    · have hne : ¬ (reach entryFormat s.tables.mem pgtable
          [x / 2 ^ 27, x / 2 ^ 18 % 2 ^ 9, x / 2 ^ 9 % 2 ^ 9] = some t ∧ x % 2 ^ 9 = l) := by
        rintro ⟨hreach', hlow⟩
        have hpos := h.owned.labelled.reach_pos h.root hfull.1 hreach'
        have hpath := hK.apart _ _ _ _ _ _ hx hslot (Option.some.inj (hpos.symm.trans ht))
        exact hsame (eq_pageAt hpath hlow)
      rw [if_neg hne]
      refine (h.view x hx).trans ?_
      have hiff : (start ≤ x ∧ x < start + s.pageCount) ↔
          start ≤ x ∧ x < start + (PageTable.mapPte a t l s).pageCount := by
        show _ ↔ start ≤ x ∧ x < start + (s.pageCount + 1)
        omega
      simp only [hiff]
  · intro path' u hpath' hreach'
    rw [← hreach']
    exact h.owned.labelled.reach_store ht (hleaf l) _ h.root hpath'

/-! ### The loops -/

/-- A loop over the entries of the table that a path leads to. `Q j` says where the mapping
stands before the entry `j`; a mapping that is complete may stop before the last one. -/
theorem forWhile_shows {cond : MapLoop → Bool} {body : Nat → MapLoop → MapLoop}
    {Q : Nat → MapLoop → Prop} {n m : Nat} (hlater : ∀ j s, s.tables.next ≤ (body j s).tables.next)
    (hstop : ∀ j j' s, j < j' → s.pageCount ≤ a.numPages → cond s = false → Q j s → Q j' s)
    (hpath : S.Inner p path)
    (hbody : ∀ j, m ≤ j → j < m + n → ∀ s pos, Shows pages limit S p K pgtable a start old s pos →
      reach entryFormat s.tables.mem pgtable path = some t → Q j s → cond s = true →
      (body j s).tables.next ≤ limit →
      ∃ pos', Shows pages limit S p K pgtable a start old (body j s) pos' ∧
        Kept S p pgtable s.tables (body j s).tables ∧ Q (j + 1) (body j s))
    (h : Shows pages limit S p K pgtable a start old s pos)
    (hreach : reach entryFormat s.tables.mem pgtable path = some t) (hQ : Q m s)
    (hroom : (forWhile cond body n m s).tables.next ≤ limit) :
    ∃ pos', Shows pages limit S p K pgtable a start old (forWhile cond body n m s) pos' ∧
      Kept S p pgtable s.tables (forWhile cond body n m s).tables ∧
      Q (m + n) (forWhile cond body n m s) := by
  induction n generalizing m s pos with
  | zero => exact ⟨pos, h, .refl _, hQ⟩
  | succ n ih =>
      rw [forWhile] at hroom ⊢
      split at hroom
      case isFalse hend =>
        rw [if_neg hend]
        exact ⟨pos, h, .refl _, hstop _ _ s (by omega) h.count (Bool.not_eq_true _ ▸ hend) hQ⟩
      case isTrue hmore =>
        rw [if_pos hmore]
        obtain ⟨pos₁, h₁, hkept₁, hQ₁⟩ := hbody m (Nat.le_refl _) (by omega) s pos h hreach hQ hmore
          ((forWhile_later hlater n (m + 1) (body m s)).trans hroom)
        obtain ⟨pos₂, h₂, hkept₂, hQ₂⟩ := ih (fun j hj hjn => hbody j (by omega) (by omega)) h₁
          (hkept₁ _ _ hpath hreach) hQ₁ hroom
        refine ⟨pos₂, h₂, hkept₁.trans hkept₂, ?_⟩
        rwa [Nat.add_right_comm] at hQ₂

theorem level_shows (hp : Supply pages limit) (hK : Region S p K) {cond : MapLoop → Bool}
    {body : Nat → Nat → MapLoop → MapLoop} {Q : Nat → MapLoop → Prop} {n m : Nat}
    (hlater : ∀ u j s, s.tables.next ≤ (body u j s).tables.next)
    (hstop : ∀ j j' s, j < j' → s.pageCount ≤ a.numPages → cond s = false → Q j s → Q j' s)
    (hpath : S.Inner p path) (hpath' : S.Inner p (path ++ [i])) (hinner : S.inner (S.at p path) i)
    (hbody : ∀ u j, m ≤ j → j < m + n → ∀ s pos, Shows pages limit S p K pgtable a start old s pos →
      reach entryFormat s.tables.mem pgtable (path ++ [i]) = some u → Q j s → cond s = true →
      (body u j s).tables.next ≤ limit →
      ∃ pos', Shows pages limit S p K pgtable a start old (body u j s) pos' ∧
        Kept S p pgtable s.tables (body u j s).tables ∧ Q (j + 1) (body u j s))
    (h : Shows pages limit S p K pgtable a start old s pos)
    (hreach : reach entryFormat s.tables.mem pgtable path = some t)
    (hQ : Q m { s with tables := (s.tables.tableAt pages t i).2 })
    (hroom : (forWhile cond (body (s.tables.tableAt pages t i).1) n m
      { s with tables := (s.tables.tableAt pages t i).2 }).tables.next ≤ limit) :
    ∃ pos', Shows pages limit S p K pgtable a start old (forWhile cond
        (body (s.tables.tableAt pages t i).1) n m { s with tables := (s.tables.tableAt pages t i).2 }) pos' ∧
      Kept S p pgtable s.tables (forWhile cond (body (s.tables.tableAt pages t i).1) n m
        { s with tables := (s.tables.tableAt pages t i).2 }).tables ∧
      Q (m + n) (forWhile cond (body (s.tables.tableAt pages t i).1) n m
        { s with tables := (s.tables.tableAt pages t i).2 }) := by
  obtain ⟨pos₁, h₁, hkept₁, hreach₁⟩ := h.tableAt hp hK hreach hpath hinner
    ((forWhile_later (hlater _) n m _).trans hroom)
  obtain ⟨pos₂, h₂, hkept₂, hQ₂⟩ := forWhile_shows (hlater _) hstop hpath' (hbody _) h₁ hreach₁ hQ hroom
  exact ⟨pos₂, h₂, hkept₁.trans hkept₂, hQ₂⟩

theorem Shows.congr {s' : MapLoop} (h : Shows pages limit S p K pgtable a start old s pos)
    (htables : s'.tables = s.tables) (hcount : s'.pageCount = s.pageCount) :
    Shows pages limit S p K pgtable a start old s' pos := by
  constructor
  · exact htables ▸ h.owned
  · exact h.root
  · exact hcount ▸ h.count
  · rw [htables, hcount]
    exact h.view

/-- Every page is mapped, all of them before `x`. -/
def Complete (a : MapArgs) (start : Nat) (s : MapLoop) (x : Nat) : Prop :=
  s.pageCount = a.numPages ∧ start + s.pageCount ≤ x

/-- Where the mapping stands before an entry of a table with pages. -/
def AtPte (a : MapArgs) (start i j k l : Nat) (s : MapLoop) : Prop :=
  Complete a start s (pageAt i j k l) ∨ start + s.pageCount = pageAt i j k l

def AtPdet (a : MapArgs) (start i j k : Nat) (s : MapLoop) : Prop :=
  Complete a start s (pageAt i j k 0) ∨
    s.ptei < 512 ∧ (k = 512 → s.ptei = 0) ∧ start + s.pageCount = pageAt i j k s.ptei

def AtPdpt (a : MapArgs) (start i j : Nat) (s : MapLoop) : Prop :=
  Complete a start s (pageAt i j 0 0) ∨
    s.ptei < 512 ∧ s.pdeti < 512 ∧ (j = 512 → s.pdeti = 0 ∧ s.ptei = 0) ∧
      start + s.pageCount = pageAt i j s.pdeti s.ptei

/-- At the top level the lower indices are only used for the first entry. -/
def AtPml4 (a : MapArgs) (start first i : Nat) (s : MapLoop) : Prop :=
  s.pdpti < 512 ∧ (Complete a start s (pageAt i 0 0 0) ∨
    s.ptei < 512 ∧ s.pdeti < 512 ∧ (first < i → s.pdpti = 0 ∧ s.pdeti = 0 ∧ s.ptei = 0) ∧
      start + s.pageCount = pageAt i s.pdpti s.pdeti s.ptei)

theorem Complete.not_more {x : Nat} (h : Complete a start s x) : ¬ a.more s = true := by
  simp [MapArgs.more, h.1]

theorem complete_of_stop {x : Nat} (hcount : s.pageCount ≤ a.numPages) (hstop : a.more s = false)
    (hle : start + s.pageCount ≤ x) : Complete a start s x := by
  have := of_decide_eq_false hstop
  exact ⟨by omega, hle⟩

theorem AtPte.stop {l' : Nat} (hlt : l < l') (hcount : s.pageCount ≤ a.numPages)
    (hstop : a.more s = false) (h : AtPte a start i j k l s) : AtPte a start i j k l' s := by
  refine .inl (complete_of_stop hcount hstop ?_)
  simp only [AtPte, Complete, pageAt] at h ⊢
  omega

theorem AtPdet.stop {k' : Nat} (hlt : k < k') (hcount : s.pageCount ≤ a.numPages)
    (hstop : a.more s = false) (h : AtPdet a start i j k s) : AtPdet a start i j k' s := by
  refine .inl (complete_of_stop hcount hstop ?_)
  simp only [AtPdet, Complete, pageAt] at h ⊢
  omega

theorem AtPdpt.stop {j' : Nat} (hlt : j < j') (hcount : s.pageCount ≤ a.numPages)
    (hstop : a.more s = false) (h : AtPdpt a start i j s) : AtPdpt a start i j' s := by
  refine .inl (complete_of_stop hcount hstop ?_)
  simp only [AtPdpt, Complete, pageAt] at h ⊢
  omega

theorem mapPte_shows (hK : Region S p K) (hslot : K i) (hj : j < 512) (hk : k < 512) (hl : l < 512)
    (h : Shows pages limit S p K pgtable a start old s pos)
    (hreach : reach entryFormat s.tables.mem pgtable [i, j, k] = some t)
    (hat : AtPte a start i j k l s) (hmore : a.more s = true) :
    ∃ pos', Shows pages limit S p K pgtable a start old (mapPte a t l s) pos' ∧
      Kept S p pgtable s.tables (mapPte a t l s).tables ∧ AtPte a start i j k (l + 1) (mapPte a t l s) := by
  have hlt : s.pageCount < a.numPages := of_decide_eq_true hmore
  have hx := hat.resolve_left fun hdone => hdone.not_more hmore
  obtain ⟨h', hkept⟩ := h.mapPte hK hslot hreach hj hk hl hlt hx
  refine ⟨pos, h', hkept, .inr ?_⟩
  show start + (s.pageCount + 1) = pageAt i j k (l + 1)
  simp only [pageAt] at hx ⊢
  omega

theorem mapPdet_shows (hp : Supply pages limit) (hK : Region S p K) (hsmall : a.big = false) (hslot : K i)
    (hj : j < 512) (hk : k < 512) (h : Shows pages limit S p K pgtable a start old s pos)
    (hreach : reach entryFormat s.tables.mem pgtable [i, j] = some t)
    (hat : AtPdet a start i j k s) (hmore : a.more s = true)
    (hroom : (mapPdet pages a t k s).tables.next ≤ limit) :
    ∃ pos', Shows pages limit S p K pgtable a start old (mapPdet pages a t k s) pos' ∧
      Kept S p pgtable s.tables (mapPdet pages a t k s).tables ∧
      AtPdet a start i j (k + 1) (mapPdet pages a t k s) := by
  obtain ⟨hptei, -, hnext⟩ := hat.resolve_left fun hdone => hdone.not_more hmore
  obtain ⟨hi', hj', hk', -⟩ := (hK.full i j k hslot).1
  have hpath : S.Inner p [i, j] := ⟨hi', hj', trivial⟩
  have hpath' : S.Inner p ([i, j] ++ [k]) := ⟨hi', hj', hk', trivial⟩
  unfold mapPdet at hroom ⊢
  rw [if_neg (by simp [hsmall])] at hroom ⊢
  obtain ⟨pos', h', hkept, hend⟩ := level_shows (n := 512 - s.ptei) (m := s.ptei)
    (Q := AtPte a start i j k) hp hK (mapPte_later a) (fun _ _ _ => AtPte.stop) hpath hpath' hk'
    (fun u l _ _ s pos h hreach hat hmore _ => mapPte_shows hK hslot hj hk (by omega) h hreach hat hmore)
    h hreach (.inr hnext) hroom
  have hlast : pageAt i j k (s.ptei + (512 - s.ptei)) = pageAt i j (k + 1) 0 := by
    simp only [pageAt]
    omega
  rw [AtPte, hlast] at hend
  exact ⟨pos', h'.congr rfl rfl, hkept, hend.imp_right fun hx => ⟨Nat.zero_lt_succ 511, fun _ => rfl, hx⟩⟩

theorem mapPdpt_shows (hp : Supply pages limit) (hK : Region S p K) (hsmall : a.big = false) (hslot : K i)
    (hj : j < 512) (h : Shows pages limit S p K pgtable a start old s pos)
    (hreach : reach entryFormat s.tables.mem pgtable [i] = some t)
    (hat : AtPdpt a start i j s) (hmore : a.more s = true)
    (hroom : (mapPdpt pages a t j s).tables.next ≤ limit) :
    ∃ pos', Shows pages limit S p K pgtable a start old (mapPdpt pages a t j s) pos' ∧
      Kept S p pgtable s.tables (mapPdpt pages a t j s).tables ∧
      AtPdpt a start i (j + 1) (mapPdpt pages a t j s) := by
  obtain ⟨hptei, hpdeti, -, hnext⟩ := hat.resolve_left fun hdone => hdone.not_more hmore
  obtain ⟨hi', hj', -, -⟩ := (hK.full i j 0 hslot).1
  have hpath : S.Inner p [i] := ⟨hi', trivial⟩
  have hpath' : S.Inner p ([i] ++ [j]) := ⟨hi', hj', trivial⟩
  obtain ⟨pos', h', hkept, hend⟩ := level_shows (n := 512 - s.pdeti) (m := s.pdeti)
    (Q := AtPdet a start i j) hp hK (mapPdet_later pages a) (fun _ _ _ => AtPdet.stop) hpath hpath' hj'
    (fun u k _ _ s pos h hreach hat hmore => mapPdet_shows hp hK hsmall hslot hj (by omega) h hreach hat hmore)
    h hreach (.inr ⟨hptei, by omega, hnext⟩) hroom
  refine ⟨pos', h'.congr rfl rfl, hkept, ?_⟩
  have hlast : ∀ l, pageAt i j (s.pdeti + (512 - s.pdeti)) l = pageAt i (j + 1) 0 l := by
    intro l
    simp only [pageAt]
    omega
  rw [AtPdet, hlast, hlast] at hend
  refine hend.imp_right ?_
  rintro ⟨hptei', hzero, hx⟩
  exact ⟨hptei', Nat.zero_lt_succ 511, fun _ => ⟨rfl, hzero (by omega)⟩, hx⟩

theorem mapPml4_shows (hp : Supply pages limit) (hK : Region S p K) (hsmall : a.big = false) (hslot : K i)
    (h : Shows pages limit S p K pgtable a start old s pos)
    {first : Nat} (hat : AtPml4 a start first i s)
    (hroom : (mapPml4 pages a pgtable i s).tables.next ≤ limit) :
    ∃ pos', Shows pages limit S p K pgtable a start old (mapPml4 pages a pgtable i s) pos' ∧
      Kept S p pgtable s.tables (mapPml4 pages a pgtable i s).tables ∧
      AtPml4 a start first (i + 1) (mapPml4 pages a pgtable i s) := by
  obtain ⟨hpdpti, hcase⟩ := hat
  obtain ⟨hi', -, -, -⟩ := (hK.full i 0 0 hslot).1
  have hpath : S.Inner p [] := trivial
  have hpath' : S.Inner p ([] ++ [i]) := ⟨hi', trivial⟩
  have hfirst : AtPdpt a start i s.pdpti { s with tables := (s.tables.tableAt pages pgtable i).2 } := by
    refine hcase.imp ?_ ?_
    · rintro ⟨hall, hle⟩
      refine ⟨hall, hle.trans ?_⟩
      simp only [pageAt]
      omega
    · rintro ⟨hptei, hpdeti, -, hnext⟩
      exact ⟨hptei, hpdeti, by omega, hnext⟩
  obtain ⟨pos', h', hkept, hend⟩ := level_shows (n := 512 - s.pdpti) (m := s.pdpti)
    (Q := AtPdpt a start i) hp hK (mapPdpt_later pages a) (fun _ _ _ => AtPdpt.stop) hpath hpath' hi'
    (fun u j _ _ s pos h hreach hat hmore => mapPdpt_shows hp hK hsmall hslot (by omega) h hreach hat hmore)
    h rfl hfirst hroom
  refine ⟨pos', h'.congr rfl rfl, hkept, Nat.zero_lt_succ 511, ?_⟩
  have hlast : ∀ k l, pageAt i (s.pdpti + (512 - s.pdpti)) k l = pageAt (i + 1) 0 k l := by
    intro k l
    simp only [pageAt]
    omega
  rw [AtPdpt, hlast, hlast] at hend
  refine hend.imp_right ?_
  rintro ⟨hptei, hpdeti, hzero, hx⟩
  exact ⟨hptei, hpdeti, fun _ => ⟨rfl, hzero (by omega)⟩, hx⟩

/-- Mapping small pages: consecutive pages up to the last one, or up to the end of the last
top-level entry that the loop gets to. -/
theorem mapContiguous_shows (hp : Supply pages limit) (hK : Region S p K) {physAddr vaddr size : Nat}
    {prot : Prot} {s s' : Tables} (hown : Owned pages limit S s pos) (hroot : pos pgtable = some p)
    (hslots : ∀ i, pml4FromVa vaddr ≤ i → i ≤ pml4FromVa vaddr + pml4FromVa size → K i)
    (hmap : mapContiguous pages s pgtable physAddr vaddr size false prot = some s')
    (hroom : s'.next ≤ limit) :
    ∃ pos', Owned pages limit S s' pos' ∧ pos' pgtable = some p ∧
      ∀ x, K (x / 2 ^ 27) → viewOf s' pgtable x =
        if pageIndex vaddr ≤ x ∧ x < pageIndex vaddr + (MapArgs.mk physAddr size false prot).numPages ∧
            x / 2 ^ 27 ≤ pml4FromVa vaddr + pml4FromVa size then
          (MapArgs.mk physAddr size false prot).entry (x - pageIndex vaddr)
        else viewOf s pgtable x := by
  unfold mapContiguous at hmap
  dsimp only at hmap
  split at hmap
  case isFalse => contradiction
  case isTrue =>
    obtain rfl := Option.some.inj hmap
    have hpdpt : pdptFromVa vaddr < 512 := pdptFromVa_eq vaddr ▸ Nat.mod_lt _ (by norm_num)
    have hpdet : pdetFromVa vaddr < 512 := pdetFromVa_eq vaddr ▸ Nat.mod_lt _ (by norm_num)
    have hpte : pteFromVa vaddr < 512 := pteFromVa_eq vaddr ▸ Nat.mod_lt _ (by norm_num)
    have hstart : pageIndex vaddr =
        pageAt (pml4FromVa vaddr) (pdptFromVa vaddr) (pdetFromVa vaddr) (pteFromVa vaddr) := by
      simp only [pageIndex, pageAt, pml4FromVa_eq, pdptFromVa_eq, pdetFromVa_eq, pteFromVa_eq]
      omega
    have hview : Shows pages limit S p K pgtable ⟨physAddr, size, false, prot⟩ (pageIndex vaddr)
        (viewOf s pgtable) (MapLoop.start s vaddr) pos := by
      refine ⟨hown, hroot, Nat.zero_le _, fun x _ => ?_⟩
      rw [if_neg]
      · rfl
      · simp only [MapLoop.start]
        omega
    have hpath : S.Inner p [] := trivial
    obtain ⟨pos', h', -, -, hend⟩ := forWhile_shows (t := pgtable)
      (Q := AtPml4 ⟨physAddr, size, false, prot⟩ (pageIndex vaddr) (pml4FromVa vaddr))
      (mapPml4_later pages _ pgtable)
      (fun _ _ _ _ _ hstop => Bool.noConfusion hstop) hpath
      (fun i hlow hhigh s pos h _ hat _ => mapPml4_shows hp hK rfl (hslots i hlow (by omega)) h hat)
      hview rfl ⟨hpdpt, .inr ⟨hpte, hpdet, by omega, hstart⟩⟩ hroom
    refine ⟨pos', h'.owned, h'.root, fun x hx => (h'.view x hx).trans ?_⟩
    -- both ends of the loop leave the same pages
    have hcount := h'.count
    refine if_congr ?_ rfl rfl
    rcases hend with ⟨hall, hle⟩ | ⟨-, -, hzero, hnext⟩
    · simp only [pageAt] at hle
      omega
    · obtain ⟨hpdpti, hpdeti, hptei⟩ := hzero (by omega)
      simp only [pageAt, hpdpti, hpdeti, hptei] at hnext
      omega

end loops

end Lucix.PageTable
