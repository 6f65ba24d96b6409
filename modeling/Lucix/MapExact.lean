import Lucix.PageWalk
import Lucix.ProcessTables

/-! Which pages `map_contiguous` maps, in both page sizes and in any tree. Pages of
4 KiB are numbered; a page of the mapping covers one of them or 512. The four loops
share their indices and a counter, and wherever they stand the pages before the
counter are mapped and all others are as before. A large page on the way to 4 KiB pages
is taken for a table, and stays. Only the bound of the outermost loop does not come
from the range: it is computed from the size alone. -/
namespace Lucix.PageTable
open RadixWalk (Slot walk)

/-- The 4 KiB pages in a page of the mapping. -/
def MapArgs.unit (a : MapArgs) : Nat := if a.big then 2 ^ 9 else 1

/-- The first page of a range. -/
def MapArgs.start (a : MapArgs) (vaddr : Nat) : Nat := pageIndex vaddr / a.unit * a.unit

/-- The entry for the page that comes after `k` others, in either size. -/
def MapArgs.word (a : MapArgs) (k : Nat) : Nat :=
  if a.big then
    pageFrame (wrap64 (a.physAddr + k * a.pgsize)) ||| presentFlag ||| rwFlag ||| pdetPageSize ||| userFlag
  else a.entry k

/-- The indices that a walk to a page of the mapping does not use. -/
def MapArgs.spare (a : MapArgs) (x : Nat) : List Nat := if a.big then [x % 2 ^ 9] else []

/-- How many of them there are. -/
def MapArgs.depth (a : MapArgs) : Nat := if a.big then 1 else 0

/-- The first page that is not mapped yet. -/
def MapArgs.reached (a : MapArgs) (first : Nat) (s : MapLoop) : Nat := first + s.pageCount * a.unit

/-- The page lies in a larger page than those of the mapping. -/
def MapArgs.blocked (a : MapArgs) (old : Nat → Option (Nat × List Nat)) (x : Nat) : Bool :=
  (old x).any fun r => decide (a.depth < r.2.length)

/-- Larger pages in the range are pages of 2 MiB, and no table stands where they begin: the entries
that the innermost loop stores there are not seen. -/
def MapArgs.Spared (a : MapArgs) (pages : Nat → Nat) (limit first : Nat)
    (old : Nat → Option (Nat × List Nat)) (s : Tables) (pos : Nat → Option (List Nat)) : Prop :=
  ∀ x, first ≤ x → x < first + a.numPages * a.unit → ∀ w r, old x = some (w, r) → a.depth < r.length →
    r.length = 1 ∧ Apart pages limit s pos (pa2va (pageFrame w))

/-- The pages up to there show the entries of the mapping, the others what they showed before. -/
structure Maps (pages : Nat → Nat) (limit pgtable : Nat) (a : MapArgs) (first : Nat)
    (old : Nat → Option (Nat × List Nat)) (s : MapLoop) : Prop where
  rooted : ∃ pos, Rooted pages limit pgtable s.tables pos ∧
    a.Spared pages limit first old s.tables pos
  count : s.pageCount ≤ a.numPages
  walks : ∀ x, walkAt s.tables pgtable x =
    if (first ≤ x ∧ x < a.reached first s) ∧ a.blocked old x = false then
      some (a.word ((x - first) / a.unit), a.spare x)
    else old x

/-- Tables above the entries of the mapping are still found where they were. -/
def KeepsTables (a : MapArgs) (pgtable : Nat) (s s' : Tables) : Prop :=
  ∀ q u, q.length + a.depth ≤ 3 → tableOf s pgtable q = some u → tableOf s' pgtable q = some u

/-- Every page is mapped, all of them before `x`. -/
def MapArgs.Done (a : MapArgs) (first : Nat) (s : MapLoop) (x : Nat) : Prop :=
  s.pageCount = a.numPages ∧ a.reached first s ≤ x

/-- The index at the lowest level, which large pages do not use. -/
def MapArgs.low (a : MapArgs) (s : MapLoop) : Nat := if a.big then 0 else s.ptei

def BeforePte (a : MapArgs) (first i j k l : Nat) (s : MapLoop) : Prop :=
  a.Done first s (pageAt i j k l) ∨ a.reached first s = pageAt i j k l

def BeforePdet (a : MapArgs) (first i j k : Nat) (s : MapLoop) : Prop :=
  a.Done first s (pageAt i j k 0) ∨
    a.low s < 512 ∧ (k = 512 → a.low s = 0) ∧ a.reached first s = pageAt i j k (a.low s)

def BeforePdpt (a : MapArgs) (first i j : Nat) (s : MapLoop) : Prop :=
  a.Done first s (pageAt i j 0 0) ∨
    a.low s < 512 ∧ s.pdeti < 512 ∧ (j = 512 → s.pdeti = 0 ∧ a.low s = 0) ∧
      a.reached first s = pageAt i j s.pdeti (a.low s)

/-- At the top level the lower indices are only used for the first entry. -/
def BeforePml4 (a : MapArgs) (first slot i : Nat) (s : MapLoop) : Prop :=
  s.pdpti < 512 ∧ (a.Done first s (pageAt i 0 0 0) ∨
    a.low s < 512 ∧ s.pdeti < 512 ∧ (slot < i → s.pdpti = 0 ∧ s.pdeti = 0 ∧ a.low s = 0) ∧
      a.reached first s = pageAt i s.pdpti s.pdeti (a.low s))

section stages
variable {pages : Nat → Nat} {limit pgtable : Nat} {a : MapArgs} {first : Nat}
  {old : Nat → Option (Nat × List Nat)} {s s' : MapLoop} {t i j k l x : Nat} {p q : List Nat}

theorem KeepsTables.refl (s : Tables) : KeepsTables a pgtable s s := fun _ _ _ ht => ht

theorem KeepsTables.trans {s s' s'' : Tables} (h : KeepsTables a pgtable s s')
    (h' : KeepsTables a pgtable s' s'') : KeepsTables a pgtable s s'' :=
  fun q u hq ht => h' q u hq (h q u hq ht)

theorem MapArgs.unit_pos (a : MapArgs) : 0 < a.unit := by
  unfold MapArgs.unit
  split <;> norm_num

theorem MapArgs.reached_lt (first : Nat) (hmore : s.pageCount < a.numPages) :
    a.reached first s < first + a.numPages * a.unit :=
  Nat.add_lt_add_left (Nat.mul_lt_mul_of_pos_right hmore a.unit_pos) first

theorem MapArgs.reached_le (first : Nat) (hcount : s.pageCount ≤ a.numPages) :
    a.reached first s ≤ first + a.numPages * a.unit :=
  Nat.add_le_add_left (Nat.mul_le_mul_right a.unit hcount) first

theorem MapArgs.reached_succ (first : Nat) (hcount : s'.pageCount = s.pageCount + 1) :
    a.reached first s' = a.reached first s + a.unit := by
  rw [MapArgs.reached, MapArgs.reached, hcount, Nat.succ_mul, Nat.add_assoc]

theorem MapArgs.Done.not_more (h : a.Done first s x) : ¬ a.more s = true := by
  simp [MapArgs.more, h.1]

/-- Where a loop stops, every page is mapped. -/
theorem done_of_stop (hcount : s.pageCount ≤ a.numPages) (hstop : a.more s = false)
    (hle : a.reached first s ≤ x) : a.Done first s x := by
  have hnot := of_decide_eq_false hstop
  exact ⟨by omega, hle⟩

theorem BeforePte.stop {l' : Nat} (hlt : l < l') (hcount : s.pageCount ≤ a.numPages)
    (hstop : a.more s = false) (h : BeforePte a first i j k l s) : BeforePte a first i j k l' s := by
  refine .inl (done_of_stop hcount hstop ?_)
  simp only [BeforePte, MapArgs.Done, pageAt] at h ⊢
  omega

theorem BeforePdet.stop {k' : Nat} (hlt : k < k') (hcount : s.pageCount ≤ a.numPages)
    (hstop : a.more s = false) (h : BeforePdet a first i j k s) : BeforePdet a first i j k' s := by
  refine .inl (done_of_stop hcount hstop ?_)
  simp only [BeforePdet, MapArgs.Done, pageAt] at h ⊢
  omega

theorem BeforePdpt.stop {j' : Nat} (hlt : j < j') (hcount : s.pageCount ≤ a.numPages)
    (hstop : a.more s = false) (h : BeforePdpt a first i j s) : BeforePdpt a first i j' s := by
  refine .inl (done_of_stop hcount hstop ?_)
  simp only [BeforePdpt, MapArgs.Done, pageAt] at h ⊢
  omega

theorem Maps.congr (h : Maps pages limit pgtable a first old s) (htables : s'.tables = s.tables)
    (hcount : s'.pageCount = s.pageCount) : Maps pages limit pgtable a first old s' := by
  have hreached : a.reached first s' = a.reached first s := by rw [MapArgs.reached, hcount]; rfl
  refine ⟨htables ▸ h.rooted, hcount ▸ h.count, fun x => ?_⟩
  rw [htables, hreached]
  exact h.walks x

theorem MapArgs.depth_le (a : MapArgs) : a.depth ≤ 1 := by
  unfold MapArgs.depth
  split <;> norm_num

theorem MapArgs.Spared.later {s s' : Tables} {pos pos' : Nat → Option (List Nat)}
    (h : a.Spared pages limit first old s pos)
    (hlater : ∀ u, Apart pages limit s pos u → Apart pages limit s' pos' u) :
    a.Spared pages limit first old s' pos' := by
  intro x hlow hhigh w r hold hdeep
  obtain ⟨hlen, hapart⟩ := h x hlow hhigh w r hold hdeep
  exact ⟨hlen, hlater _ hapart⟩

theorem MapArgs.not_blocked (h : ∀ w r, old x = some (w, r) → r.length ≤ a.depth) :
    a.blocked old x = false := by
  unfold MapArgs.blocked
  cases hold : old x with
  | none => rfl
  | some r => simpa using h r.1 r.2 hold

/-- What the pages that are still to come show. -/
theorem Maps.ahead (h : Maps pages limit pgtable a first old s) (hx : a.reached first s ≤ x) :
    walkAt s.tables pgtable x = old x := by
  rw [h.walks, if_neg (by omega)]

theorem path_pageAt (hj : j < 512) (hk : k < 512) (hl : l < 512) :
    pagePath (pageAt i j k l) ++ [pageAt i j k l % 2 ^ 9] = [i, j, k, l] := by
  obtain ⟨hpath, hlast⟩ := pagePath_pageAt (i := i) hj hk hl
  rw [hpath, hlast]
  rfl

/-- An entry that ends the walk on the way to a page. -/
theorem walkAt_of_value {s : Tables} {w : Nat} (ht : tableOf s pgtable p = some t)
    (hpath : pagePath x ++ [x % 2 ^ 9] = p ++ i :: q)
    (hread : hwCoding.read (4 - p.length - 1) (s.mem t i) = .value w) :
    walkAt s pgtable x = some (w, q) := by
  have hlen : p.length + (q.length + 1) = 4 := by
    have hlength := congrArg List.length hpath
    rw [length_pagePath, List.length_append, List.length_cons] at hlength
    exact hlength.symm
  rw [walkAt, hpath, RadixWalk.walk_append (u := t) (by rw [List.length_cons, hlen]; exact ht),
    RadixWalk.walk_cons, show q.length = 4 - p.length - 1 by omega, hread]

theorem Maps.not_value (h : Maps pages limit pgtable a first old s)
    (hmore : s.pageCount < a.numPages) (ht : tableOf s.tables pgtable p = some t)
    (hpath : pagePath (a.reached first s) ++ [a.reached first s % 2 ^ 9] = p ++ i :: q)
    (hdeep : 1 < q.length) (w : Nat) :
    hwCoding.read (4 - p.length - 1) (s.tables.mem t i) ≠ .value w := by
  intro hread
  have hold := walkAt_of_value ht hpath hread
  rw [h.ahead (Nat.le_refl _)] at hold
  obtain ⟨pos, -, hspared⟩ := h.rooted
  have hone := (hspared _ (Nat.le_add_right _ _) (MapArgs.reached_lt first hmore) w q hold
    (lt_of_le_of_lt a.depth_le hdeep)).1
  omega

theorem forWhile_rule {cond : MapLoop → Bool} {body : Nat → MapLoop → MapLoop} {Q : Nat → MapLoop → Prop}
    {n m : Nat} (hlater : ∀ j s, s.tables.next ≤ (body j s).tables.next)
    (hstop : ∀ j j' s, j < j' → cond s = false → Q j s → Q j' s)
    (hbody : ∀ j, m ≤ j → j < m + n → ∀ s, Q j s → cond s = true →
      (body j s).tables.next ≤ limit → Q (j + 1) (body j s))
    (hQ : Q m s) (hroom : (forWhile cond body n m s).tables.next ≤ limit) :
    Q (m + n) (forWhile cond body n m s) := by
  induction n generalizing m s with
  | zero => exact hQ
  | succ n ih =>
      rw [forWhile] at hroom ⊢
      split at hroom
      case isFalse hend =>
        rw [if_neg hend]
        exact hstop m (m + (n + 1)) s (by omega) (Bool.not_eq_true _ ▸ hend) hQ
      case isTrue hmore =>
        rw [if_pos hmore]
        have hfirst := hbody m (Nat.le_refl _) (by omega) s hQ hmore
          ((forWhile_later hlater n (m + 1) (body m s)).trans hroom)
        have hrest := ih (fun j hj hjn => hbody j (by omega) (by omega)) hfirst hroom
        rwa [Nat.add_right_comm] at hrest

theorem MapArgs.read_word (a : MapArgs) (k : Nat) : hwCoding.read a.depth (a.word k) = .value (a.word k) := by
  have hpresent : ∀ flags, flags &&& presentFlag = 1 →
      ¬ (pageFrame (wrap64 (a.physAddr + k * a.pgsize)) ||| flags) &&& presentFlag = 0 := by
    intro flags hflags
    rw [frame_or_and _ _ (by decide), hflags]
    decide
  cases hbig : a.big with
  | true =>
      have hsize : (pageFrame (wrap64 (a.physAddr + k * a.pgsize)) |||
          (presentFlag ||| (rwFlag ||| (pdetPageSize ||| userFlag)))) &&& pdetPageSize ≠ 0 := by
        rw [frame_or_and _ _ (by decide)]
        decide
      simp only [MapArgs.word, hbig, if_true, Nat.or_assoc, hwCoding]
      rw [if_neg (hpresent _ (by decide)), if_pos (.inr hsize)]
  | false =>
      have hflags : (presentFlag ||| (rwFlag ||| if a.prot.user = true then userFlag else 0)) &&&
          presentFlag = 1 := by
        split <;> decide
      simp only [MapArgs.word, MapArgs.entry, MapArgs.depth, hbig, Nat.or_assoc, hwCoding,
        Bool.false_eq_true, if_false]
      rw [if_neg (hpresent _ hflags)]
      rfl

theorem MapArgs.spare_eq (a : MapArgs) (x : Nat) (hlen : p.length + a.depth = 3)
    (hpath : pagePath x ++ [x % 2 ^ 9] = p ++ i :: q) : a.spare x = q := by
  have hq : (pagePath x ++ [x % 2 ^ 9]).drop (p.length + 1) = q := by
    rw [hpath, List.append_cons, List.drop_left' (by simp)]
  rw [← hq]
  cases hbig : a.big with
  | true =>
      have hp : p.length = 2 := by
        simp only [MapArgs.depth, hbig, if_true] at hlen
        omega
      simp [MapArgs.spare, hbig, hp, pagePath]
  | false =>
      have hp : p.length = 3 := by
        simp only [MapArgs.depth, hbig, Bool.false_eq_true, if_false] at hlen
        omega
      simp [MapArgs.spare, hbig, hp, pagePath]

theorem Maps.store (h : Maps pages limit pgtable a first old s) (hmore : s.pageCount < a.numPages)
    (ht : tableOf s.tables pgtable p = some t) (hlen : p.length + a.depth = 3)
    (hpages : ∀ x, p ++ [i] <+: pagePath x ++ [x % 2 ^ 9] ↔
      a.reached first s ≤ x ∧ x < a.reached first s + a.unit)
    (htables : s'.tables = s.tables.set t i (a.word s.pageCount))
    (hcount : s'.pageCount = s.pageCount + 1) :
    Maps pages limit pgtable a first old s' ∧ KeepsTables a pgtable s.tables s'.tables := by
  obtain ⟨pos, hrooted, hspared⟩ := h.rooted
  have hread : hwCoding.read (4 - p.length - 1) (a.word s.pageCount) = .value (a.word s.pageCount) := by
    have hlevel : 4 - p.length - 1 = a.depth := by omega
    rw [hlevel]
    exact a.read_word s.pageCount
  obtain ⟨hrooted', hself, hother, hkept⟩ := hrooted.set (i := i) ht (by omega) hread
  have hreached := MapArgs.reached_succ (a := a) first hcount
  have hle : first ≤ a.reached first s := Nat.le_add_right _ _
  have hspared' : a.Spared pages limit first old s'.tables pos := by
    rw [htables]
    exact hspared.later fun u hu => ⟨hu.unplaced, hu.settled⟩
  refine ⟨⟨⟨pos, htables ▸ hrooted', hspared'⟩, by omega, fun x => ?_⟩, fun q u hq hu => ?_⟩
  · rw [htables, hreached]
    by_cases hin : p ++ [i] <+: pagePath x ++ [x % 2 ^ 9]
    · -- this is a page of the entry
      obtain ⟨hlow, hhigh⟩ := (hpages x).mp hin
      obtain ⟨q, hq⟩ := hin
      have hpath : pagePath x ++ [x % 2 ^ 9] = p ++ i :: q := by
        rw [← hq, ← List.append_cons]
      have hindex : (x - first) / a.unit = s.pageCount := by
        rw [MapArgs.reached] at hlow hhigh
        apply Nat.div_eq_of_lt_le
        · omega
        · rw [Nat.succ_mul]
          omega
      have hlength : p.length + (q.length + 1) = 4 := by
        have hsame := congrArg List.length hpath
        rw [length_pagePath, List.length_append, List.length_cons] at hsame
        exact hsame.symm
      -- the walk comes through this table, so no larger page ends it before
      have hfree : a.blocked old x = false := by
        apply MapArgs.not_blocked
        intro w r hold
        rw [← h.ahead hlow, walkAt, hpath,
          RadixWalk.walk_append (u := t) (by rw [List.length_cons, hlength]; exact ht)] at hold
        have hshort := RadixWalk.walk_length_lt hold
        rw [List.length_cons] at hshort
        omega
      rw [if_pos ⟨⟨hle.trans hlow, hhigh⟩, hfree⟩, hindex, MapArgs.spare_eq a x hlen hpath, walkAt, hpath]
      exact hself q hlength
    · have hout : (first ≤ x ∧ x < a.reached first s + a.unit) ↔ first ≤ x ∧ x < a.reached first s := by
        rw [hpages] at hin
        omega
      rw [if_congr (and_congr_left' hout) rfl rfl, ← h.walks x]
      exact hother _ (length_pagePath x) hin
  · rw [htables]
    refine hkept q u ?_ hu
    intro hpre
    have hlength := hpre.length_le
    rw [List.length_append, List.length_singleton] at hlength
    omega

/-! ### The loops -/

theorem Maps.descend (hp : Supply pages limit) (h : Maps pages limit pgtable a first old s)
    (ht : tableOf s.tables pgtable p = some t) (hlevel : p.length < 3)
    (hroom : (s.tables.tableAt pages t i).2.next ≤ limit) :
    (∃ pos, Descends pages limit pgtable pos s.tables p t i (s.tables.tableAt pages t i)) ∧
      Maps pages limit pgtable a first old { s with tables := (s.tables.tableAt pages t i).2 } := by
  obtain ⟨pos, hrooted, hspared⟩ := h.rooted
  have hdescends := hrooted.tableAt hp ht hlevel hroom
  obtain ⟨pos', hrooted', hapart⟩ := hdescends.rooted
  refine ⟨⟨pos, hdescends⟩, ⟨pos', hrooted', hspared.later hapart⟩, h.count, fun x => ?_⟩
  rw [hdescends.walks x]
  exact h.walks x

theorem level_rule (hp : Supply pages limit) {body : Nat → Nat → MapLoop → MapLoop}
    {Q : Nat → MapLoop → Prop} {n m : Nat} (h : Maps pages limit pgtable a first old s)
    (ht : tableOf s.tables pgtable p = some t) (hlevel : p.length + 1 + a.depth ≤ 3)
    (hnot : ∀ w, hwCoding.read (4 - p.length - 1) (s.tables.mem t i) ≠ .value w)
    (hlater : ∀ u j s, s.tables.next ≤ (body u j s).tables.next)
    (hstop : ∀ j j' s, j < j' → s.pageCount ≤ a.numPages → a.more s = false → Q j s → Q j' s)
    (hbody : ∀ u j, m ≤ j → j < m + n → ∀ s, Maps pages limit pgtable a first old s →
      tableOf s.tables pgtable (p ++ [i]) = some u → Q j s → a.more s = true →
      (body u j s).tables.next ≤ limit → Maps pages limit pgtable a first old (body u j s) ∧
        KeepsTables a pgtable s.tables (body u j s).tables ∧ Q (j + 1) (body u j s))
    (hQ : Q m { s with tables := (s.tables.tableAt pages t i).2 })
    (hroom : (forWhile a.more (body (s.tables.tableAt pages t i).1) n m
      { s with tables := (s.tables.tableAt pages t i).2 }).tables.next ≤ limit) :
    Maps pages limit pgtable a first old (forWhile a.more (body (s.tables.tableAt pages t i).1) n m
        { s with tables := (s.tables.tableAt pages t i).2 }) ∧
      KeepsTables a pgtable s.tables (forWhile a.more (body (s.tables.tableAt pages t i).1) n m
        { s with tables := (s.tables.tableAt pages t i).2 }).tables ∧
      Q (m + n) (forWhile a.more (body (s.tables.tableAt pages t i).1) n m
        { s with tables := (s.tables.tableAt pages t i).2 }) := by
  obtain ⟨⟨pos, hdescends⟩, hmaps⟩ := h.descend hp ht (by omega) ((forWhile_later (hlater _) n m _).trans hroom)
  have hbelow := hdescends.below hnot
  have hkept : KeepsTables a pgtable s.tables (s.tables.tableAt pages t i).2 :=
    fun q u _ hu => hdescends.tables q u hu
  have hshort : (p ++ [i]).length + a.depth ≤ 3 := by
    rw [List.length_append, List.length_singleton]
    exact hlevel
  obtain ⟨hmaps', hkept', hQ'⟩ := forWhile_rule
    (Q := fun j s' => Maps pages limit pgtable a first old s' ∧
      KeepsTables a pgtable (s.tables.tableAt pages t i).2 s'.tables ∧ Q j s') (hlater _)
    (fun j j' s' hlt hend hs' => ⟨hs'.1, hs'.2.1, hstop j j' s' hlt hs'.1.count hend hs'.2.2⟩)
    (fun j hlow hhigh s' hs' hmore hroom' => by
      obtain ⟨hmaps', hkept', hQ'⟩ := hs'
      have hu := hkept' _ _ hshort hbelow
      obtain ⟨hmaps'', hkept'', hQ''⟩ := hbody _ j hlow hhigh s' hmaps' hu hQ' hmore hroom'
      exact ⟨hmaps'', hkept'.trans hkept'', hQ''⟩)
    ⟨hmaps, .refl _, hQ⟩ hroom
  exact ⟨hmaps', hkept.trans hkept', hQ'⟩

theorem mapPte_maps (hsmall : a.big = false) (hj : j < 512) (hk : k < 512) (hl : l < 512)
    (h : Maps pages limit pgtable a first old s) (ht : tableOf s.tables pgtable [i, j, k] = some t)
    (hat : BeforePte a first i j k l s) (hmore : a.more s = true) :
    Maps pages limit pgtable a first old (mapPte a t l s) ∧
      KeepsTables a pgtable s.tables (mapPte a t l s).tables ∧
      BeforePte a first i j k (l + 1) (mapPte a t l s) := by
  have hlt : s.pageCount < a.numPages := of_decide_eq_true hmore
  have hx := hat.resolve_left fun hdone => hdone.not_more hmore
  have hunit : a.unit = 1 := by simp [MapArgs.unit, hsmall]
  have hpages : ∀ x, [i, j, k] ++ [l] <+: pagePath x ++ [x % 2 ^ 9] ↔
      a.reached first s ≤ x ∧ x < a.reached first s + a.unit := by
    intro x
    rw [hx, hunit]
    simp only [pagePath, List.cons_append, List.nil_append, List.cons_prefix_cons, List.prefix_rfl,
      and_true, pageAt]
    omega
  have hword : a.word s.pageCount = a.frame s ||| presentFlag ||| rwFlag |||
      if a.prot.user then userFlag else 0 := by
    simp [MapArgs.word, hsmall, MapArgs.entry, MapArgs.frame]
  have htables : (mapPte a t l s).tables = s.tables.set t l (a.word s.pageCount) := by
    rw [hword]
    rfl
  obtain ⟨hmaps, hkept⟩ := h.store hlt ht (by simp [MapArgs.depth, hsmall]) hpages htables rfl
  refine ⟨hmaps, hkept, .inr ?_⟩
  rw [MapArgs.reached_succ first (show (mapPte a t l s).pageCount = s.pageCount + 1 from rfl), hx, hunit]
  simp only [pageAt]
  omega

/-- In a larger page the entry goes to the memory of that page. -/
theorem mapPte_apart (hsmall : a.big = false) {w : Nat} (h : Maps pages limit pgtable a first old s)
    (hold : old (pageAt i j k l) = some (w, [l])) (hat : BeforePte a first i j k l s)
    (hmore : a.more s = true) :
    Maps pages limit pgtable a first old (mapPte a (pa2va (pageFrame w)) l s) ∧
      KeepsTables a pgtable s.tables (mapPte a (pa2va (pageFrame w)) l s).tables ∧
      BeforePte a first i j k (l + 1) (mapPte a (pa2va (pageFrame w)) l s) := by
  have hlt : s.pageCount < a.numPages := of_decide_eq_true hmore
  have hx := hat.resolve_left fun hdone => hdone.not_more hmore
  have hunit : a.unit = 1 := by simp [MapArgs.unit, hsmall]
  have hdepth : a.depth = 0 := by simp [MapArgs.depth, hsmall]
  have hblocked : a.blocked old (a.reached first s) = true := by
    rw [hx, MapArgs.blocked, hold, hdepth]
    rfl
  have hreached := MapArgs.reached_succ (a := a) first
    (show (mapPte a (pa2va (pageFrame w)) l s).pageCount = s.pageCount + 1 from rfl)
  obtain ⟨pos, hrooted, hspared⟩ := h.rooted
  have hapart := (hspared (a.reached first s) (Nat.le_add_right _ _) (MapArgs.reached_lt first hlt) w [l]
    (hx ▸ hold) (by simp [hdepth])).2
  obtain ⟨hrooted', hwalks, hkept⟩ := hrooted.set_apart (i := l)
    (w := a.frame s ||| presentFlag ||| rwFlag ||| if a.prot.user then userFlag else 0) hapart.unplaced
  have hspared' : a.Spared pages limit first old (mapPte a (pa2va (pageFrame w)) l s).tables pos :=
    hspared.later fun u hu => ⟨hu.unplaced, hu.settled⟩
  refine ⟨⟨⟨pos, hrooted', hspared'⟩, ?_, fun x => ?_⟩, fun q u _ hu => (hkept q).trans hu, .inr ?_⟩
  · show s.pageCount + 1 ≤ a.numPages
    omega
  · refine (hwalks x).trans ((h.walks x).trans (if_congr ?_ rfl rfl))
    rw [hreached, hunit]
    refine and_congr_left fun hfree => ?_
    have hne : x ≠ a.reached first s := by
      rintro rfl
      rw [hblocked] at hfree
      contradiction
    omega
  · rw [hreached, hx, hunit]
    simp only [pageAt]
    omega

theorem mapPtes_maps (hp : Supply pages limit) (hsmall : a.big = false) (hj : j < 512) (hk : k < 512)
    (hl : l < 512) (h : Maps pages limit pgtable a first old s)
    (ht : tableOf s.tables pgtable [i, j] = some t) (hx : a.reached first s = pageAt i j k l)
    (hroom : (forWhile a.more (mapPte a (s.tables.tableAt pages t k).1) (512 - l) l
      { s with tables := (s.tables.tableAt pages t k).2 }).tables.next ≤ limit) :
    Maps pages limit pgtable a first old (forWhile a.more (mapPte a (s.tables.tableAt pages t k).1)
        (512 - l) l { s with tables := (s.tables.tableAt pages t k).2 }) ∧
      KeepsTables a pgtable s.tables (forWhile a.more (mapPte a (s.tables.tableAt pages t k).1)
        (512 - l) l { s with tables := (s.tables.tableAt pages t k).2 }).tables ∧
      BeforePte a first i j k (l + (512 - l)) (forWhile a.more (mapPte a (s.tables.tableAt pages t k).1)
        (512 - l) l { s with tables := (s.tables.tableAt pages t k).2 }) := by
  by_cases hvalue : ∃ w, hwCoding.read (4 - [i, j].length - 1) (s.tables.mem t k) = .value w
  · obtain ⟨w, hread⟩ := hvalue
    have hold : ∀ l', l ≤ l' → l' < 512 → old (pageAt i j k l') = some (w, [l']) := by
      intro l' hle hlt
      rw [← walkAt_of_value ht (path_pageAt hj hk hlt) hread, h.ahead]
      rw [hx]
      simp only [pageAt]
      omega
    obtain ⟨rfl, hpresent, -⟩ := read_value hread
    rw [tableAt_present pages hpresent] at hroom ⊢
    exact forWhile_rule (Q := fun l s' => Maps pages limit pgtable a first old s' ∧
        KeepsTables a pgtable s.tables s'.tables ∧ BeforePte a first i j k l s')
      (mapPte_later a _)
      (fun _ _ _ hlt hend hs' => ⟨hs'.1, hs'.2.1, hs'.2.2.stop hlt hs'.1.count hend⟩)
      (fun l' hle hlt s' hs' hmore _ => by
        obtain ⟨hmaps, hkept, hat⟩ := hs'
        obtain ⟨hmaps', hkept', hat'⟩ := mapPte_apart hsmall hmaps (hold l' hle (by omega)) hat hmore
        exact ⟨hmaps', hkept.trans hkept', hat'⟩)
      ⟨h, .refl _, .inr hx⟩ hroom
  · exact level_rule (n := 512 - l) (m := l) (Q := BeforePte a first i j k) hp h ht
      (by simp [MapArgs.depth, hsmall]) (not_exists.mp hvalue) (mapPte_later a)
      (fun _ _ _ => BeforePte.stop)
      (fun u l' _ _ s h hu hat hmore _ => mapPte_maps hsmall hj hk (by omega) h hu hat hmore)
      (.inr hx) hroom

theorem mapPdet_maps (hp : Supply pages limit) (hj : j < 512) (hk : k < 512)
    (h : Maps pages limit pgtable a first old s) (ht : tableOf s.tables pgtable [i, j] = some t)
    (hat : BeforePdet a first i j k s) (hmore : a.more s = true)
    (hroom : (mapPdet pages a t k s).tables.next ≤ limit) :
    Maps pages limit pgtable a first old (mapPdet pages a t k s) ∧
      KeepsTables a pgtable s.tables (mapPdet pages a t k s).tables ∧
      BeforePdet a first i j (k + 1) (mapPdet pages a t k s) := by
  have hlt : s.pageCount < a.numPages := of_decide_eq_true hmore
  obtain ⟨hlow, -, hx⟩ := hat.resolve_left fun hdone => hdone.not_more hmore
  cases hbig : a.big with
  | true =>
      have hunit : a.unit = 2 ^ 9 := by simp [MapArgs.unit, hbig]
      have hzero : a.low s = 0 := by simp [MapArgs.low, hbig]
      have hbody : mapPdet pages a t k s = { s with
          tables := s.tables.set t k (a.word s.pageCount)
          pageCount := s.pageCount + 1 } := by
        simp only [mapPdet, hbig, if_true, MapArgs.word, MapArgs.frame]
      have hpages : ∀ x, [i, j] ++ [k] <+: pagePath x ++ [x % 2 ^ 9] ↔
          a.reached first s ≤ x ∧ x < a.reached first s + a.unit := by
        intro x
        rw [hx, hunit, hzero]
        simp only [pagePath, List.cons_append, List.nil_append, List.cons_prefix_cons, List.nil_prefix,
          and_true, pageAt]
        omega
      obtain ⟨hmaps, hkept⟩ := h.store hlt ht (by simp [MapArgs.depth, hbig]) hpages
        (congrArg MapLoop.tables hbody) (congrArg MapLoop.pageCount hbody)
      refine ⟨hmaps, hkept, .inr ⟨?_, fun _ => ?_, ?_⟩⟩
      · simp [MapArgs.low, hbig]
      · simp [MapArgs.low, hbig]
      · rw [MapArgs.reached_succ first (congrArg MapLoop.pageCount hbody), hx, hunit, hzero]
        simp only [MapArgs.low, hbig, if_true, pageAt]
        omega
  | false =>
      have hptei : a.low s = s.ptei := by simp [MapArgs.low, hbig]
      rw [hptei] at hlow hx
      unfold mapPdet at hroom ⊢
      rw [if_neg (by simp [hbig])] at hroom ⊢
      obtain ⟨hmaps, hkept, hend⟩ := mapPtes_maps hp hbig hj hk hlow h ht hx hroom
      have hlast : pageAt i j k (s.ptei + (512 - s.ptei)) = pageAt i j (k + 1) 0 := by
        simp only [pageAt]
        omega
      rw [BeforePte, hlast] at hend
      refine ⟨hmaps.congr rfl rfl, hkept, hend.imp_right fun hx' => ?_⟩
      simp only [MapArgs.low, hbig, Bool.false_eq_true, if_false]
      exact ⟨Nat.zero_lt_succ 511, fun _ => trivial, hx'⟩

theorem mapPdpt_maps (hp : Supply pages limit) (hj : j < 512)
    (h : Maps pages limit pgtable a first old s) (ht : tableOf s.tables pgtable [i] = some t)
    (hat : BeforePdpt a first i j s) (hmore : a.more s = true)
    (hroom : (mapPdpt pages a t j s).tables.next ≤ limit) :
    Maps pages limit pgtable a first old (mapPdpt pages a t j s) ∧
      KeepsTables a pgtable s.tables (mapPdpt pages a t j s).tables ∧
      BeforePdpt a first i (j + 1) (mapPdpt pages a t j s) := by
  have hlt : s.pageCount < a.numPages := of_decide_eq_true hmore
  have hdepth := a.depth_le
  obtain ⟨hlow, hpdeti, -, hx⟩ := hat.resolve_left fun hdone => hdone.not_more hmore
  have hpath : pagePath (a.reached first s) ++ [a.reached first s % 2 ^ 9] =
      [i] ++ j :: [s.pdeti, a.low s] := by
    rw [hx]
    exact path_pageAt hj hpdeti hlow
  have hnot := h.not_value hlt ht hpath (by simp)
  have hfirst : BeforePdet a first i j s.pdeti { s with tables := (s.tables.tableAt pages t j).2 } :=
    .inr ⟨hlow, by omega, hx⟩
  obtain ⟨hmaps, hkept, hend⟩ := level_rule (n := 512 - s.pdeti) (m := s.pdeti)
    (Q := BeforePdet a first i j) hp h ht (by simp only [List.length_singleton]; omega) hnot
    (mapPdet_later pages a) (fun _ _ _ => BeforePdet.stop)
    (fun u k _ _ s h hu hat hmore => mapPdet_maps hp hj (by omega) h hu hat hmore) hfirst hroom
  refine ⟨hmaps.congr rfl rfl, hkept, ?_⟩
  have hlast : ∀ l, pageAt i j (s.pdeti + (512 - s.pdeti)) l = pageAt i (j + 1) 0 l := by
    intro l
    simp only [pageAt]
    omega
  rw [BeforePdet, hlast, hlast] at hend
  refine hend.imp_right ?_
  rintro ⟨hlow', hzero, hx'⟩
  exact ⟨hlow', Nat.zero_lt_succ 511, fun _ => ⟨rfl, hzero (by omega)⟩, hx'⟩

/-- The loop below a top-level entry that is reached after the last page does nothing. -/
theorem forWhile_done {body : Nat → MapLoop → MapLoop} {n m : Nat} (h : ¬ a.more s = true) :
    forWhile a.more body n m s = s := by
  cases n with
  | zero => rfl
  | succ n => rw [forWhile, if_neg h]

theorem mapPml4_maps (hp : Supply pages limit)
    (h : Maps pages limit pgtable a first old s) {slot : Nat} (hat : BeforePml4 a first slot i s)
    (hroom : (mapPml4 pages a pgtable i s).tables.next ≤ limit) :
    Maps pages limit pgtable a first old (mapPml4 pages a pgtable i s) ∧
      BeforePml4 a first slot (i + 1) (mapPml4 pages a pgtable i s) := by
  obtain ⟨hpdpti, hcase⟩ := hat
  have hdepth := a.depth_le
  have hroot : tableOf s.tables pgtable [] = some pgtable := rfl
  by_cases hmore : a.more s = true
  · have hlt : s.pageCount < a.numPages := of_decide_eq_true hmore
    obtain ⟨hlow, hpdeti, -, hx⟩ := hcase.resolve_left fun hdone => hdone.not_more hmore
    have hpath : pagePath (a.reached first s) ++ [a.reached first s % 2 ^ 9] =
        [] ++ i :: [s.pdpti, s.pdeti, a.low s] := by
      rw [hx]
      exact path_pageAt hpdpti hpdeti hlow
    have hnot := h.not_value hlt hroot hpath (by simp)
    have hfirst : BeforePdpt a first i s.pdpti
        { s with tables := (s.tables.tableAt pages pgtable i).2 } := .inr ⟨hlow, hpdeti, by omega, hx⟩
    obtain ⟨hmaps, -, hend⟩ := level_rule (n := 512 - s.pdpti) (m := s.pdpti)
      (Q := BeforePdpt a first i) hp h hroot (by simp only [List.length_nil]; omega) hnot
      (mapPdpt_later pages a) (fun _ _ _ => BeforePdpt.stop)
      (fun u j _ _ s h hu hat hmore => mapPdpt_maps hp (by omega) h hu hat hmore) hfirst hroom
    refine ⟨hmaps.congr rfl rfl, Nat.zero_lt_succ 511, ?_⟩
    have hlast : ∀ k l, pageAt i (s.pdpti + (512 - s.pdpti)) k l = pageAt (i + 1) 0 k l := by
      intro k l
      simp only [pageAt]
      omega
    rw [BeforePdpt, hlast, hlast] at hend
    refine hend.imp_right ?_
    rintro ⟨hlow', hpdeti', hzero, hx'⟩
    exact ⟨hlow', hpdeti', fun _ => ⟨rfl, hzero (by omega)⟩, hx'⟩
  · -- only the table behind the entry is made
    have hbody : mapPml4 pages a pgtable i s = { s with
        tables := (s.tables.tableAt pages pgtable i).2
        pdpti := 0 } := by
      unfold mapPml4
      dsimp only
      rw [forWhile_done (s := { s with tables := (s.tables.tableAt pages pgtable i).2 }) hmore]
    rw [hbody] at hroom ⊢
    obtain ⟨-, hmaps⟩ := h.descend hp hroot (by simp) hroom
    refine ⟨hmaps.congr rfl rfl, Nat.zero_lt_succ 511, .inl ?_⟩
    apply done_of_stop h.count (Bool.not_eq_true _ ▸ hmore)
    show a.reached first s ≤ _
    simp only [MapArgs.Done, pageAt] at hcase ⊢
    omega

theorem MapArgs.start_eq (a : MapArgs) (tables : Tables) (vaddr : Nat) :
    a.low (MapLoop.start tables vaddr) < 512 ∧ a.start vaddr =
      pageAt (pml4FromVa vaddr) (pdptFromVa vaddr) (pdetFromVa vaddr)
        (a.low (MapLoop.start tables vaddr)) := by
  cases hbig : a.big with
  | true =>
      simp only [MapArgs.low, MapArgs.start, MapArgs.unit, hbig, if_true, pageIndex, pageAt,
        pml4FromVa_eq, pdptFromVa_eq, pdetFromVa_eq]
      omega
  | false =>
      simp only [MapArgs.low, MapArgs.start, MapArgs.unit, hbig, Bool.false_eq_true, if_false,
        pageIndex, pageAt, MapLoop.start, pml4FromVa_eq, pdptFromVa_eq, pdetFromVa_eq, pteFromVa_eq]
      omega

theorem Maps.start {tables : Tables} {pos : Nat → Option (List Nat)} {vaddr : Nat}
    (hrooted : Rooted pages limit pgtable tables pos)
    (hspared : a.Spared pages limit (a.start vaddr) (walkAt tables pgtable) tables pos) :
    Maps pages limit pgtable a (a.start vaddr) (walkAt tables pgtable) (MapLoop.start tables vaddr) ∧
      BeforePml4 a (a.start vaddr) (pml4FromVa vaddr) (pml4FromVa vaddr) (MapLoop.start tables vaddr) := by
  have hpdpt : pdptFromVa vaddr < 512 := pdptFromVa_eq vaddr ▸ Nat.mod_lt _ (by norm_num)
  have hpdet : pdetFromVa vaddr < 512 := pdetFromVa_eq vaddr ▸ Nat.mod_lt _ (by norm_num)
  obtain ⟨hlow, hfirst⟩ := a.start_eq tables vaddr
  have hstart : a.reached (a.start vaddr) (MapLoop.start tables vaddr) = a.start vaddr := by
    simp [MapArgs.reached, MapLoop.start]
  constructor
  · refine ⟨⟨pos, hrooted, hspared⟩, Nat.zero_le _, fun x => ?_⟩
    rw [hstart, if_neg (by omega)]
    rfl
  · exact ⟨hpdpt, .inr ⟨hlow, hpdet, fun hlt => absurd hlt (Nat.lt_irrefl _), hstart.trans hfirst⟩⟩

/-- A call maps the pages of its range in the top-level entries that the outermost loop gets to,
except those in a larger page. -/
theorem mapContiguous_walks (hp : Supply pages limit) {tables tables' : Tables}
    {pos : Nat → Option (List Nat)} {physAddr vaddr size : Nat} {big : Bool} {prot : Prot}
    (hrooted : Rooted pages limit pgtable tables pos) (ha : a = ⟨physAddr, size, big, prot⟩)
    (hspared : a.Spared pages limit (a.start vaddr) (walkAt tables pgtable) tables pos)
    (hmap : mapContiguous pages tables pgtable physAddr vaddr size big prot = some tables')
    (hroom : tables'.next ≤ limit) :
    (∃ pos', Rooted pages limit pgtable tables' pos') ∧ ∀ x, walkAt tables' pgtable x =
      if (a.start vaddr ≤ x ∧ x < a.start vaddr + a.numPages * a.unit ∧
          x / 2 ^ 27 ≤ pml4FromVa vaddr + pml4FromVa size) ∧
          a.blocked (walkAt tables pgtable) x = false then
        some (a.word ((x - a.start vaddr) / a.unit), a.spare x)
      else walkAt tables pgtable x := by
  unfold mapContiguous at hmap
  dsimp only at hmap
  rw [← ha] at hmap
  split at hmap
  case isFalse => contradiction
  case isTrue =>
    obtain rfl := Option.some.inj hmap
    have hstart := Maps.start hrooted hspared
    obtain ⟨hend, -, hbound⟩ := forWhile_rule (Q := fun i s => Maps pages limit pgtable a (a.start vaddr)
        (walkAt tables pgtable) s ∧ BeforePml4 a (a.start vaddr) (pml4FromVa vaddr) i s)
      (mapPml4_later pages a pgtable) (fun _ _ _ _ hstop => Bool.noConfusion hstop)
      (fun i _ _ s hs _ hroom' => mapPml4_maps hp hs.1 hs.2 hroom') hstart hroom
    obtain ⟨pos', hrooted', -⟩ := hend.rooted
    refine ⟨⟨pos', hrooted'⟩, fun x => (hend.walks x).trans ?_⟩
    -- both ends of the loop leave the same pages
    have hle := MapArgs.reached_le (a.start vaddr) hend.count
    refine if_congr (and_congr_left' ?_) rfl rfl
    rcases hbound with ⟨hall, hdone⟩ | ⟨-, -, hzero, hx⟩
    · have hfull : a.reached (a.start vaddr) _ = a.start vaddr + a.numPages * a.unit :=
        congrArg (fun n => a.start vaddr + n * a.unit) hall
      rw [hfull] at hdone ⊢
      simp only [pageAt] at hdone
      omega
    · obtain ⟨hpdpti, hpdeti, hptei⟩ := hzero (by omega)
      rw [hpdpti, hpdeti, hptei] at hx
      rw [hx] at hle ⊢
      simp only [pageAt] at hle ⊢
      omega

end stages

/-- No page of the range lies in a larger page than those of the mapping. -/
def MapArgs.Clear (a : MapArgs) (first : Nat) (old : Nat → Option (Nat × List Nat)) : Prop :=
  ∀ x, first ≤ x → x < first + a.numPages * a.unit → ∀ w r, old x = some (w, r) → r.length ≤ a.depth

/-! ### Translation after a mapping -/

section translation
variable {pages : Nat → Nat} {limit pgtable : Nat} {a : MapArgs} {s s' : Tables}
  {pos : Nat → Option (List Nat)} {physAddr vaddr size k o : Nat} {big : Bool} {prot : Prot}

theorem MapArgs.Clear.spared {first : Nat} {old : Nat → Option (Nat × List Nat)} (h : a.Clear first old) :
    a.Spared pages limit first old s pos :=
  fun x hlow hhigh w r hold hdeep => absurd hdeep (Nat.not_lt.mpr (h x hlow hhigh w r hold))

theorem MapArgs.word_eq (a : MapArgs) (k : Nat) : ∃ flags < 2 ^ 12, pageFrame flags = 0 ∧
    a.word k = pageFrame (wrap64 (a.physAddr + k * a.pgsize)) ||| flags := by
  cases hbig : a.big with
  | true =>
      refine ⟨presentFlag ||| (rwFlag ||| (pdetPageSize ||| userFlag)), by decide, by decide, ?_⟩
      simp only [MapArgs.word, hbig, if_true, Nat.or_assoc]
  | false =>
      refine ⟨presentFlag ||| (rwFlag ||| if a.prot.user then userFlag else 0), ?_, ?_, ?_⟩
      · split <;> decide
      · split <;> decide
      · simp only [MapArgs.word, MapArgs.entry, hbig, Bool.false_eq_true, if_false, Nat.or_assoc]

theorem MapArgs.word_lt (a : MapArgs) (k : Nat) : a.word k < 2 ^ 48 := by
  obtain ⟨flags, hlt, -, hword⟩ := a.word_eq k
  rw [hword]
  exact frame_or_lt _ hlt

theorem pgsize_eq (a : MapArgs) : a.pgsize = a.unit * 2 ^ 12 := by
  unfold MapArgs.pgsize MapArgs.unit
  split <;> rfl

/-- The frame of an entry is the physical address without the bits that `PAGE_FRAME` drops. -/
theorem MapArgs.hwFrame_word (a : MapArgs) (k : Nat) (halign : a.physAddr % a.pgsize = 0) :
    hwFrame (a.word k) = (a.physAddr + k * a.pgsize) % 2 ^ 48 := by
  obtain ⟨flags, hlt, hflags, hword⟩ := a.word_eq k
  have hpage : (a.physAddr + k * a.pgsize) % 2 ^ 12 = 0 := by
    have hdvd : 2 ^ 12 ∣ a.pgsize := ⟨a.unit, by rw [pgsize_eq, Nat.mul_comm]⟩
    exact Nat.mod_eq_zero_of_dvd (Nat.dvd_add (hdvd.trans (Nat.dvd_of_mod_eq_zero halign))
      (Dvd.dvd.mul_left hdvd k))
  rw [hwFrame_of_lt (a.word_lt k), hword, pageFrame_or _ hflags, pageFrame_eq, wrap64]
  generalize a.physAddr + k * a.pgsize = y at hpage ⊢
  omega

/-- What an entry of the mapping gives for an address. -/
theorem MapArgs.hwAddress_word (a : MapArgs) (k va x : Nat) (halign : a.physAddr % a.pgsize = 0) :
    hwAddress va (a.word k) (a.spare x) =
      some ((a.physAddr + k * a.pgsize) % 2 ^ 48 + va % a.pgsize) := by
  have hframe := a.hwFrame_word k halign
  cases hbig : a.big with
  | true =>
      have hsize : a.pgsize = 2 ^ 21 := by simp [MapArgs.pgsize, hbig, pageSizeBig]
      rw [hsize] at hframe halign ⊢
      have hlow : hwFrame (a.word k) % 2 ^ 21 = 0 := by
        rw [hframe]
        omega
      have hreserved : ¬ hwFrame (a.word k) % 2 ^ 21 / 2 ^ 13 ≠ 0 := by
        rw [hlow]
        norm_num
      simp only [MapArgs.spare, hbig, if_true, hwAddress, hwLarge, if_neg hreserved]
      rw [← hframe, Nat.div_mul_cancel (Nat.dvd_of_mod_eq_zero hlow)]
  | false =>
      have hsize : a.pgsize = 2 ^ 12 := by simp [MapArgs.pgsize, hbig, pageSize]
      rw [hsize] at hframe ⊢
      simp only [MapArgs.spare, hbig, Bool.false_eq_true, if_false, hwAddress]
      rw [hframe]

/-- The last page of a range in the 48 bits that are translated does not wrap around. -/
theorem MapArgs.range_le (a : MapArgs) (halign : vaddr % a.pgsize = 0)
    (hfit : vaddr % 2 ^ 48 + a.size ≤ 2 ^ 48) :
    vaddr % 2 ^ 48 + a.numPages * a.pgsize ≤ 2 ^ 48 := by
  cases hbig : a.big with
  | true =>
      simp only [MapArgs.numPages, MapArgs.pgsize, hbig, if_true, pageSizeBig] at halign ⊢
      split <;> omega
  | false =>
      simp only [MapArgs.numPages, MapArgs.pgsize, hbig, Bool.false_eq_true, if_false, pageSize] at halign ⊢
      split <;> omega

/-- Where an address of the range lies. -/
structure InPage (a : MapArgs) (vaddr k va : Nat) : Prop where
  above : a.start vaddr ≤ pageIndex va
  below : pageIndex va < a.start vaddr + a.numPages * a.unit
  page : (pageIndex va - a.start vaddr) / a.unit = k
  slot : pageIndex va / 2 ^ 27 = (vaddr % 2 ^ 48 + k * a.pgsize) / 2 ^ 39

theorem MapArgs.sizes (a : MapArgs) :
    a.pgsize = 2 ^ 21 ∧ a.unit = 2 ^ 9 ∨ a.pgsize = 2 ^ 12 ∧ a.unit = 1 := by
  cases hbig : a.big with
  | true => exact .inl ⟨by simp [MapArgs.pgsize, hbig, pageSizeBig], by simp [MapArgs.unit, hbig]⟩
  | false => exact .inr ⟨by simp [MapArgs.pgsize, hbig, pageSize], by simp [MapArgs.unit, hbig]⟩

theorem pageIndex_big (halign : vaddr % 2 ^ 21 = 0) (hfit : vaddr % 2 ^ 48 + (k + 1) * 2 ^ 21 ≤ 2 ^ 48)
    (ho : o < 2 ^ 21) :
    pageIndex (vaddr + k * 2 ^ 21 + o) = pageIndex vaddr / 2 ^ 9 * 2 ^ 9 + (k * 2 ^ 9 + o / 2 ^ 12) ∧
      pageIndex (vaddr + k * 2 ^ 21 + o) / 2 ^ 27 = (vaddr % 2 ^ 48 + k * 2 ^ 21) / 2 ^ 39 := by
  unfold pageIndex
  omega

theorem pageIndex_small (halign : vaddr % 2 ^ 12 = 0) (hfit : vaddr % 2 ^ 48 + (k + 1) * 2 ^ 12 ≤ 2 ^ 48)
    (ho : o < 2 ^ 12) :
    pageIndex (vaddr + k * 2 ^ 12 + o) = pageIndex vaddr / 1 * 1 + (k * 1 + o / 2 ^ 12) ∧
      pageIndex (vaddr + k * 2 ^ 12 + o) / 2 ^ 27 = (vaddr % 2 ^ 48 + k * 2 ^ 12) / 2 ^ 39 := by
  unfold pageIndex
  omega

theorem MapArgs.inPage (a : MapArgs) (halign : vaddr % a.pgsize = 0)
    (hfit : vaddr % 2 ^ 48 + a.size ≤ 2 ^ 48) (hk : k < a.numPages) (ho : o < a.pgsize) :
    InPage a vaddr k (vaddr + k * a.pgsize + o) := by
  have hpage : (k + 1) * a.pgsize ≤ a.numPages * a.pgsize := Nat.mul_le_mul_right _ hk
  have hroom : vaddr % 2 ^ 48 + (k + 1) * a.pgsize ≤ 2 ^ 48 :=
    (Nat.add_le_add_left hpage _).trans (a.range_le halign hfit)
  have hunits : (k + 1) * a.unit ≤ a.numPages * a.unit := Nat.mul_le_mul_right _ hk
  obtain ⟨hindex, hslot⟩ : pageIndex (vaddr + k * a.pgsize + o) =
      a.start vaddr + (k * a.unit + o / 2 ^ 12) ∧
        pageIndex (vaddr + k * a.pgsize + o) / 2 ^ 27 = (vaddr % 2 ^ 48 + k * a.pgsize) / 2 ^ 39 := by
    rcases a.sizes with ⟨hsize, hunit⟩ | ⟨hsize, hunit⟩
    · rw [hsize] at halign hroom ho
      rw [MapArgs.start, hsize, hunit]
      exact pageIndex_big halign hroom ho
    · rw [hsize] at halign hroom ho
      rw [MapArgs.start, hsize, hunit]
      exact pageIndex_small halign hroom ho
  have hinside : o / 2 ^ 12 < a.unit := by
    rw [pgsize_eq] at ho
    exact Nat.div_lt_of_lt_mul (Nat.mul_comm a.unit _ ▸ ho)
  rw [Nat.succ_mul] at hunits
  refine ⟨by omega, by omega, ?_, hslot⟩
  rw [hindex, Nat.add_sub_cancel_left, Nat.mul_comm k, Nat.mul_add_div a.unit_pos,
    Nat.div_eq_of_lt hinside, Nat.add_zero]

/-- The address lies in the range, rounded up to whole pages. -/
def MapArgs.InRange (a : MapArgs) (vaddr va : Nat) : Prop :=
  vaddr % 2 ^ 48 ≤ va % 2 ^ 48 ∧ va % 2 ^ 48 < vaddr % 2 ^ 48 + a.numPages * a.pgsize

theorem MapArgs.start_mul (a : MapArgs) (halign : vaddr % a.pgsize = 0) :
    a.start vaddr * 2 ^ 12 = vaddr % 2 ^ 48 := by
  rcases a.sizes with ⟨hsize, hunit⟩ | ⟨hsize, hunit⟩
  · rw [hsize] at halign
    rw [MapArgs.start, hunit, pageIndex]
    omega
  · rw [hsize] at halign
    rw [MapArgs.start, hunit, pageIndex]
    omega

theorem MapArgs.inRange_iff (a : MapArgs) (halign : vaddr % a.pgsize = 0) (va : Nat) :
    a.InRange vaddr va ↔
      a.start vaddr ≤ pageIndex va ∧ pageIndex va < a.start vaddr + a.numPages * a.unit := by
  have hindex : pageIndex va = va % 2 ^ 48 / 2 ^ 12 := by
    rw [pageIndex]
    omega
  rw [MapArgs.InRange, ← a.start_mul halign, pgsize_eq, ← Nat.mul_assoc, ← Nat.add_mul, hindex,
    Nat.le_div_iff_mul_le (by norm_num), Nat.div_lt_iff_lt_mul (by norm_num)]

/-- Every page of the range is mapped to its place, and addresses outside keep their
translation. -/
def MapsExactly (pages : Nat → Nat) (s : Tables) (pgtable vaddr : Nat) (a : MapArgs) : Prop :=
  ∃ s', mapContiguous pages s pgtable a.physAddr vaddr a.size a.big a.prot = some s' ∧
    (∀ k < a.numPages, ∀ o < a.pgsize,
      hwTranslate s' pgtable (vaddr + k * a.pgsize + o) = some (a.physAddr + k * a.pgsize + o)) ∧
    ∀ va, ¬ a.InRange vaddr va → hwTranslate s' pgtable va = hwTranslate s pgtable va

/-- The outermost loop stays in the top-level table; pages that it gets to have a physical address
of 48 bits, and pages behind its bound were mapped to their place before. -/
def MapArgs.Within (a : MapArgs) (s : Tables) (pgtable vaddr : Nat) : Prop :=
  pml4FromVa vaddr + pml4FromVa a.size < 512 ∧ ∀ k < a.numPages,
    if (vaddr % 2 ^ 48 + k * a.pgsize) / 2 ^ 39 ≤ pml4FromVa vaddr + pml4FromVa a.size then
      a.physAddr + k * a.pgsize < 2 ^ 48
    else ∀ o < a.pgsize,
      hwTranslate s pgtable (vaddr + k * a.pgsize + o) = some (a.physAddr + k * a.pgsize + o)

/-- Translation after the call. -/
structure MapsTo (s s' : Tables) (pgtable vaddr : Nat) (a : MapArgs) : Prop where
  inside : ∀ k < a.numPages, ∀ o < a.pgsize, hwTranslate s' pgtable (vaddr + k * a.pgsize + o) =
    if (vaddr % 2 ^ 48 + k * a.pgsize) / 2 ^ 39 ≤ pml4FromVa vaddr + pml4FromVa a.size then
      some ((a.physAddr + k * a.pgsize) % 2 ^ 48 + o)
    else hwTranslate s pgtable (vaddr + k * a.pgsize + o)
  outside : ∀ va, ¬ a.InRange vaddr va → hwTranslate s' pgtable va = hwTranslate s pgtable va

theorem mapContiguous_translates (hp : Supply pages limit) (hrooted : Rooted pages limit pgtable s pos)
    (hphys : a.physAddr % a.pgsize = 0) (halign : vaddr % a.pgsize = 0)
    (hfit : vaddr % 2 ^ 48 + a.size ≤ 2 ^ 48) (hclear : a.Clear (a.start vaddr) (walkAt s pgtable))
    (hmap : mapContiguous pages s pgtable a.physAddr vaddr a.size a.big a.prot = some s')
    (hroom : s'.next ≤ limit) : MapsTo s s' pgtable vaddr a := by
  obtain ⟨-, hwalks⟩ := mapContiguous_walks hp hrooted rfl hclear.spared hmap hroom
  constructor
  · intro k hk o ho
    have hin := a.inPage halign hfit hk ho
    have hoffset : (vaddr + k * a.pgsize + o) % a.pgsize = o := by
      rw [Nat.add_assoc, Nat.add_mod, halign, Nat.zero_add, Nat.mod_mod, Nat.mul_add_mod_self_right,
        Nat.mod_eq_of_lt ho]
    rw [hwTranslate_eq, hwTranslate_eq, hwalks, ← hin.slot]
    by_cases hslot : pageIndex (vaddr + k * a.pgsize + o) / 2 ^ 27 ≤ pml4FromVa vaddr + pml4FromVa a.size
    · have hfree := MapArgs.not_blocked (hclear _ hin.above hin.below)
      rw [if_pos ⟨⟨hin.above, hin.below, hslot⟩, hfree⟩, if_pos hslot, hin.page, Option.bind_some]
      rw [a.hwAddress_word k _ _ hphys, hoffset]
    · rw [if_neg fun h => hslot h.1.2.2, if_neg hslot]
  · intro va hva
    rw [a.inRange_iff halign] at hva
    rw [hwTranslate_eq, hwTranslate_eq, hwalks, if_neg fun h => hva ⟨h.1.1, h.1.2.1⟩]

/-- For every tree, both page sizes and every range in the 48 bits, with no larger page on its
way: the call maps exactly the range when it is within the bounds of the loops, and only then. -/
theorem mapContiguous_exact_iff (hp : Supply pages limit) (hrooted : Rooted pages limit pgtable s pos)
    (hphys : a.physAddr % a.pgsize = 0) (halign : vaddr % a.pgsize = 0)
    (hfit : vaddr % 2 ^ 48 + a.size ≤ 2 ^ 48) (hclear : a.Clear (a.start vaddr) (walkAt s pgtable))
    (hroom : s.next + (pml4FromVa a.size + 1) * 262657 ≤ limit) :
    MapsExactly pages s pgtable vaddr a ↔ a.Within s pgtable vaddr := by
  by_cases hbound : pml4FromVa vaddr + pml4FromVa a.size < 512
  swap
  · have hnone : mapContiguous pages s pgtable a.physAddr vaddr a.size a.big a.prot = none := if_neg hbound
    refine ⟨?_, fun hwithin => absurd hwithin.1 hbound⟩
    rintro ⟨s', hmap, -⟩
    rw [hnone] at hmap
    contradiction
  obtain ⟨s', hmap⟩ : ∃ s', mapContiguous pages s pgtable a.physAddr vaddr a.size a.big a.prot = some s' :=
    ⟨_, if_pos hbound⟩
  have htranslates := mapContiguous_translates hp hrooted hphys halign hfit hclear hmap
    ((mapContiguous_takes hmap).trans hroom)
  have hsize : 0 < a.pgsize := by
    rw [pgsize_eq]
    exact Nat.mul_pos a.unit_pos (by norm_num)
  constructor
  · rintro ⟨s'', hmap', hinside, -⟩
    obtain rfl := Option.some.inj (hmap.symm.trans hmap')
    refine ⟨hbound, fun k hk => ?_⟩
    split_ifs with hslot
    · have hpage := hinside k hk 0 hsize
      rw [htranslates.inside k hk 0 hsize, if_pos hslot, Nat.add_zero, Nat.add_zero,
        Option.some.injEq] at hpage
      rw [← hpage]
      exact Nat.mod_lt _ (by norm_num)
    · intro o ho
      rw [← hinside k hk o ho, htranslates.inside k hk o ho, if_neg hslot]
  · rintro ⟨-, hpages⟩
    refine ⟨s', hmap, fun k hk o ho => ?_, htranslates.outside⟩
    have hpage := hpages k hk
    rw [htranslates.inside k hk o ho]
    split_ifs at hpage ⊢ with hslot
    · rw [Nat.mod_eq_of_lt hpage]
    · exact hpage o ho

end translation

/-! ### Two ranges in a new tree -/

theorem newRoot_clear (a : MapArgs) (first : Nat) :
    a.Clear first (walkAt (newRoot lowPages fun _ _ => 0) (lowPages 0)) := by
  intro x _ _ w r hwalk
  rw [walkAt_newRoot] at hwalk
  contradiction

/-- Two pages of 4 KiB, the second of which lies in the next table. -/
theorem two_tables_exact :
    MapsExactly lowPages (newRoot lowPages fun _ _ => 0) (lowPages 0) 0x5ff000
      ⟨0x5000, 0x2000, false, kernelProt⟩ := by
  refine (mapContiguous_exact_iff lowPages_supply (newRoot_rooted lowPages_supply (by norm_num) _)
    (by decide) (by decide) (by decide) (newRoot_clear _ _) (by decide)).mpr ⟨by decide, ?_⟩
  intro k hk
  have hk : k < 2 := hk
  interval_cases k <;> decide

/-- Of two pages of 4 KiB across the end of the first top-level entry the second is not mapped. -/
theorem crossing_range_cut :
    ¬ ∀ (pages : Nat → Nat) (limit pgtable vaddr : Nat) (s : Tables) (pos : Nat → Option (List Nat))
      (a : MapArgs), Supply pages limit → Rooted pages limit pgtable s pos → 0 < a.size →
        a.physAddr % a.pgsize = 0 → vaddr % a.pgsize = 0 → vaddr % 2 ^ 48 + a.size ≤ 2 ^ 48 →
        a.Clear (a.start vaddr) (walkAt s pgtable) →
        s.next + (pml4FromVa a.size + 1) * 262657 ≤ limit → MapsExactly pages s pgtable vaddr a := by
  intro hall
  have hrooted := newRoot_rooted lowPages_supply (by norm_num) fun _ _ => 0
  obtain ⟨s', hmap, hinside, -⟩ := hall lowPages (2 ^ 30) (lowPages 0) (2 ^ 39 - 0x1000) _ _
    ⟨0, 0x2000, false, kernelProt⟩ lowPages_supply hrooted (by decide) (by decide) (by decide) (by decide)
    (newRoot_clear _ _) (by decide)
  have htranslates := mapContiguous_translates lowPages_supply hrooted (by decide) (by decide) (by decide)
    (newRoot_clear _ _) hmap ((mapContiguous_takes hmap).trans (by decide))
  have hpage := hinside 1 (by decide) 0 (by decide)
  rw [htranslates.inside 1 (by decide) 0 (by decide), if_neg (by decide), hwTranslate_eq,
    walkAt_newRoot] at hpage
  contradiction

end Lucix.PageTable
