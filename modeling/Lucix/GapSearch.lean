import Lucix.VmaLayout

/-! The search for a free range in `arch/x86_64/vma.c`. On a list that is not empty the
loop tries the gaps between the areas in order, from the low limit to the limit, and
takes the first one that is wide enough; the width of a gap in front of an area below
the low limit is a negative difference that wraps around. -/
namespace Lucix.Mm

/-- The gaps in front of, between and behind the areas. -/
def gaps : Nat → List VmArea → List (Nat × Nat)
  | low, [] => [(low, x86Limit)]
  | low, area :: rest => (low, area.start) :: gaps area.endAddr rest

/-- The test on a gap. -/
def wide (len : Nat) (gap : Nat × Nat) : Bool :=
  decide (sub64 gap.2 gap.1 > wrap64 (len + pageSize * 2))

/-- The areas keep clear of `[start, start + len)` and of a page on both sides of it, and all of it
is between the limits. -/
structure ClearPlace (areas : List VmArea) (start len : Nat) : Prop where
  low : x86LowLimit + pageSize ≤ start
  high : start + len + pageSize ≤ x86Limit
  clear : ∀ a ∈ areas, a.endAddr + pageSize ≤ start ∨ start + len + pageSize ≤ a.start

/-- The range between the limits that holds no area. -/
structure FreeRange (areas : List VmArea) (lo hi : Nat) : Prop where
  low : x86LowLimit ≤ lo
  high : hi ≤ x86Limit
  clear : ∀ a ∈ areas, a.endAddr ≤ lo ∨ hi ≤ a.start

/-- The search is sound and complete. -/
structure SearchMeets (areas : List VmArea) (len : Nat) : Prop where
  sound : ∀ start endAddr, cpuAssignVmaVaddr areas len = some (start, endAddr) →
    endAddr = start + len ∧ ClearPlace areas start len
  complete : ∀ lo hi, FreeRange areas lo hi → lo + len + pageSize * 2 < hi →
    (cpuAssignVmaVaddr areas len).isSome = true

/-- No range is large enough for an empty list to be searched; the lowest area starts at the low
limit or above, or the range behind the low limit happens to be free. For a length within two
pages of `2 ^ 64` no gap is wider than what is left of the wrapped sum. -/
def SearchFits (len : Nat) : List VmArea → Prop
  | [] => x86Limit ≤ x86LowLimit + len + pageSize * 2
  | first :: rest =>
      if len + pageSize * 2 < 2 ^ 64 then
        x86LowLimit ≤ first.start ∨ 2 ^ 64 ≤ len + pageSize * 2 + (x86LowLimit - first.start) ∨
          ClearPlace (first :: rest) (x86LowLimit + pageSize) len
      else x86LowLimit ≤ first.start ∧
        ∀ gap ∈ gaps x86LowLimit (first :: rest), gap.2 + 2 ^ 64 ≤ gap.1 + (len + pageSize * 2)

section search
variable {areas : List VmArea} {len low : Nat}

theorem assignVmaVaddr_eq (hne : areas ≠ []) : assignVmaVaddr len low areas =
    ((gaps low areas).find? (wide len)).map fun gap => placeInGap gap.1 len := by
  induction areas generalizing low with
  | nil => contradiction
  | cons area rest ih =>
      unfold assignVmaVaddr
      dsimp only
      rw [gaps, List.find?_cons]
      by_cases hprev : sub64 area.start low > wrap64 (len + pageSize * 2)
      · have hwide : wide len (low, area.start) = true := decide_eq_true hprev
        rw [if_pos hprev, hwide]
        rfl
      · have hwide : wide len (low, area.start) = false := decide_eq_false hprev
        rw [if_neg hprev, hwide]
        cases rest with
        | nil =>
            dsimp only
            rw [gaps, List.find?_cons]
            by_cases hnext : sub64 x86Limit area.endAddr > wrap64 (len + pageSize * 2)
            · have hwide : wide len (area.endAddr, x86Limit) = true := decide_eq_true hnext
              rw [if_pos hnext, hwide]
              rfl
            · have hwide : wide len (area.endAddr, x86Limit) = false := decide_eq_false hnext
              rw [if_neg hnext, hwide]
              rfl
        | cons next rest =>
            dsimp only
            -- the gap behind this area is the one in front of the next
            by_cases hnext : sub64 next.start area.endAddr > wrap64 (len + pageSize * 2)
            · have hwide : wide len (area.endAddr, next.start) = true := decide_eq_true hnext
              rw [if_pos hnext, gaps, List.find?_cons, hwide]
              rfl
            · rw [if_neg hnext, ih (List.cons_ne_nil _ _)]

theorem cpuAssignVmaVaddr_eq (hne : areas ≠ []) : cpuAssignVmaVaddr areas len =
    ((gaps x86LowLimit areas).find? (wide len)).map fun gap => placeInGap gap.1 len :=
  assignVmaVaddr_eq hne

theorem WellLaid.from_first {first : VmArea} {rest : List VmArea} (hwl : WellLaid (first :: rest))
    (hfirst : low ≤ first.start) : ∀ a ∈ first :: rest, low ≤ a.start := by
  intro a ha
  rcases List.mem_cons.mp ha with rfl | ha
  · exact hfirst
  · have hnonempty := hwl.bounds first List.mem_cons_self
    have habove := hwl.above a ha
    omega

theorem gaps_free (hwl : WellLaid areas) (hlow : ∀ a ∈ areas, low ≤ a.start) (hlimit : low ≤ x86Limit)
    {gap : Nat × Nat} (hgap : gap ∈ gaps low areas) :
    low ≤ gap.1 ∧ gap.1 ≤ gap.2 ∧ gap.2 ≤ x86Limit ∧ ∀ a ∈ areas, a.endAddr ≤ gap.1 ∨ gap.2 ≤ a.start := by
  induction areas generalizing low with
  | nil =>
      obtain rfl := List.mem_singleton.mp hgap
      exact ⟨Nat.le_refl _, hlimit, Nat.le_refl _, by simp⟩
  | cons area rest ih =>
      obtain ⟨hnonempty, hend⟩ := hwl.bounds area List.mem_cons_self
      have hfirst := hlow area List.mem_cons_self
      rcases List.mem_cons.mp hgap with rfl | hgap
      · refine ⟨Nat.le_refl _, hfirst, by omega, fun a ha => .inr ?_⟩
        rcases List.mem_cons.mp ha with rfl | ha
        · exact Nat.le_refl _
        · have := hwl.above a ha
          omega
      · obtain ⟨hle, horder, hhigh, hclear⟩ := ih hwl.tail hwl.above hend hgap
        refine ⟨by omega, horder, hhigh, fun a ha => ?_⟩
        rcases List.mem_cons.mp ha with rfl | ha
        · exact .inl hle
        · exact hclear a ha

theorem exists_gap {lo hi : Nat} (hlow : low ≤ lo) (hhigh : hi ≤ x86Limit)
    (hclear : ∀ a ∈ areas, a.endAddr ≤ lo ∨ hi ≤ a.start) : ∃ gap ∈ gaps low areas, gap.1 ≤ lo ∧ hi ≤ gap.2 := by
  induction areas generalizing low with
  | nil => exact ⟨(low, x86Limit), List.mem_singleton_self _, hlow, hhigh⟩
  | cons area rest ih =>
      rcases hclear area List.mem_cons_self with hbelow | habove
      · obtain ⟨gap, hgap, hin⟩ := ih hbelow fun a ha => hclear a (List.mem_cons_of_mem _ ha)
        exact ⟨gap, List.mem_cons_of_mem _ hgap, hin⟩
      · exact ⟨(low, area.start), List.mem_cons_self, hlow, habove⟩

theorem wide_iff {gap : Nat × Nat} (hle : gap.1 ≤ gap.2) (hhigh : gap.2 ≤ x86Limit)
    (hlen : len + pageSize * 2 < 2 ^ 64) :
    wide len gap = true ↔ gap.1 + len + pageSize * 2 < gap.2 := by
  rw [wide, decide_eq_true_iff, wrap64_of_lt hlen]
  rw [x86Limit] at hhigh
  rw [sub64_of_le hle (by omega)]
  omega

/-- The width of a gap that ends in front of its start has wrapped. -/
theorem sub64_of_gt {a b : Nat} (h : b < a) (ha : a < 2 ^ 64) : sub64 b a = 2 ^ 64 - (a - b) := by
  rw [sub64]
  omega

theorem gap_le_limit (hwl : WellLaid areas) {gap : Nat × Nat} (hgap : gap ∈ gaps low areas) :
    gap.2 ≤ x86Limit := by
  induction areas generalizing low with
  | nil =>
      obtain rfl := List.mem_singleton.mp hgap
      exact Nat.le_refl _
  | cons area rest ih =>
      rcases List.mem_cons.mp hgap with rfl | hgap
      · have := hwl.bounds area List.mem_cons_self
        dsimp only
        omega
      · exact ih hwl.tail hgap

theorem cpuAssignVmaVaddr_complete (hne : areas ≠ []) (hwl : WellLaid areas) {lo hi : Nat}
    (hfree : FreeRange areas lo hi) (hroom : lo + len + pageSize * 2 < hi) :
    (cpuAssignVmaVaddr areas len).isSome = true := by
  obtain ⟨gap, hgap, hlo, hhi⟩ := exists_gap hfree.low hfree.high hfree.clear
  have hlimit := gap_le_limit hwl hgap
  have hsmall : len + pageSize * 2 < 2 ^ 64 := by
    rw [x86Limit] at hlimit
    omega
  have hwide : wide len gap = true := (wide_iff (by omega) hlimit hsmall).mpr (by omega)
  rw [cpuAssignVmaVaddr_eq hne, Option.isSome_map, List.find?_isSome]
  exact ⟨gap, hgap, hwide⟩

theorem cpuAssignVmaVaddr_sound {first : VmArea} {rest : List VmArea} (hwl : WellLaid (first :: rest))
    (hfirst : x86LowLimit ≤ first.start) (hlen : len + pageSize * 2 < 2 ^ 64) {start endAddr : Nat}
    (hcall : cpuAssignVmaVaddr (first :: rest) len = some (start, endAddr)) :
    endAddr = start + len ∧ ClearPlace (first :: rest) start len := by
  rw [cpuAssignVmaVaddr_eq (List.cons_ne_nil _ _), Option.map_eq_some_iff] at hcall
  obtain ⟨gap, hfind, hplace⟩ := hcall
  have hlow := hwl.from_first hfirst
  obtain ⟨hle, horder, hhigh, hclear⟩ := gaps_free hwl hlow (by decide) (List.mem_of_find?_eq_some hfind)
  have hroom := (wide_iff horder hhigh hlen).mp (List.find?_some hfind)
  rw [(placeInGap_eq hroom hhigh).2, Prod.mk.injEq] at hplace
  obtain ⟨rfl, rfl⟩ := hplace
  refine ⟨rfl, by omega, by omega, fun a ha => ?_⟩
  rcases hclear a ha with hbelow | habove
  · left
    omega
  · right
    omega

/-- A first area below the low limit makes the gap in front of it the one that is taken, unless the
length is close to `2 ^ 64`. -/
theorem cpuAssignVmaVaddr_below {first : VmArea} {rest : List VmArea} (hwl : WellLaid (first :: rest))
    (hfirst : first.start < x86LowLimit) (hlen : len + pageSize * 2 < 2 ^ 64) :
    cpuAssignVmaVaddr (first :: rest) len =
      if 2 ^ 64 ≤ len + pageSize * 2 + (x86LowLimit - first.start) then none
      else some (placeInGap x86LowLimit len) := by
  have hwidth : sub64 first.start x86LowLimit = 2 ^ 64 - (x86LowLimit - first.start) :=
    sub64_of_gt hfirst (by decide)
  rw [cpuAssignVmaVaddr_eq (List.cons_ne_nil _ _), gaps, List.find?_cons]
  split_ifs with hhuge
  · have hwide : wide len (x86LowLimit, first.start) = false := by
      rw [wide, decide_eq_false_iff_not, wrap64_of_lt hlen, hwidth]
      omega
    have hnone : (gaps first.endAddr rest).find? (wide len) = none := by
      rw [List.find?_eq_none]
      intro gap hgap
      obtain ⟨-, horder, hhigh, -⟩ := gaps_free hwl.tail hwl.above
        (hwl.bounds first List.mem_cons_self).2 hgap
      rw [wide_iff horder hhigh hlen]
      rw [x86Limit] at hhigh
      rw [x86LowLimit] at hhuge
      omega
    rw [hwide, hnone]
    rfl
  · have hwide : wide len (x86LowLimit, first.start) = true := by
      rw [wide, decide_eq_true_iff, wrap64_of_lt hlen, hwidth]
      omega
    rw [hwide]
    rfl

theorem cpuAssignVmaVaddr_wrapped {first : VmArea} {rest : List VmArea} (hwl : WellLaid (first :: rest))
    (hlen : len < 2 ^ 64) (hwrap : 2 ^ 64 ≤ len + pageSize * 2) :
    cpuAssignVmaVaddr (first :: rest) len = none ↔ x86LowLimit ≤ first.start ∧
      ∀ gap ∈ gaps x86LowLimit (first :: rest), gap.2 + 2 ^ 64 ≤ gap.1 + (len + pageSize * 2) := by
  have hsum : wrap64 (len + pageSize * 2) = len + pageSize * 2 - 2 ^ 64 :=
    wrap64_of_ge hwrap (by rw [pageSize]; omega)
  rw [cpuAssignVmaVaddr_eq (List.cons_ne_nil _ _), Option.map_eq_none_iff, List.find?_eq_none]
  have hnot : ∀ gap : Nat × Nat, gap.1 ≤ gap.2 → gap.2 ≤ x86Limit →
      (¬ wide len gap = true ↔ gap.2 + 2 ^ 64 ≤ gap.1 + (len + pageSize * 2)) := by
    intro gap hle hhigh
    rw [x86Limit] at hhigh
    rw [wide, decide_eq_true_iff, hsum, sub64_of_le hle (by omega)]
    omega
  by_cases hfirst : x86LowLimit ≤ first.start
  · have hlow := hwl.from_first hfirst
    constructor
    · intro hall
      refine ⟨hfirst, fun gap hgap => ?_⟩
      obtain ⟨-, horder, hhigh, -⟩ := gaps_free hwl hlow (by decide) hgap
      exact (hnot gap horder hhigh).mp (hall gap hgap)
    · rintro ⟨-, hall⟩ gap hgap
      obtain ⟨-, horder, hhigh, -⟩ := gaps_free hwl hlow (by decide) hgap
      exact (hnot gap horder hhigh).mpr (hall gap hgap)
  · refine iff_of_false (fun hall => hall _ List.mem_cons_self ?_) fun h => hfirst h.1
    rw [wide, decide_eq_true_iff, hsum, sub64_of_gt (by omega) (show x86LowLimit < 2 ^ 64 by decide)]
    rw [x86LowLimit] at *
    rw [pageSize] at *
    omega

theorem searchMeets_nil : SearchMeets [] len ↔ x86Limit ≤ x86LowLimit + len + pageSize * 2 := by
  have hnone : cpuAssignVmaVaddr [] len = none := rfl
  constructor
  · intro h
    by_contra hroom
    have hsome := h.complete x86LowLimit x86Limit ⟨Nat.le_refl _, Nat.le_refl _, by simp⟩ (Nat.lt_of_not_le hroom)
    rw [hnone] at hsome
    contradiction
  · intro hfull
    refine ⟨fun start endAddr hcall => ?_, fun lo hi hfree hroom => ?_⟩
    · rw [hnone] at hcall
      contradiction
    · have hlow := hfree.low
      have hhigh := hfree.high
      omega

/-- A list that begins below the low limit is searched by a difference that wraps. -/
theorem searchMeets_below {first : VmArea} {rest : List VmArea} (hwl : WellLaid (first :: rest))
    (hfirst : first.start < x86LowLimit) (hlen : len + pageSize * 2 < 2 ^ 64) :
    SearchMeets (first :: rest) len ↔ 2 ^ 64 ≤ len + pageSize * 2 + (x86LowLimit - first.start) ∨
      ClearPlace (first :: rest) (x86LowLimit + pageSize) len := by
  have hcomplete : ∀ lo hi, FreeRange (first :: rest) lo hi → lo + len + pageSize * 2 < hi →
      (cpuAssignVmaVaddr (first :: rest) len).isSome = true := fun lo hi hfree hroom =>
    cpuAssignVmaVaddr_complete (List.cons_ne_nil _ _) hwl hfree hroom
  have hcall := cpuAssignVmaVaddr_below hwl hfirst hlen
  split_ifs at hcall with hhuge
  · refine iff_of_true ⟨fun start endAddr hsome => ?_, hcomplete⟩ (.inl hhuge)
    rw [hcall] at hsome
    contradiction
  · have hstart : wrap64 (x86LowLimit + pageSize) = x86LowLimit + pageSize := wrap64_of_lt (by decide)
    rw [placeInGap, hstart] at hcall
    constructor
    · intro h
      exact .inr (h.sound _ _ hcall).2
    · intro hfits
      have hclear := hfits.resolve_left hhuge
      have hhigh := hclear.high
      refine ⟨fun start endAddr hsome => ?_, hcomplete⟩
      rw [hcall, Option.some.injEq, Prod.mk.injEq] at hsome
      obtain ⟨rfl, rfl⟩ := hsome
      rw [x86Limit] at hhigh
      exact ⟨wrap64_of_lt (by omega), hclear⟩

/-- No place is large enough for a length whose sum with two pages wraps, so none may be found. -/
theorem searchMeets_wrapped (hlen : len < 2 ^ 64) (hwrap : 2 ^ 64 ≤ len + pageSize * 2) :
    SearchMeets areas len ↔ cpuAssignVmaVaddr areas len = none := by
  constructor
  · intro h
    cases hcall : cpuAssignVmaVaddr areas len with
    | none => rfl
    | some place =>
        have hhigh := (h.sound place.1 place.2 hcall).2.high
        rw [x86Limit] at hhigh
        rw [pageSize] at *
        omega
  · intro hnone
    refine ⟨fun start endAddr hcall => ?_, fun lo hi hfree hroom => ?_⟩
    · rw [hnone] at hcall
      contradiction
    · have hhigh := hfree.high
      rw [x86Limit] at hhigh
      omega

end search

/-- For every well-laid list of areas and every length the search is sound and complete exactly
when it fits: an empty list is never searched, and a list that begins below the low limit is
searched by a difference that wraps. -/
theorem search_meets_iff (areas : List VmArea) (len : Nat) (hwl : WellLaid areas) (hlen : len < 2 ^ 64) :
    SearchMeets areas len ↔ SearchFits len areas := by
  cases areas with
  | nil => exact searchMeets_nil
  | cons first rest =>
      rw [SearchFits]
      split_ifs with hsmall
      · by_cases hfirst : x86LowLimit ≤ first.start
        · refine iff_of_true ⟨fun start endAddr => cpuAssignVmaVaddr_sound hwl hfirst hsmall, ?_⟩ (.inl hfirst)
          exact fun lo hi hfree hroom => cpuAssignVmaVaddr_complete (List.cons_ne_nil _ _) hwl hfree hroom
        · rw [searchMeets_below hwl (Nat.lt_of_not_le hfirst) hsmall, or_iff_right hfirst]
      · have hwrap := Nat.le_of_not_lt hsmall
        rw [← cpuAssignVmaVaddr_wrapped hwl hlen hwrap]
        exact searchMeets_wrapped hlen hwrap

/-- An anonymous area at the given addresses. -/
def plainArea (start endAddr : Nat) : VmArea :=
  { clearedObject with start := start, endAddr := endAddr, length := endAddr - start }

/-- A range of one page behind an area above the low limit. -/
theorem search_meets_page : WellLaid [plainArea 0x400000 0x401000] ∧
    SearchMeets [plainArea 0x400000 0x401000] 0x1000 := by
  have hwl : WellLaid [plainArea 0x400000 0x401000] := ⟨by decide, by decide⟩
  refine ⟨hwl, (search_meets_iff _ 0x1000 hwl (by decide)).mpr ?_⟩
  rw [SearchFits, if_pos (by decide)]
  exact .inl (by decide)

/-- A program at `0x40000` and an area at the low limit: the page that is found lies inside the
latter. -/
theorem search_below_low_limit_unsound : ¬ ∀ (areas : List VmArea) (len : Nat), WellLaid areas →
    len % pageSize = 0 → len < 2 ^ 64 → SearchMeets areas len := by
  intro h
  have hwl : WellLaid [plainArea 0x40000 0x41000, plainArea 0x400000 0x500000] := ⟨by decide, by decide⟩
  have hmeets := h _ 0x1000 hwl (by decide) (by decide)
  have hcall := cpuAssignVmaVaddr_below hwl (by decide) (show 0x1000 + pageSize * 2 < 2 ^ 64 by decide)
  rw [if_neg (by decide)] at hcall
  have hplace : placeInGap x86LowLimit 0x1000 = (0x401000, 0x402000) := by
    rw [placeInGap, wrap64_of_lt (by decide), wrap64_of_lt (by decide)]
    rfl
  rw [hplace] at hcall
  have hclear := (hmeets.sound _ _ hcall).2.clear (plainArea 0x400000 0x500000) (by simp)
  exact absurd hclear (by decide)

end Lucix.Mm
