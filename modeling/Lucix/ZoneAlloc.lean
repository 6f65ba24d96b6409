import Lucix.MetadataRegions

/-! The contract of `__alloc_from_zone` by itself, for any free lists and not only for
those that a history of calls leaves: the lists are disjoint, aligned blocks of the
zone, and the pages that no block covers may be in any use. The toggle at the end of a call
may lie behind the bitmap of its order, which `mem_init` rounds down; such a call writes to
memory that is not the bitmaps', and is not defined. -/
namespace Lucix.PageAlloc
open Ring Execution
open Buddy (Block Take Tiled)

/-- The lists `F` are the free lists of the zone: rings of disjoint, aligned blocks inside it,
and a page struct that heads none of them is linked to itself. -/
structure FreeLists (zone : MemoryZone) (F : Nat → List Nat) : Prop where
  ring : ∀ o ≤ zone.maxOrder, zone.links.IsRing (.area o) ((F o).map .page)
  aligned : ∀ o ≤ zone.maxOrder, ∀ s ∈ F o, 2 ^ o ∣ s
  inside : ∀ o ≤ zone.maxOrder, ∀ s ∈ F o, s + 2 ^ o ≤ zone.usableNumPages
  disjoint : (Buddy.blocks F (zone.maxOrder + 1)).Pairwise Block.Disjoint
  idle : ∀ i < zone.usableNumPages, (∀ o ≤ zone.maxOrder, i ∉ F o) → zone.links.SelfLinked (.page i)

/-- The arrays of page structs are apart and the zone has no order above the largest. -/
structure Sited (st : AllocState) (z : Nat) : Prop where
  mapsApart : st.MapsApart
  zone_lt : z < st.numZones
  maxOrder_le : (st.zones z).maxOrder ≤ maxPgOrder

/-- A listed block of an order up to `top` contains page `i`. -/
def Covered (top : Nat) (F : Nat → List Nat) (i : Nat) : Prop :=
  ∃ o ≤ top, ∃ s ∈ F o, s ≤ i ∧ i < s + 2 ^ o

/-- No list from `order` on has a block. -/
def NoneFrom (zone : MemoryZone) (F : Nat → List Nat) (order : Nat) : Prop :=
  ∀ o, order ≤ o → o ≤ zone.maxOrder → F o = []

/-- The first block of the lowest list from the order on, that of order `o`. -/
structure FirstBlock (F : Nat → List Nat) (order o page : Nat) : Prop where
  le : order ≤ o
  below : ∀ k, order ≤ k → k < o → F k = []
  first : ∃ t, F o = page :: t

/-- The bitmaps have the words that a call toggles for the block it takes, if there is one. -/
def FirstFits (zone : MemoryZone) (F : Nat → List Nat) (order : Nat) : Prop :=
  ∀ o page, o ≤ zone.maxOrder → FirstBlock F order o page → zone.TogglesFit page order o

/-- What a call that finds a block returns and leaves behind. -/
structure Takes (zone : MemoryZone) (F : Nat → List Nat) (order page : Nat) (zone' : MemoryZone)
    (F' : Nat → List Nat) : Prop where
  first : ∃ o t, order ≤ o ∧ o ≤ zone.maxOrder ∧ (∀ k, order ≤ k → k < o → F k = []) ∧ F o = page :: t
  aligned : 2 ^ order ∣ page
  pages : ∀ i, Covered zone.maxOrder F' i ↔
    Covered zone.maxOrder F i ∧ ¬ (page ≤ i ∧ i < page + 2 ^ order)
  taken : ∀ i, page ≤ i → i < page + 2 ^ order → Covered zone.maxOrder F i
  lists : FreeLists zone' F'
  detached : zone'.links.SelfLinked (.page page)
  only : zone.OnlyLists zone'

/-- The call finds nothing exactly where all lists from its order on are empty, and then it
changes nothing; otherwise it takes a block. -/
def AllocFits (st : AllocState) (z order : Nat) (F : Nat → List Nat) : Prop :=
  (NoneFrom (st.zones z) F order ∧ allocFromZone numPgOrders st z order = some (none, st)) ∨
    (¬ NoneFrom (st.zones z) F order ∧ ∃ page zone F',
      allocFromZone numPgOrders st z order = some (some page, st.setZone z zone) ∧
      Takes (st.zones z) F order page zone F')

/-- A call that records the block it gets. -/
def allocStep (z : Nat) (s : AllocState × List Block) (order : Nat) :
    Option (AllocState × List Block) :=
  (allocFromZone numPgOrders s.1 z order).map fun r =>
    (r.2, (r.1.map fun page => (⟨page, order⟩ : Block)).toList ++ s.2)

/-- The zone has the order of the call, whose toggles stay inside the bitmaps. -/
def CallFits (z : Nat) (s : AllocState × List Block) (order : Nat) : Prop :=
  order ≤ (s.1.zones z).maxOrder ∧
    ∀ F, FreeLists (s.1.zones z) F → FirstFits (s.1.zones z) F order

section lists
variable {zone : MemoryZone} {F : Nat → List Nat} {S : Buddy.State} {live : List Block}

theorem covered_iff {top i : Nat} :
    Covered top F i ↔ 0 < Buddy.cover (Buddy.blocks F (top + 1)) i := by
  rw [Buddy.cover_pos_iff]
  constructor
  · rintro ⟨o, ho, s, hs, hmem⟩
    exact ⟨⟨s, o⟩, Buddy.mem_blocks.mpr ⟨Nat.lt_succ_of_le ho, hs⟩, hmem⟩
  · rintro ⟨b, hb, hmem⟩
    obtain ⟨ho, hs⟩ := Buddy.mem_blocks.mp hb
    exact ⟨b.order, Nat.le_of_lt_succ ho, b.start, hs, hmem⟩

/-- The abstract store with these lists and the bits of the zone. -/
def storeOf (zone : MemoryZone) (F : Nat → List Nat) : Buddy.State where
  free := fun o => if o ≤ zone.maxOrder then F o else []
  bit := zone.bit

theorem storeOf_free {o : Nat} (ho : o ≤ zone.maxOrder) : (storeOf zone F).free o = F o := if_pos ho

theorem storeOf_blocks :
    Buddy.blocks (storeOf zone F).free (zone.maxOrder + 1) = Buddy.blocks F (zone.maxOrder + 1) :=
  Buddy.blocks_congr fun _ ho => storeOf_free (Nat.le_of_lt_succ ho)

theorem FreeLists.rep (h : FreeLists zone F) : Rep zone (storeOf zone F) where
  ring := by
    intro o ho
    rw [storeOf_free ho]
    exact h.ring o ho
  idle := by
    intro i hi hout
    apply h.idle i hi
    intro o ho
    rw [← storeOf_free (F := F) ho]
    exact hout o ho
  above := fun o ho => if_neg (Nat.not_le.mpr ho)
  bit := rfl

/-- The pages that no block covers are taken to be in use one by one. -/
theorem FreeLists.tiled (h : FreeLists zone F) :
    Tiled zone.maxOrder zone.usableNumPages (storeOf zone F)
      (Buddy.uncovered zone.maxOrder zone.usableNumPages (storeOf zone F)) := by
  apply Buddy.tiled_uncovered
  · intro o ho s hs
    rw [storeOf_free ho] at hs
    exact h.aligned o ho s hs
  · rw [storeOf_blocks]
    exact h.disjoint
  · intro o ho s hs
    rw [storeOf_free ho] at hs
    exact h.inside o ho s hs

theorem Rep.freeLists (h : Rep zone S) (ht : Tiled zone.maxOrder zone.usableNumPages S live) :
    FreeLists zone S.free where
  ring := h.ring
  aligned := ht.aligned
  inside := fun _ ho _ hs => ht.free_end_le ho hs
  disjoint := (List.pairwise_append.mp ht.all_disjoint).1
  idle := h.idle

end lists

section spec
variable {st : AllocState} {z : Nat} {F : Nat → List Nat}

theorem takes_of_take {zone zone' : MemoryZone} {S' : Buddy.State} {order page : Nat}
    (h : FreeLists zone F) (htake : Take zone.maxOrder order (storeOf zone F) page S')
    (hrep : Rep zone' S') (honly : zone.OnlyLists zone') : Takes zone F order page zone' S'.free := by
  have ht := htake.tiled h.tiled
  have hl := honly.layout
  obtain ⟨o, t, hle, ho, hbelow, hfirst⟩ := htake.lowest
  have hcover := htake.cover
  rw [storeOf_blocks] at hcover
  have ht' : Tiled zone'.maxOrder zone'.usableNumPages S' (⟨page, order⟩ ::
      Buddy.uncovered zone.maxOrder zone.usableNumPages (storeOf zone F)) := by
    rw [hl]
    exact ht
  have hlists : FreeLists zone' S'.free := hrep.freeLists ht'
  have hmem : (⟨page, order⟩ : Block) ∈ (⟨page, order⟩ : Block) ::
      Buddy.uncovered zone.maxOrder zone.usableNumPages (storeOf zone F) := List.mem_cons_self
  refine ⟨⟨o, t, hle, ho, ?_, ?_⟩, ht.live_aligned _ hmem, ?_, ?_, hlists, ?_, honly⟩
  · intro k hk hlt
    rw [← storeOf_free (F := F) (by omega : k ≤ zone.maxOrder)]
    exact hbelow k hk hlt
  · rwa [storeOf_free ho] at hfirst
  · intro i
    have hone := Buddy.cover_le_one h.disjoint i
    have hi := hcover i
    rw [covered_iff, covered_iff]
    rw [Buddy.cover_singleton] at hi
    dsimp only at hi
    split_ifs at hi with hin
    · simp only [hin, and_self, not_true_eq_false, and_false, iff_false]
      omega
    · simp only [hin, not_false_eq_true, and_true]
      omega
  · intro i hlow hhigh
    have hi := hcover i
    rw [Buddy.cover_singleton, if_pos ⟨hlow, hhigh⟩] at hi
    rw [covered_iff]
    omega
  · apply hrep.idle page
    · rw [hl]
      exact ht.mem_lt (List.mem_append_right _ hmem) (Block.mem_start _)
    · intro o ho
      rw [hl] at ho
      exact ht.not_mem_free hmem ho

/-- What `__alloc_from_zone` does on the lists of a zone. -/
theorem FreeLists.runs (h : FreeLists (st.zones z) F) (hs : Sited st z) {order : Nat}
    (ho : order ≤ (st.zones z).maxOrder) :
    (NoneFrom (st.zones z) F order ∧ allocFromZone numPgOrders st z order = some (none, st)) ∨
    ∃ o page, o ≤ (st.zones z).maxOrder ∧ FirstBlock F order o page ∧
      (((st.zones z).TogglesFit page order o ∧ ∃ zone F',
          allocFromZone numPgOrders st z order = some (some page, st.setZone z zone) ∧
          Takes (st.zones z) F order page zone F') ∨
        (¬ (st.zones z).TogglesFit page order o ∧ allocFromZone numPgOrders st z order = none)) := by
  have hfuel : (st.zones z).maxOrder - order < numPgOrders := by
    have := hs.maxOrder_le
    unfold numPgOrders
    omega
  rcases allocFromZone_runs hs.mapsApart hs.zone_lt h.rep h.tiled ho hfuel with
    ⟨hcall, hempty⟩ | ⟨o, page, t, hle, hmax, hbelow, hfirst, hcase⟩
  · left
    refine ⟨fun o hle hmax => ?_, hcall⟩
    rw [← storeOf_free (F := F) hmax]
    exact hempty o hle hmax
  · right
    rw [storeOf_free hmax] at hfirst
    refine ⟨o, page, hmax, ⟨hle, fun k hk hko => ?_, t, hfirst⟩, ?_⟩
    · rw [← storeOf_free (F := F) (by omega : k ≤ (st.zones z).maxOrder)]
      exact hbelow k hk hko
    · rcases hcase with ⟨hfits, zone, S', hcall, htake, hrep, honly⟩ | hnot
      · exact .inl ⟨hfits, zone, S'.free, hcall, takes_of_take h htake hrep honly⟩
      · exact .inr hnot

theorem FirstBlock.unique {order o o' page page' : Nat} (h : FirstBlock F order o page)
    (h' : FirstBlock F order o' page') : o' = o ∧ page' = page := by
  obtain ⟨t, ht⟩ := h.first
  obtain ⟨t', ht'⟩ := h'.first
  rcases Nat.lt_trichotomy o' o with hlt | rfl | hlt
  · rw [h.below o' h'.le hlt] at ht'
    contradiction
  · rw [ht] at ht'
    exact ⟨rfl, (List.cons.inj ht').1.symm⟩
  · rw [h'.below o h.le hlt] at ht
    contradiction

theorem FirstBlock.not_noneFrom {order o page : Nat} (h : FirstBlock F order o page)
    (hmax : o ≤ (st.zones z).maxOrder) : ¬ NoneFrom (st.zones z) F order := by
  intro hnone
  obtain ⟨t, ht⟩ := h.first
  rw [hnone o h.le hmax] at ht
  contradiction

/-- A call meets its contract exactly where its toggles stay inside the bitmaps. -/
theorem allocFits_iff (hs : Sited st z) (h : FreeLists (st.zones z) F) {order : Nat}
    (ho : order ≤ (st.zones z).maxOrder) :
    AllocFits st z order F ↔ FirstFits (st.zones z) F order := by
  rcases h.runs hs ho with ⟨hnone, hcall⟩ | ⟨o, page, hmax, hblock, hcase⟩
  · refine iff_of_true (.inl ⟨hnone, hcall⟩) fun o page hmax hblock => ?_
    exact absurd hnone (hblock.not_noneFrom hmax)
  · have hsome := hblock.not_noneFrom hmax
    rcases hcase with ⟨hfits, zone, F', hcall, htakes⟩ | ⟨hnot, hcall⟩
    · refine iff_of_true (.inr ⟨hsome, page, zone, F', hcall, htakes⟩) fun o' page' _ hblock' => ?_
      obtain ⟨rfl, rfl⟩ := hblock.unique hblock'
      exact hfits
    · refine iff_of_false ?_ fun hfirst => hnot (hfirst o page hmax hblock)
      rintro (⟨hnone, -⟩ | ⟨-, _, _, _, hcall', -⟩)
      · exact hsome hnone
      · rw [hcall] at hcall'
        contradiction

/-- The blocks handed out so far are disjoint and aligned, were free at the start, and with the
lists that are left make up what was free then. -/
structure Handed (st : AllocState) (z : Nat) (F : Nat → List Nat) (s : AllocState × List Block)
    (F' : Nat → List Nat) : Prop where
  sited : Sited s.1 z
  layout : (s.1.zones z).toZoneLayout = (st.zones z).toZoneLayout
  lists : FreeLists (s.1.zones z) F'
  aligned : ∀ b ∈ s.2, b.Aligned
  disjoint : s.2.Pairwise Block.Disjoint
  pages : ∀ i, Covered (st.zones z).maxOrder F' i ↔
    Covered (st.zones z).maxOrder F i ∧ ∀ b ∈ s.2, ¬ b.Mem i
  free : ∀ b ∈ s.2, ∀ i, b.Mem i → Covered (st.zones z).maxOrder F i

theorem Sited.setZone (h : Sited st z) {zone : MemoryZone}
    (hl : zone.toZoneLayout = (st.zones z).toZoneLayout) : Sited (st.setZone z zone) z := by
  have hsame := SameLayout.setZone hl
  refine ⟨hsame.mapsApart h.mapsApart, h.zone_lt, ?_⟩
  rw [hsame.layout z]
  exact h.maxOrder_le

theorem Handed.step {s : AllocState × List Block} {F' : Nat → List Nat} (h : Handed st z F s F')
    {order : Nat} (hfits : CallFits z s order) :
    ∃ s', allocStep z s order = some s' ∧ ∃ F'', Handed st z F s' F'' := by
  have hmax : (s.1.zones z).maxOrder = (st.zones z).maxOrder := by rw [h.layout]
  rcases (allocFits_iff h.sited h.lists hfits.1).mpr (hfits.2 F' h.lists) with
    ⟨-, hnone⟩ | ⟨-, page, zone, F'', hsome, htakes⟩
  · exact ⟨s, by rw [allocStep, hnone]; rfl, F', h⟩
  · refine ⟨(s.1.setZone z zone, ⟨page, order⟩ :: s.2), by rw [allocStep, hsome]; rfl, F'', ?_⟩
    have hzone : (s.1.setZone z zone).zones z = zone := by simp
    have hpages := htakes.pages
    have htaken := htakes.taken
    rw [hmax] at hpages htaken
    have hfresh : ∀ b ∈ s.2, Block.Disjoint ⟨page, order⟩ b := by
      rintro b hb i ⟨⟨hlow, hhigh⟩, hmem⟩
      exact ((h.pages i).mp (htaken i hlow hhigh)).2 b hb hmem
    refine ⟨h.sited.setZone htakes.only.layout, ?_, ?_, ?_, ?_, ?_, ?_⟩
    · rw [hzone, htakes.only.layout, h.layout]
    · rw [hzone]
      exact htakes.lists
    · intro b hb
      rcases List.mem_cons.mp hb with rfl | hb'
      · exact htakes.aligned
      · exact h.aligned b hb'
    · exact List.pairwise_cons.mpr ⟨hfresh, h.disjoint⟩
    · intro i
      rw [hpages i, h.pages i, List.forall_mem_cons]
      exact ⟨fun ⟨⟨hf, hall⟩, hout⟩ => ⟨hf, hout, hall⟩, fun ⟨hf, hout, hall⟩ => ⟨⟨hf, hall⟩, hout⟩⟩
    · intro b hb i hmem
      rcases List.mem_cons.mp hb with rfl | hb'
      · exact ((h.pages i).mp (htaken i hmem.1 hmem.2)).1
      · exact h.free b hb' i hmem

theorem Handed.start (hs : Sited st z) (h : FreeLists (st.zones z) F) : Handed st z F (st, []) F :=
  ⟨hs, rfl, h, nofun, .nil, fun i => by simp, nofun⟩

/-- With a bit for every pair all toggles stay inside. -/
theorem FreeLists.firstFits {zone : MemoryZone} (h : FreeLists zone F) (hfit : zone.BitmapsFit)
    (hmax : zone.maxOrder ≤ maxPgOrder) (order : Nat) : FirstFits zone F order := by
  intro o page ho hblock k _ _ hk
  obtain ⟨t, ht⟩ := hblock.first
  have hend := h.inside o ho page (by rw [ht]; exact List.mem_cons_self)
  have hpos := Nat.two_pow_pos o
  exact hfit.toggleFits (Nat.le_of_lt hk) (by omega) (by omega)

theorem Handed.guarded (hfit : (st.zones z).BitmapsFit) {orders : List Nat}
    (horders : ∀ o ∈ orders, o ≤ (st.zones z).maxOrder) {s : AllocState × List Block}
    {F' : Nat → List Nat} (h : Handed st z F s F') :
    Guarded (allocStep z) (CallFits z) s orders := by
  induction orders generalizing s F' with
  | nil => trivial
  | cons o orders ih =>
      have hcall : CallFits z s o := by
        refine ⟨?_, fun F'' hlists => hlists.firstFits ?_ h.sited.maxOrder_le o⟩ <;> rw [h.layout]
        · exact horders o List.mem_cons_self
        · exact hfit
      obtain ⟨s', hstep, F'', h'⟩ := h.step hcall
      refine ⟨hcall, ?_⟩
      rw [hstep]
      exact ih (fun o' ho' => horders o' (List.mem_cons_of_mem o ho')) h'

/-- Calls for the largest order take the blocks of its list one after the other. -/
theorem run_top_blocks {S : Buddy.State} {live : List Block} (hs : Sited st z)
    (hr : Rep (st.zones z) S) (ht : Tiled (st.zones z).maxOrder (st.zones z).usableNumPages S live)
    {bs t : List Nat} (hfree : S.free (st.zones z).maxOrder = bs ++ t) (l : List Block) :
    ∃ s S' live', run (allocStep z) (st, l) (bs.map fun _ => (st.zones z).maxOrder) = some s ∧
      Sited s.1 z ∧ (s.1.zones z).toZoneLayout = (st.zones z).toZoneLayout ∧
      Rep (s.1.zones z) S' ∧ Tiled (st.zones z).maxOrder (st.zones z).usableNumPages S' live' ∧
      S'.free (st.zones z).maxOrder = t ∧
      ∀ o, o ≠ (st.zones z).maxOrder → S'.free o = S.free o := by
  induction bs generalizing st S live l with
  | nil => exact ⟨_, S, live, rfl, hs, rfl, hr, ht, hfree, fun _ _ => rfl⟩
  | cons b bs ih =>
      have hfits : (st.zones z).TogglesFit b (st.zones z).maxOrder (st.zones z).maxOrder :=
        fun k hk _ hlt => absurd hlt (Nat.not_lt.mpr hk)
      obtain ⟨-, zone, S₁, hcall, htake, hrep, honly⟩ :=
        (allocFromZone_first hs.mapsApart hs.zone_lt hr ht (Nat.le_refl _) hfree maxPgOrder).resolve_right
          fun hnot => hnot.1 hfits
      have ht₁ := htake.tiled ht
      have hzone : (st.setZone z zone).zones z = zone := by simp
      have hlayout : ((st.setZone z zone).zones z).toZoneLayout = (st.zones z).toZoneLayout := by
        rw [hzone, honly.layout]
      have htop : S₁.free (st.zones z).maxOrder = bs ++ t ∧
          ∀ o, o ≠ (st.zones z).maxOrder → S₁.free o = S.free o := by
        cases htake with
        | top hfirst =>
            rw [hfree] at hfirst
            obtain ⟨-, rfl⟩ := List.cons.inj hfirst
            exact ⟨by simp, fun o ho => by simp [ho]⟩
        | here hlt => exact absurd hlt (Nat.lt_irrefl _)
        | split hlt => exact absurd hlt (Nat.lt_irrefl _)
      obtain ⟨s, S', live', hrun, hsited, hsame, hrep', ht', hfree', hothers⟩ :=
        ih (hs.setZone honly.layout) (hzone.symm ▸ hrep) (hlayout.symm ▸ ht₁) (hlayout.symm ▸ htop.1)
          (⟨b, (st.zones z).maxOrder⟩ :: l)
      rw [hlayout] at hrun hsame ht' hfree' hothers
      refine ⟨s, S', live', ?_, hsited, hsame, hrep', ht', hfree', fun o ho => (hothers o ho).trans (htop.2 o ho)⟩
      have hstep : allocStep z (st, l) (st.zones z).maxOrder =
          some (st.setZone z zone, ⟨b, (st.zones z).maxOrder⟩ :: l) := by
        rw [allocStep, show numPgOrders = maxPgOrder + 1 from rfl, hcall]
        rfl
      rw [List.map_cons, run, hstep, Option.bind_some]
      exact hrun

end spec

end Lucix.PageAlloc
